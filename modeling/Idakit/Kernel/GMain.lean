import Idakit.Decompiler.Ctree.Node
import Idakit.Library.Aarch64
import Mathlib.Data.Int.Bitwise

/-!
Where the library keeps the thread that it takes for its main one, decoded from
the code of `is_main_thread` on aarch64. The scan takes the first `adrp` that a
load through its register is found behind, and follows the register through
the additions on the way.
-/

namespace Idakit.Kernel

open Idakit.Types Idakit.Library

/-! ### The decoder -/

/-- Sums of signed numbers wrap, as in a release build; where they would, a
build with overflow checks decodes nothing. -/
def adrpPage (pc : UInt64) (insn : UInt32) : Option (UInt32 × UInt64) :=
  if insn &&& 0x9f000000 ≠ 0x90000000 then none
  else
    let imm : Int64 :=
      ((((insn >>> 5) &&& 0x7ffff) <<< 2) ||| ((insn >>> 29) &&& 0x3)).toUInt64.toInt64
    let page := (imm ^^^ 0x100000) - 0x100000
    some (insn &&& 0x1f, ((pc &&& ~~~0xfff).toInt64 + (page <<< 12)).toUInt64)

def addImm (insn rn : UInt32) : Option (UInt32 × UInt64) :=
  if insn &&& 0xff800000 ≠ 0x91000000 ∨ (insn >>> 5) &&& 0x1f ≠ rn then none
  else
    let shift : UInt64 := if insn &&& 0x400000 = 0 then 0 else 12
    some (insn &&& 0x1f, ((insn >>> 10) &&& 0xfff).toUInt64 <<< shift)

def ldrOffset (insn rn : UInt32) : Option UInt64 :=
  if insn &&& 0xffc00000 ≠ 0xf9400000 ∨ (insn >>> 5) &&& 0x1f ≠ rn then none
  else some (((insn >>> 10) &&& 0xfff).toUInt64 * 8)

/-- The inner loop: a load through a register that holds a base. -/
def scanLoad (reg : UInt32) (base : UInt64) : List UInt32 → Option UInt64
  | [] => none
  | insn :: insns =>
      match ldrOffset insn reg with
      | some off => some (base + off)
      | none =>
          match addImm insn reg with
          | some (dst, imm) => scanLoad dst (base + imm) insns
          | none => scanLoad reg base insns

def scanAdrp (pc : UInt64) : List UInt32 → Option UInt64
  | [] => none
  | adrp :: insns =>
      match adrpPage pc adrp with
      | some (reg, base) => (scanLoad reg base insns).orElse fun _ => scanAdrp (pc + 4) insns
      | none => scanAdrp (pc + 4) insns

structure Image where
  word : UInt64 → UInt32
  pointer : UInt64 → UInt64

def Image.words (image : Image) (n : ℕ) (address : UInt64) : List UInt32 :=
  (List.range n).map fun i => image.word (address + 4 * .ofNat i)

def followImportThunk (image : Image) (entry : UInt64) : UInt64 :=
  let adrp := image.word entry
  let ldr := image.word (entry + 4)
  let br := image.word (entry + 8)
  match adrpPage entry adrp with
  | none => entry
  | some (rd, base) =>
      if ldr &&& 0x1f ≠ rd ∨ br ≠ (0xd61f0000 : UInt32) ||| (rd <<< 5) then entry
      else
        match ldrOffset ldr rd with
        | some off => image.pointer (base + off)
        | none => entry

def window : ℕ := 8

/-- Eight digits, as `08x` writes them. -/
def hexWord (word : UInt32) : Text :=
  let digits := Nat.toDigits 16 word.toNat
  List.replicate (8 - digits.length) '0' ++ digits

def decodeGMain (image : Image) (entry : UInt64) : Except Text UInt64 :=
  let entry := followImportThunk image entry
  let insns := image.words window entry
  match scanAdrp entry insns with
  | some gMain => .ok gMain
  | none =>
      .error ("no g_main load in is_main_thread prologue [".toList ++
        ", ".toList.intercalate (insns.map hexWord) ++ "]".toList)

/-- The prologue of the Windows build, where an addition comes before the load. -/
example : scanAdrp 0x1006b5c58 [0xb00146e8, 0x91188114, 0xf9400693] = some 0x102f92628 := by
  decide

/-! ### The fields of instructions -/

open Aarch64

theorem xor_two_pow_of_lt {k r : ℕ} (h : r < 2 ^ k) : r ^^^ 2 ^ k = r + 2 ^ k := by
  have hor : 2 ^ k ||| r = r + 2 ^ k := by
    have := Nat.two_pow_add_eq_or_of_lt h 1
    rw [Nat.mul_one] at this
    omega
  rw [← hor]
  apply Nat.eq_of_testBit_eq
  intro i
  rw [Nat.testBit_xor, Nat.testBit_or, Nat.testBit_two_pow]
  by_cases hi : k = i
  · subst hi
    simp [Nat.testBit_lt_two_pow h]
  · simp [hi]

theorem toNat_ofInt (z : ℤ) : (UInt64.ofInt z).toNat = (z % 2 ^ 64).toNat := by
  rw [UInt64.ofInt, UInt64.toNat_ofNat']
  omega

/-- Flip the bit of the sign and take it away. -/
theorem xor_sub_eq_signed21 {v : UInt64} (h : v.toNat < 2 ^ 21) :
    (v ^^^ 0x100000) - 0x100000 = UInt64.ofInt (signed21 v.toNat) := by
  have hsign : (0x100000 : UInt64).toNat = 2 ^ 20 := rfl
  apply UInt64.toNat_inj.mp
  rw [UInt64.toNat_sub, UInt64.toNat_xor, toNat_ofInt, hsign]
  by_cases hlt : v.toNat < 2 ^ 20
  · rw [xor_two_pow_of_lt hlt, signed21, if_pos hlt]
    omega
  · obtain ⟨r, hr⟩ : ∃ r, v.toNat = r + 2 ^ 20 := ⟨v.toNat - 2 ^ 20, by omega⟩
    have hxor : v.toNat ^^^ 2 ^ 20 = r := by
      rw [hr, ← xor_two_pow_of_lt (by omega), Nat.xor_assoc, Nat.xor_self, Nat.xor_zero]
    rw [hxor, signed21, if_neg hlt]
    omega

theorem shiftLeft_twelve (a : UInt64) : a <<< 12 = a * 4096 := by
  apply UInt64.toNat_inj.mp
  rw [UInt64.toNat_shiftLeft, UInt64.toNat_mul, Nat.shiftLeft_eq]
  rfl

theorem and_pageMask (pc : UInt64) : pc &&& ~~~0xfff = pc / 4096 * 4096 := by
  have hmask : (pc &&& ~~~0xfff).toBitVec = pc.toBitVec &&& BitVec.allOnes 64 <<< 12 := rfl
  have hpage : (4096 : UInt64).toNat = 4096 := rfl
  apply UInt64.toNat_inj.mp
  rw [← UInt64.toNat_toBitVec, hmask, ← BitVec.shiftLeft_ushiftRight, BitVec.toNat_shiftLeft,
    BitVec.toNat_ushiftRight, UInt64.toNat_toBitVec, UInt64.toNat_mul, UInt64.toNat_div, hpage,
    Nat.shiftRight_eq_div_pow, Nat.shiftLeft_eq]

theorem toNat_and_lt (a : UInt32) {mask : UInt32} {k : ℕ} (h : mask.toNat < 2 ^ k) :
    (a &&& mask).toNat < 2 ^ k := by
  rw [UInt32.toNat_and]
  exact Nat.and_lt_two_pow _ h

theorem imm21_lt (insn : UInt32) : imm21 insn < 2 ^ 21 := by
  have hhi : ((insn >>> 5) &&& 0x7ffff).toNat < 2 ^ 19 := toNat_and_lt _ (by decide)
  have hlo : ((insn >>> 29) &&& 0x3).toNat < 2 ^ 2 := toNat_and_lt _ (by decide)
  rw [imm21]
  omega

/-- The two fields of a number of pages, one behind the other. -/
theorem toNat_imm21 (insn : UInt32) :
    ((((insn >>> 5) &&& 0x7ffff) <<< 2) ||| ((insn >>> 29) &&& 0x3)).toNat = imm21 insn := by
  have hhi : ((insn >>> 5) &&& 0x7ffff).toNat < 2 ^ 19 := toNat_and_lt _ (by decide)
  have hlo : ((insn >>> 29) &&& 0x3).toNat < 2 ^ 2 := toNat_and_lt _ (by decide)
  have htwo : (2 : UInt32).toNat % 32 = 2 := rfl
  rw [imm21, UInt32.toNat_or, UInt32.toNat_shiftLeft, htwo, Nat.mod_eq_of_lt,
    ← Nat.shiftLeft_add_eq_or_of_lt hlo, Nat.shiftLeft_eq]
  rw [Nat.shiftLeft_eq]
  omega

/-- The scan reads an `adrp` as the processor does. -/
theorem adrpPage_eq (pc : UInt64) (insn : UInt32) :
    adrpPage pc insn =
      match Aarch64.decode insn with
      | .adrp rd pages => some (rd, pageAddress pc pages)
      | _ => none := by
  rw [adrpPage]
  by_cases hadrp : insn &&& 0x9f000000 = 0x90000000
  · rw [if_neg (not_not.mpr hadrp), decode_adrp hadrp]
    have himm := toNat_imm21 insn
    generalize ((((insn >>> 5) &&& 0x7ffff) <<< 2) ||| ((insn >>> 29) &&& 0x3)) = imm at *
    have hwide : imm.toUInt64.toNat = imm21 insn := by rw [UInt32.toNat_toUInt64, himm]
    have hsum : ((pc &&& ~~~(0xfff : UInt64)).toInt64 +
        (((imm.toUInt64.toInt64 ^^^ 0x100000) - 0x100000) <<< 12)).toUInt64 =
          (pc &&& ~~~(0xfff : UInt64)) + ((imm.toUInt64 ^^^ 0x100000) - 0x100000) <<< 12 := rfl
    show some (_, _) = some (_, _)
    rw [hsum, and_pageMask, shiftLeft_twelve, xor_sub_eq_signed21 (hwide ▸ imm21_lt insn), hwide,
      pageAddress, UInt64.ofInt_mul, UInt64.mul_comm (UInt64.ofInt 4096)]
    rfl
  · rw [if_pos hadrp, Aarch64.decode, if_neg hadrp]
    split_ifs <;> rfl

theorem addImm_eq (insn rn : UInt32) :
    addImm insn rn =
      match Aarch64.decode insn with
      | .add rd rn' imm => if rn' = rn then some (rd, imm) else none
      | _ => none := by
  rw [addImm]
  by_cases hadd : insn &&& 0xff800000 = 0x91000000
  · rw [decode_add hadd]
    by_cases hrn : (insn >>> 5) &&& 0x1f = rn
    · rw [if_neg (by simp [hadd, hrn])]
      show some (_, _ <<< (if insn &&& 0x400000 = 0 then (0 : UInt64) else 12)) =
        if Aarch64.rn insn = rn then _ else _
      rw [if_pos (show Aarch64.rn insn = rn from hrn)]
      split
      · rw [UInt64.shiftLeft_zero]
        rfl
      · rw [shiftLeft_twelve]
        rfl
    · rw [if_pos (.inr hrn)]
      exact (if_neg hrn).symm
  · rw [if_pos (.inl hadd), Aarch64.decode, if_neg hadd]
    split_ifs <;> rfl

theorem ldrOffset_eq (insn rn : UInt32) :
    ldrOffset insn rn =
      match Aarch64.decode insn with
      | .ldr _ rn' offset => if rn' = rn then some offset else none
      | _ => none := by
  rw [ldrOffset]
  by_cases hldr : insn &&& 0xffc00000 = 0xf9400000
  · rw [decode_ldr hldr]
    by_cases hrn : (insn >>> 5) &&& 0x1f = rn
    · rw [if_neg (by simp [hldr, hrn])]
      exact (if_pos hrn).symm
    · rw [if_pos (.inr hrn)]
      exact (if_neg hrn).symm
  · rw [if_pos (.inl hldr), Aarch64.decode, if_neg hldr]
    split_ifs <;> rfl

end Idakit.Kernel
