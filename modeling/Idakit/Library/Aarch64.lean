import Mathlib.Data.UInt
import Mathlib.Logic.Function.Basic

/-!
A fragment of AArch64: the computation of addresses, and 64-bit loads through
them. Every other instruction is left open; of those that write no general
register it is known that they do not.

Register number 31 is the stack pointer where an address is computed or loaded
through. Elsewhere it is the zero register, and a write to it is none.
-/

namespace Idakit.Library.Aarch64

/-! ### Instructions -/

inductive Instr
  /-- `adrp Xd, page`: the page that is a number of pages away. -/
  | adrp (rd : UInt32) (pages : ℤ)
  /-- `add Xd, Xn, #imm`. -/
  | add (rd rn : UInt32) (imm : UInt64)
  /-- `ldr Xt, [Xn, #offset]`. -/
  | ldr (rt rn : UInt32) (offset : UInt64)
  | other (word : UInt32)

def rd (word : UInt32) : UInt32 := word &&& 0x1f

def rn (word : UInt32) : UInt32 := (word >>> 5) &&& 0x1f

def imm12 (word : UInt32) : UInt32 := (word >>> 10) &&& 0xfff

def imm21 (word : UInt32) : ℕ :=
  ((word >>> 5) &&& 0x7ffff).toNat * 4 + ((word >>> 29) &&& 0x3).toNat

def signed21 (n : ℕ) : ℤ := if n < 2 ^ 20 then n else n - 2 ^ 21

def decode (word : UInt32) : Instr :=
  if word &&& 0x9f000000 = 0x90000000 then .adrp (rd word) (signed21 (imm21 word))
  else if word &&& 0xff800000 = 0x91000000 then
    .add (rd word) (rn word)
      (if word &&& 0x400000 = 0 then (imm12 word).toUInt64 else (imm12 word).toUInt64 * 4096)
  else if word &&& 0xffc00000 = 0xf9400000 then
    .ldr (rd word) (rn word) ((imm12 word).toUInt64 * 8)
  else .other word

/-- A wider mask that holds determines what a narrower one shows. -/
theorem and_of_and {word mask wide value : UInt32} (h : word &&& wide = value)
    (hmask : wide &&& mask = mask) : word &&& mask = value &&& mask := by
  rw [← h, UInt32.and_assoc, hmask]

theorem decode_adrp {word : UInt32} (h : word &&& 0x9f000000 = 0x90000000) :
    decode word = .adrp (rd word) (signed21 (imm21 word)) := if_pos h

theorem decode_add {word : UInt32} (h : word &&& 0xff800000 = 0x91000000) :
    decode word = .add (rd word) (rn word)
      (if word &&& 0x400000 = 0 then (imm12 word).toUInt64
      else (imm12 word).toUInt64 * 4096) := by
  have hadrp : word &&& 0x9f000000 ≠ 0x90000000 := by
    rw [and_of_and h (by decide)]
    decide
  rw [decode, if_neg hadrp, if_pos h]

theorem decode_ldr {word : UInt32} (h : word &&& 0xffc00000 = 0xf9400000) :
    decode word = .ldr (rd word) (rn word) ((imm12 word).toUInt64 * 8) := by
  have hadrp : word &&& 0x9f000000 ≠ 0x90000000 := by
    rw [and_of_and h (by decide)]
    decide
  have hadd : word &&& 0xff800000 ≠ 0x91000000 := by
    rw [and_of_and h (by decide)]
    decide
  rw [decode, if_neg hadrp, if_neg hadd, if_pos h]

/-! ### Immediates -/

/-- The immediates of a sort of instruction, each. -/
structure Immediates where
  pages : ℤ
  imm : UInt64
  offset : UInt64

def Instr.withImmediates (n : Immediates) : Instr → Instr
  | .adrp rd _ => .adrp rd n.pages
  | .add rd rn _ => .add rd rn n.imm
  | .ldr rt rn _ => .ldr rt rn n.offset
  | .other word => .other word

def SameForm (i i' : Instr) : Prop := ∃ n, i' = i.withImmediates n

theorem SameForm.refl : ∀ i : Instr, SameForm i i
  | .adrp _ pages => ⟨⟨pages, 0, 0⟩, rfl⟩
  | .add _ _ imm => ⟨⟨0, imm, 0⟩, rfl⟩
  | .ldr _ _ offset => ⟨⟨0, 0, offset⟩, rfl⟩
  | .other _ => ⟨⟨0, 0, 0⟩, rfl⟩

/-- The bits of the immediates of a sort of instruction, each. -/
structure ImmediateBits where
  adrp : UInt32
  add : UInt32
  ldr : UInt32
  adrp_free : adrp &&& 0x9f00001f = 0
  add_free : add &&& 0xffc003ff = 0
  ldr_free : ldr &&& 0xffc003ff = 0

def ImmediateBits.immediates (bits : ImmediateBits) : Immediates where
  pages := signed21 (imm21 bits.adrp)
  imm := (imm12 bits.add).toUInt64
  offset := (imm12 bits.ldr).toUInt64 * 8

def ImmediateBits.write (bits : ImmediateBits) (word : UInt32) : UInt32 :=
  if word &&& 0x9f000000 = 0x90000000 then (word &&& 0x9f00001f) ||| bits.adrp
  else if word &&& 0xff800000 = 0x91000000 then (word &&& 0xff8003ff) ||| bits.add
  else if word &&& 0xffc00000 = 0xf9400000 then (word &&& 0xffc003ff) ||| bits.ldr
  else word

section

variable {word keep bits : UInt32}

theorem or_and_distrib (a b c : UInt32) : (a ||| b) &&& c = (a &&& c) ||| (b &&& c) :=
  UInt32.toBitVec_inj.mp BitVec.and_or_distrib_right

theorem mask_written {mask : UInt32} (hkeep : keep &&& mask = 0) :
    ((word &&& keep) ||| bits) &&& mask = bits &&& mask := by
  rw [or_and_distrib, UInt32.and_assoc, hkeep, UInt32.and_zero, UInt32.zero_or]

/-- A field that is written anew. -/
theorem field_written {field : UInt32} (shift : UInt32) (hkeep : (keep >>> shift) &&& field = 0) :
    (((word &&& keep) ||| bits) >>> shift) &&& field = (bits >>> shift) &&& field := by
  rw [UInt32.shiftRight_or, UInt32.shiftRight_and, mask_written hkeep]

/-- A field that is kept. -/
theorem field_kept {field : UInt32} (shift : UInt32) (hbits : bits &&& keep = 0)
    (hkeep : (keep >>> shift) &&& field = field) :
    (((word &&& keep) ||| bits) >>> shift) &&& field = (word >>> shift) &&& field := by
  have hfree : (bits >>> shift) &&& field = 0 := by
    rw [← hkeep, ← UInt32.and_assoc, ← UInt32.shiftRight_and, hbits, UInt32.zero_shiftRight,
      UInt32.zero_and]
  rw [UInt32.shiftRight_or, UInt32.shiftRight_and, or_and_distrib, UInt32.and_assoc, hkeep, hfree,
    UInt32.or_zero]

theorem mask_kept {mask : UInt32} (hbits : bits &&& keep = 0) (hkeep : keep &&& mask = mask) :
    ((word &&& keep) ||| bits) &&& mask = word &&& mask := by
  have hfree : bits &&& mask = 0 := by
    rw [and_of_and hbits hkeep, UInt32.zero_and]
  rw [or_and_distrib, UInt32.and_assoc, hkeep, hfree, UInt32.or_zero]

end

theorem decode_write (bits : ImmediateBits) (word : UInt32) :
    decode (bits.write word) = (decode word).withImmediates bits.immediates := by
  have hadrp := bits.adrp_free
  have hadd := bits.add_free
  have hldr := bits.ldr_free
  unfold ImmediateBits.write
  split
  · rename_i h
    have hrd : rd ((word &&& 0x9f00001f) ||| bits.adrp) = rd word := mask_kept hadrp (by decide)
    have himm : imm21 ((word &&& 0x9f00001f) ||| bits.adrp) = imm21 bits.adrp := by
      rw [imm21, imm21, field_written 5 (by decide), field_written 29 (by decide)]
    rw [decode_adrp h, decode_adrp (by rwa [mask_kept hadrp (by decide)]), hrd, himm]
    rfl
  split
  · rename_i h
    have hfree : bits.add &&& 0xff8003ff = 0 := and_of_and hadd (by decide)
    have hsh : ((word &&& 0xff8003ff) ||| bits.add) &&& 0x400000 = 0 := by
      rw [mask_written (by decide)]
      exact and_of_and hadd (by decide)
    have hrd : rd ((word &&& 0xff8003ff) ||| bits.add) = rd word := mask_kept hfree (by decide)
    have hrn : rn ((word &&& 0xff8003ff) ||| bits.add) = rn word := field_kept 5 hfree (by decide)
    have himm : imm12 ((word &&& 0xff8003ff) ||| bits.add) = imm12 bits.add :=
      field_written 10 (by decide)
    rw [decode_add h, decode_add (by rwa [mask_kept hfree (by decide)]), hrd, hrn, himm,
      if_pos hsh]
    rfl
  split
  · rename_i h
    have hrd : rd ((word &&& 0xffc003ff) ||| bits.ldr) = rd word := mask_kept hldr (by decide)
    have hrn : rn ((word &&& 0xffc003ff) ||| bits.ldr) = rn word := field_kept 5 hldr (by decide)
    have himm : imm12 ((word &&& 0xffc003ff) ||| bits.ldr) = imm12 bits.ldr :=
      field_written 10 (by decide)
    rw [decode_ldr h, decode_ldr (by rwa [mask_kept hldr (by decide)]), hrd, hrn, himm]
    rfl
  · rename_i hno_adrp hno_add hno_ldr
    rw [decode, if_neg hno_adrp, if_neg hno_add, if_neg hno_ldr]
    rfl

/-! ### Execution -/

structure Machine where
  x : UInt32 → UInt64
  sp : UInt64
  /-- The 64 bits at an address. -/
  mem : UInt64 → UInt64

namespace Machine

/-- A register that an address is computed from. -/
def base (m : Machine) (r : UInt32) : UInt64 := if r = 31 then m.sp else m.x r

def setBase (m : Machine) (r : UInt32) (v : UInt64) : Machine :=
  if r = 31 then { m with sp := v } else { m with x := Function.update m.x r v }

def setX (m : Machine) (r : UInt32) (v : UInt64) : Machine :=
  if r = 31 then m else { m with x := Function.update m.x r v }

theorem base_setBase (m : Machine) (r s : UInt32) (v : UInt64) :
    (m.setBase r v).base s = if s = r then v else m.base s := by
  unfold setBase base
  split <;> split <;> split <;> simp_all

@[simp] theorem mem_setBase (m : Machine) (r : UInt32) (v : UInt64) :
    (m.setBase r v).mem = m.mem := by
  unfold setBase
  split <;> rfl

@[simp] theorem mem_setX (m : Machine) (r : UInt32) (v : UInt64) : (m.setX r v).mem = m.mem := by
  unfold setX
  split <;> rfl

theorem base_setX (m : Machine) (r s : UInt32) (v : UInt64) :
    (m.setX r v).base s = if s = r ∧ r ≠ 31 then v else m.base s := by
  unfold setX base
  split <;> split <;> split <;> simp_all

end Machine

/-- What the instructions do that write no general register. Some of them may
write the stack pointer. -/
structure Others (writesSp : UInt32 → Bool) where
  exec : UInt32 → Machine → Machine
  exec_x : ∀ word m, (exec word m).x = m.x
  exec_sp : ∀ word m, writesSp word = false → (exec word m).sp = m.sp

def pageAddress (pc : UInt64) (pages : ℤ) : UInt64 :=
  pc / 4096 * 4096 + UInt64.ofInt (4096 * pages)

section

variable {writesSp : UInt32 → Bool} (others : Others writesSp)

def step (pc : UInt64) : Instr → Machine → Machine
  | .adrp rd pages, m => m.setX rd (pageAddress pc pages)
  | .add rd rn imm, m => m.setBase rd (m.base rn + imm)
  | .ldr rt rn offset, m => m.setX rt (m.mem (m.base rn + offset))
  | .other word, m => others.exec word m

def loadAddress (m : Machine) : Instr → Option UInt64
  | .ldr _ rn offset => some (m.base rn + offset)
  | _ => none

/-- The addresses that instructions load from when they are executed in order. -/
def loads (pc : UInt64) (m : Machine) : List Instr → List UInt64
  | [] => []
  | i :: is => (loadAddress m i).toList ++ loads (pc + 4) (step others pc i m) is

def writes (writesSp : UInt32 → Bool) (r : UInt32) : Instr → Bool
  | .adrp rd _ => rd == r && r != 31
  | .add rd _ _ => rd == r
  | .ldr rt _ _ => rt == r && r != 31
  | .other word => r == 31 && writesSp word

/-- What is not written stays. -/
theorem base_step (pc : UInt64) (m : Machine) {r : UInt32} {i : Instr}
    (h : writes writesSp r i = false) : (step others pc i m).base r = m.base r := by
  cases i with
  | adrp rd pages =>
      rw [step, Machine.base_setX, if_neg]
      rintro ⟨rfl, hr⟩
      simp [writes, hr] at h
  | add rd rn imm =>
      rw [step, Machine.base_setBase, if_neg]
      rintro rfl
      simp [writes] at h
  | ldr rt rn offset =>
      rw [step, Machine.base_setX, if_neg]
      rintro ⟨rfl, hr⟩
      simp [writes, hr] at h
  | other word =>
      rw [step, Machine.base, Machine.base, others.exec_x]
      by_cases hr : r = 31
      · rw [if_pos hr, if_pos hr]
        refine others.exec_sp word m ?_
        simpa [writes, hr] using h
      · rw [if_neg hr, if_neg hr]

end

end Idakit.Library.Aarch64
