import Idakit.Decompiler.Invalidation
import Mathlib.Data.List.GetD
import Mathlib.Data.Set.Operations
import Mathlib.Logic.Function.Basic

/-!
A patch of the image. A loop over the addresses to be written looks for one
that is not mapped, and only when there is none the kernel writes them, one
after the other. Addresses are added modulo `2 ^ 64`, so that the test of the
last one against the first keeps the range from wrapping around.
-/

namespace Idakit.Facade

open Idakit.Types Idakit.Decompiler

abbrev Memory : Type := UInt64 → UInt8

/-- A slice of bytes, which `isize::MAX` of them at most fit in. -/
structure ByteSlice where
  bytes : List UInt8
  fits : bytes.length < 2 ^ 63

/-- The kernel: which addresses are mapped, and its writes. Nothing is known
of a write to an address that is not mapped. -/
structure ByteKernel where
  mapped : Set UInt64
  isMapped : UInt64 → Bool
  patchByte : UInt64 → UInt8 → Memory → Memory
  patchBytes : UInt64 → List UInt8 → Memory → Memory
  isMapped_iff : ∀ ea, isMapped ea = true ↔ ea ∈ mapped
  patchByte_mapped : ∀ ea ∈ mapped, ∀ value memory,
    patchByte ea value memory = Function.update memory ea value
  patchBytes_nil : ∀ ea memory, patchBytes ea [] memory = memory
  patchBytes_cons : ∀ ea value values memory, patchBytes ea (value :: values) memory =
    patchBytes (ea + 1) values (patchByte ea value memory)

variable (kernel : ByteKernel)

def patchBytes (addr : UInt64) (slice : ByteSlice) (memory : Memory) : Bool × Memory :=
  if slice.bytes = [] then (true, memory)
  -- The last address is in front of the first.
  else if addr + (.ofNat slice.bytes.length - 1) < addr then (false, memory)
  else if (List.range slice.bytes.length).all fun i => kernel.isMapped (addr + .ofNat i) then
    (true, kernel.patchBytes addr slice.bytes memory)
  else (false, memory)

/-! ### The loop of writes -/

def overlay (memory : Memory) (addr : UInt64) (bytes : List UInt8) : Memory :=
  fun ea => bytes.getD (ea - addr).toNat (memory ea)

theorem overlay_cons (memory : Memory) (addr : UInt64) (value : UInt8) (values : List UInt8)
    (h : values.length < 2 ^ 64) :
    overlay memory addr (value :: values) =
      overlay (Function.update memory addr value) (addr + 1) values := by
  funext ea
  unfold overlay
  by_cases hea : ea = addr
  · -- The first address is behind all the others.
    have hback : (addr - (addr + 1)).toNat = 2 ^ 64 - 1 := by
      rw [UInt64.toNat_sub, UInt64.toNat_add]
      have := addr.toNat_lt
      have hone : (1 : UInt64).toNat = 1 := rfl
      omega
    rw [hea, hback, UInt64.sub_self, List.getD_eq_default values _ (by omega),
      Function.update_self]
    rfl
  · have hnext : (ea - addr).toNat = (ea - (addr + 1)).toNat + 1 := by
      rw [UInt64.toNat_sub, UInt64.toNat_sub, UInt64.toNat_add]
      have hne : ea.toNat ≠ addr.toNat := mt UInt64.toNat_inj.mp hea
      have := addr.toNat_lt
      have := ea.toNat_lt
      have hone : (1 : UInt64).toNat = 1 := rfl
      omega
    rw [hnext, List.getD_cons_succ, Function.update_of_ne hea]

/-- Where every address is mapped, the writes lay their bytes over the
memory. -/
theorem patchBytes_eq_overlay {bytes : List UInt8} {addr : UInt64} (memory : Memory)
    (hlen : bytes.length < 2 ^ 64)
    (hmapped : ∀ i < bytes.length, addr + .ofNat i ∈ kernel.mapped) :
    kernel.patchBytes addr bytes memory = overlay memory addr bytes := by
  induction bytes generalizing addr memory with
  | nil =>
      rw [kernel.patchBytes_nil]
      rfl
  | cons value values ih =>
      rw [List.length_cons] at hlen hmapped
      have hfirst : addr ∈ kernel.mapped := by simpa using hmapped 0 (by omega)
      rw [kernel.patchBytes_cons, kernel.patchByte_mapped addr hfirst,
        overlay_cons memory addr value values (by omega)]
      refine ih _ (by omega) fun i hi => ?_
      have hshift : addr + 1 + UInt64.ofNat i = addr + .ofNat (i + 1) := by
        rw [UInt64.ofNat_add, UInt64.add_assoc]
        congr 1
        exact UInt64.add_comm _ _
      rw [hshift]
      exact hmapped (i + 1) (by omega)

/-! ### The whole patch -/

/-- The test of the last address finds the ranges that wrap around. -/
theorem wraps_iff (addr : UInt64) {n : ℕ} (hpos : 0 < n) (hlt : n < 2 ^ 63) :
    addr + (.ofNat n - 1) < addr ↔ 2 ^ 64 < addr.toNat + n := by
  have haddr := addr.toNat_lt
  have hone : (1 : UInt64).toNat = 1 := rfl
  rw [UInt64.lt_iff_toNat_lt, UInt64.toNat_add, UInt64.toNat_sub, UInt64.toNat_ofNat', hone]
  omega

def OutOfReach (mapped : Set UInt64) (place : ℕ) : Prop :=
  2 ^ 64 ≤ place ∨ UInt64.ofNat place ∉ mapped

/-- A patch is made in whole or not at all. -/
structure AllOrNothing (mapped : Set UInt64) (addr : UInt64) (bytes : List UInt8)
    (before : Memory) (made : Bool) (after : Memory) : Prop where
  refused : made = false → after = before
  inside : made = true → addr.toNat + bytes.length ≤ 2 ^ 64
  replaced : made = true → ∀ i v, bytes[i]? = some v → after (.ofNat (addr.toNat + i)) = v
  kept : made = true → ∀ ea : UInt64, ea.toNat < addr.toNat ∨ addr.toNat + bytes.length ≤ ea.toNat →
    after ea = before ea
  refused_iff : bytes ≠ [] →
    (made = false ↔ ∃ i < bytes.length, OutOfReach mapped (addr.toNat + i))

/-- Bytes that do not wrap around are laid over their own range. -/
theorem overlay_apply (memory : Memory) {addr : UInt64} {bytes : List UInt8} {i : ℕ} {v : UInt8}
    (hinside : addr.toNat + bytes.length ≤ 2 ^ 64) (h : bytes[i]? = some v) :
    overlay memory addr bytes (.ofNat (addr.toNat + i)) = v := by
  obtain ⟨hi, hv⟩ := List.getElem?_eq_some_iff.mp h
  have hoffset : (UInt64.ofNat (addr.toNat + i) - addr).toNat = i := by
    have haddr := addr.toNat_lt
    rw [UInt64.toNat_sub, UInt64.toNat_ofNat']
    omega
  rw [overlay, hoffset, List.getD_eq_getElem?_getD, h, Option.getD_some]

theorem overlay_of_outside (memory : Memory) {addr : UInt64} {bytes : List UInt8} {ea : UInt64}
    (hinside : addr.toNat + bytes.length ≤ 2 ^ 64)
    (h : ea.toNat < addr.toNat ∨ addr.toNat + bytes.length ≤ ea.toNat) :
    overlay memory addr bytes ea = memory ea := by
  rw [overlay, List.getD_eq_default]
  have haddr := addr.toNat_lt
  have hea := ea.toNat_lt
  rw [UInt64.toNat_sub]
  omega

theorem add_ofNat (addr : UInt64) (i : ℕ) : addr + .ofNat i = .ofNat (addr.toNat + i) := by
  rw [UInt64.ofNat_add, UInt64.ofNat_toNat]

/-- The refusals and the one way that a patch is made. -/
theorem patchBytes_cases (addr : UInt64) {slice : ByteSlice} (h : slice.bytes ≠ [])
    (memory : Memory) :
    (patchBytes kernel addr slice memory = (false, memory) ∧
      ∃ i < slice.bytes.length, OutOfReach kernel.mapped (addr.toNat + i)) ∨
    (patchBytes kernel addr slice memory = (true, overlay memory addr slice.bytes) ∧
      addr.toNat + slice.bytes.length ≤ 2 ^ 64 ∧
      ∀ i < slice.bytes.length, ¬ OutOfReach kernel.mapped (addr.toNat + i)) := by
  have hpos := List.length_pos_iff.mpr h
  have hfits := slice.fits
  have hwraps := wraps_iff addr hpos hfits
  rw [patchBytes, if_neg h]
  -- A patch past the end of the address space wraps, which the code sees at its last byte.
  by_cases hlast : addr + (.ofNat slice.bytes.length - 1) < addr
  · rw [if_pos hlast]
    have hover := hwraps.mp hlast
    exact .inl ⟨rfl, slice.bytes.length - 1, by omega, .inl (by omega)⟩
  have hinside : addr.toNat + slice.bytes.length ≤ 2 ^ 64 := by
    by_contra hover
    exact hlast (hwraps.mpr (by omega))
  rw [if_neg hlast]
  by_cases hall : ∀ i < slice.bytes.length, addr + .ofNat i ∈ kernel.mapped
  · have hcheck : ((List.range slice.bytes.length).all fun i =>
        kernel.isMapped (addr + .ofNat i)) = true := by
      simpa [kernel.isMapped_iff] using hall
    rw [if_pos hcheck, patchBytes_eq_overlay kernel memory (by omega) hall]
    refine .inr ⟨rfl, hinside, fun i hi hreach => ?_⟩
    obtain hpast | hunmapped := hreach
    · omega
    · rw [← add_ofNat] at hunmapped
      exact hunmapped (hall i hi)
  · have hcheck : ¬ ((List.range slice.bytes.length).all fun i =>
        kernel.isMapped (addr + .ofNat i)) = true := by
      simpa [kernel.isMapped_iff] using hall
    rw [if_neg hcheck]
    push Not at hall
    obtain ⟨i, hi, hunmapped⟩ := hall
    refine .inl ⟨rfl, i, hi, .inr ?_⟩
    rwa [← add_ofNat]

/-- What the facade's `patch_bytes` does. -/
theorem patchBytes_allOrNothing (addr : UInt64) (slice : ByteSlice) (memory : Memory) :
    AllOrNothing kernel.mapped addr slice.bytes memory (patchBytes kernel addr slice memory).1
      (patchBytes kernel addr slice memory).2 := by
  by_cases hempty : slice.bytes = []
  · have heq : patchBytes kernel addr slice memory = (true, memory) := if_pos hempty
    have haddr := addr.toNat_lt
    rw [heq, hempty]
    exact ⟨by simp, fun _ => by simp; omega, by simp, fun _ _ _ => rfl, fun h => absurd rfl h⟩
  · obtain ⟨heq, hreach⟩ | ⟨heq, hinside, hreach⟩ := patchBytes_cases kernel addr hempty memory
    · rw [heq]
      exact ⟨fun _ => rfl, by simp, by simp, by simp, fun _ => ⟨fun _ => hreach, fun _ => rfl⟩⟩
    · rw [heq]
      refine ⟨by simp, fun _ => hinside, fun _ i v => overlay_apply memory hinside,
        fun _ ea => overlay_of_outside memory hinside, fun _ => ⟨by simp, ?_⟩⟩
      rintro ⟨i, hi, h⟩
      exact absurd h (hreach i hi)

/-! ### The write cursor -/

structure WriteRejected where
  op : Text
  address : UInt64
  errno : ℤ
  reason : Option Text

/-- `LocationMut::patch` at the address of the cursor, but for the eviction
that it asks for. The kernel has a code and maybe a reason for its last error. -/
def patch (lastReason : ℤ × Option Text) (address : Address) (slice : ByteSlice) (memory : Memory) :
    Except WriteRejected Unit × Memory :=
  if slice.bytes = [] then (.ok (), memory)
  else
    match patchBytes kernel address.raw slice memory with
    | (true, memory) => (.ok (), memory)
    | (false, memory) =>
        (.error
          { op := "patch".toList
            address := address.raw
            errno := lastReason.1
            reason := lastReason.2.or (some "target range is not fully mapped".toList) }, memory)

/-- The cursor succeeds where the facade does, with the same memory. -/
theorem patch_eq (lastReason : ℤ × Option Text) (address : Address) (slice : ByteSlice)
    (memory : Memory) :
    (patch kernel lastReason address slice memory).1.isOk =
        (patchBytes kernel address.raw slice memory).1 ∧
      (patch kernel lastReason address slice memory).2 =
        (patchBytes kernel address.raw slice memory).2 := by
  by_cases hempty : slice.bytes = []
  · rw [patch, patchBytes, if_pos hempty, if_pos hempty]
    exact ⟨rfl, rfl⟩
  · rw [patch, if_neg hempty]
    split
    all_goals
      rename_i heq
      rw [heq]
      exact ⟨rfl, rfl⟩

/-- Neither the facade nor the cursor makes a part of a patch. -/
theorem patch_allOrNothing (slice : ByteSlice) (memory : Memory) :
    (∀ addr, AllOrNothing kernel.mapped addr slice.bytes memory
      (patchBytes kernel addr slice memory).1 (patchBytes kernel addr slice memory).2) ∧
    ∀ lastReason address, AllOrNothing kernel.mapped address.raw slice.bytes memory
      (patch kernel lastReason address slice memory).1.isOk
      (patch kernel lastReason address slice memory).2 := by
  refine ⟨fun addr => patchBytes_allOrNothing kernel addr slice memory, ?_⟩
  intro lastReason address
  obtain ⟨hmade, hmemory⟩ := patch_eq kernel lastReason address slice memory
  rw [hmade, hmemory]
  exact patchBytes_allOrNothing kernel address.raw slice memory

/-! ### The database behind a cursor -/

def writeBytes (ea : UInt64) : List UInt8 → Memory → Memory
  | [], memory => memory
  | value :: values, memory => writeBytes (ea + 1) values (Function.update memory ea value)

def byteKernel (db : Database) : ByteKernel where
  mapped := {ea | db.mapped ea = true}
  isMapped := db.mapped
  patchByte ea value memory := Function.update memory ea value
  patchBytes := writeBytes
  isMapped_iff := fun _ => Iff.rfl
  patchByte_mapped := fun _ _ _ _ => rfl
  patchBytes_nil := fun _ _ => rfl
  patchBytes_cons := fun _ _ _ _ => rfl

/-- The check and the image that evictions are told of are those of the loops. -/
theorem patchBytes_byteKernel (db : Database) (address : Address) (slice : ByteSlice) :
    patchBytes (byteKernel db) address.raw slice db.image =
      (db.patchBytes address slice.bytes,
        if db.patchBytes address slice.bytes then patched db.image address slice.bytes
        else db.image) := by
  rw [patchBytes, Database.patchBytes]
  by_cases hempty : slice.bytes = []
  · rw [if_pos hempty, if_pos hempty, if_pos rfl, hempty]
    rfl
  have hpos := List.length_pos_iff.mpr hempty
  have hfits := slice.fits
  have hlast : UInt64.ofNat slice.bytes.length - 1 = .ofNat (slice.bytes.length - 1) := by
    have hone : (1 : UInt64).toNat = 1 := rfl
    apply UInt64.toNat_inj.mp
    rw [UInt64.toNat_sub, UInt64.toNat_ofNat', UInt64.toNat_ofNat', hone]
    omega
  rw [if_neg hempty, if_neg hempty, hlast]
  split
  · rfl
  · show (if ((List.range slice.bytes.length).all fun i =>
        db.mapped (address.raw + .ofNat i)) = true then _ else _) = _
    split
    · rename_i hall
      rw [hall]
      refine congrArg (Prod.mk true) (patchBytes_eq_overlay (byteKernel db) db.image (by omega) ?_)
      intro i hi
      exact List.all_eq_true.mp hall i (List.mem_range.mpr hi)
    · rename_i hall
      rw [Bool.eq_false_iff.mpr hall]

/-- Two bytes are patched at `0x1000`, and none of two at the end of the address
space, of which only the first is mapped. -/
theorem patch_allOrNothing_readsConstant :
    (patchBytes (byteKernel readsConstant) 0x1000 ⟨[1, 2], by decide⟩ fun _ => 0).2 0x1001 = 2 ∧
      (patch (byteKernel readsConstant) (0, none) ⟨0xfffffffffffffffe, by decide⟩
        ⟨[1, 2], by decide⟩ fun _ => 0).1.isOk = false := by
  have hboth := patch_allOrNothing (byteKernel readsConstant) ⟨[1, 2], by decide⟩ fun _ => 0
  refine ⟨(hboth.1 0x1000).replaced (by decide) 1 2 rfl, ?_⟩
  refine ((hboth.2 (0, none) ⟨0xfffffffffffffffe, by decide⟩).refused_iff (by decide)).mpr ?_
  refine ⟨1, by decide, .inr fun hmapped => ?_⟩
  have hmapped : readsConstant.mapped badAddr = true := hmapped
  rw [readsConstant.mapped_badAddr] at hmapped
  cases hmapped

end Idakit.Facade
