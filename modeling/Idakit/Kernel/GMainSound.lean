import Idakit.Kernel.GMain

/-!
When the address that is decoded is one that the code loads from. The scan
follows a register and does not look at what else writes it, so that the
address is the right one, whatever the immediates are, exactly when nothing
else does.
-/

namespace Idakit.Kernel

open Idakit.Types Idakit.Library
open Aarch64 (Instr Immediates ImmediateBits Machine Others SameForm loads pageAddress writes)

/-! ### The scan over instructions -/

/-- What the scan makes of an instruction while it follows a register. -/
inductive Follow
  | stop (offset : UInt64)
  | forward (dst : UInt32) (imm : UInt64)
  | pass

def follow (reg : UInt32) : Instr → Follow
  | .ldr _ rn offset => if rn = reg then .stop offset else .pass
  | .add rd rn imm => if rn = reg then .forward rd imm else .pass
  | _ => .pass

def followLoad (reg : UInt32) (base : UInt64) : List Instr → Option UInt64
  | [] => none
  | i :: is =>
      match follow reg i with
      | .stop offset => some (base + offset)
      | .forward dst imm => followLoad dst (base + imm) is
      | .pass => followLoad reg base is

def followPage (pc : UInt64) : List Instr → Option UInt64
  | [] => none
  | .adrp rd pages :: is =>
      (followLoad rd (pageAddress pc pages) is).orElse fun _ => followPage (pc + 4) is
  | _ :: is => followPage (pc + 4) is

theorem scanLoad_eq (reg : UInt32) (base : UInt64) (insns : List UInt32) :
    scanLoad reg base insns = followLoad reg base (insns.map Aarch64.decode) := by
  induction insns generalizing reg base with
  | nil => rfl
  | cons insn insns ih =>
      rw [scanLoad, ldrOffset_eq, addImm_eq, List.map_cons, followLoad]
      cases Aarch64.decode insn with
      | adrp rd pages => exact ih reg base
      | other word => exact ih reg base
      | add rd rn imm =>
          by_cases hrn : rn = reg
          · simp only [follow, if_pos hrn]
            exact ih rd (base + imm)
          · simp only [follow, if_neg hrn]
            exact ih reg base
      | ldr rt rn offset =>
          by_cases hrn : rn = reg
          · simp only [follow, if_pos hrn]
          · simp only [follow, if_neg hrn]
            exact ih reg base

theorem scanAdrp_eq (pc : UInt64) (insns : List UInt32) :
    scanAdrp pc insns = followPage pc (insns.map Aarch64.decode) := by
  induction insns generalizing pc with
  | nil => rfl
  | cons insn insns ih =>
      rw [scanAdrp, adrpPage_eq, List.map_cons]
      cases Aarch64.decode insn with
      | adrp rd pages =>
          show (scanLoad _ _ _).orElse _ = (followLoad _ _ _).orElse _
          rw [scanLoad_eq, ih]
      | _ => exact ih (pc + 4)

/-! ### The condition -/

section

variable (writesSp : UInt32 → Bool)

/-- Nothing but what the scan follows writes the register, up to the load that
the scan stops at. -/
def undisturbed (reg : UInt32) : List Instr → Bool
  | [] => true
  | i :: is =>
      match follow reg i with
      | .stop _ => true
      | .forward dst _ => undisturbed dst is
      | .pass => !writes writesSp reg i && undisturbed reg is

def findsLoad (reg : UInt32) (is : List Instr) : Bool := (followLoad reg 0 is).isSome

/-- The `adrp` that the scan takes writes its register, and nothing else does
up to the load but what the scan follows. -/
def steady : List Instr → Bool
  | [] => true
  | .adrp rd _ :: is =>
      if findsLoad rd is then rd != 31 && undisturbed writesSp rd is else steady is
  | _ :: is => steady is

/-- The address that is decoded is one that the code loads from, from any state
that it is executed in. -/
def Sound (image : Image) (entry : UInt64) : Prop :=
  ∀ gMain, decodeGMain image entry = .ok gMain → ∀ (others : Others writesSp) (m : Machine),
    gMain ∈ loads others (followImportThunk image entry) m
      ((image.words window (followImportThunk image entry)).map Aarch64.decode)

end

/-! ### Enough -/

section

variable {writesSp : UInt32 → Bool} {others : Others writesSp} {is : List Instr} {p : UInt64}

theorem isSome_followLoad (reg : UInt32) (base base' : UInt64) (is : List Instr) :
    (followLoad reg base is).isSome = (followLoad reg base' is).isSome := by
  induction is generalizing reg base base' with
  | nil => rfl
  | cons i is ih =>
      rw [followLoad, followLoad]
      cases follow reg i with
      | stop offset => rfl
      | forward dst imm => exact ih dst _ _
      | pass => exact ih reg _ _

theorem follow_stop {reg : UInt32} {i : Instr} {offset : UInt64}
    (h : follow reg i = .stop offset) : ∃ rt, i = .ldr rt reg offset := by
  revert h
  fun_cases follow reg i with
  | case1 rt off =>
      intro h
      cases h
      exact ⟨rt, rfl⟩
  | _ => exact nofun

theorem follow_forward {reg dst : UInt32} {i : Instr} {imm : UInt64}
    (h : follow reg i = .forward dst imm) : i = .add dst reg imm := by
  revert h
  fun_cases follow reg i with
  | case3 rd off =>
      intro h
      cases h
      rfl
  | _ => exact nofun

/-- While nothing disturbs it, the register holds what the scan has summed up. -/
theorem mem_loads_of_followLoad {reg : UInt32} {base pc : UInt64} {m : Machine}
    (h : followLoad reg base is = some p) (hund : undisturbed writesSp reg is = true)
    (hbase : m.base reg = base) : p ∈ loads others pc m is := by
  induction is generalizing reg base pc m with
  | nil => contradiction
  | cons i is ih =>
      rw [followLoad] at h
      rw [undisturbed] at hund
      rw [loads, List.mem_append]
      cases hfollow : follow reg i with
      | stop offset =>
          rw [hfollow] at h
          obtain ⟨rt, rfl⟩ := follow_stop hfollow
          obtain rfl : base + offset = p := Option.some.inj h
          rw [Aarch64.loadAddress, hbase]
          exact .inl (by simp)
      | forward dst imm =>
          rw [hfollow] at h hund
          refine .inr (ih h hund ?_)
          rw [follow_forward hfollow, Aarch64.step, Machine.base_setBase, if_pos rfl, hbase]
      | pass =>
          rw [hfollow] at h hund
          obtain ⟨hwrites, hund⟩ := Bool.and_eq_true_iff.mp hund
          refine .inr (ih h hund ?_)
          rw [Aarch64.base_step others pc m (by simpa using hwrites), hbase]

theorem mem_loads_of_followPage {pc : UInt64} {m : Machine} (h : followPage pc is = some p)
    (hsteady : steady writesSp is = true) : p ∈ loads others pc m is := by
  induction is generalizing pc m with
  | nil => contradiction
  | cons i is ih =>
      rw [loads, List.mem_append]
      cases i with
      | adrp rd pages =>
          rw [followPage] at h
          rw [steady] at hsteady
          cases hload : followLoad rd (pageAddress pc pages) is with
          | some p' =>
              rw [hload] at h
              obtain rfl := Option.some.inj h
              have hfinds : findsLoad rd is = true := by
                rw [findsLoad, isSome_followLoad rd 0 (pageAddress pc pages), hload]
                rfl
              rw [if_pos hfinds, Bool.and_eq_true_iff] at hsteady
              refine .inr (mem_loads_of_followLoad hload hsteady.2 ?_)
              rw [Aarch64.step, Machine.base_setX, if_pos ⟨rfl, by simpa using hsteady.1⟩]
          | none =>
              rw [hload] at h
              have hfinds : ¬ findsLoad rd is = true := by
                rw [findsLoad, isSome_followLoad rd 0 (pageAddress pc pages), hload]
                simp
              rw [if_neg hfinds] at hsteady
              exact .inr (ih h hsteady)
      | _ => exact .inr (ih h hsteady)

end

/-! ### Necessary -/

/-- Immediates that leave a trace: no page, one more, nothing. -/
def plain : Immediates := ⟨0, 1, 0⟩

/-- Immediates on the way of the scan: one page, nothing more, an offset. -/
def marked : Immediates := ⟨1, 0, 0x800⟩

def markLoad (reg : UInt32) : List Instr → List Instr
  | [] => []
  | i :: is =>
      match follow reg i with
      | .stop _ => i.withImmediates marked :: is.map (·.withImmediates plain)
      | .forward dst _ => i.withImmediates marked :: markLoad dst is
      | .pass => i.withImmediates plain :: markLoad reg is

def markPage : List Instr → List Instr
  | [] => []
  | .adrp rd pages :: is =>
      if findsLoad rd is then (Instr.adrp rd pages).withImmediates marked :: markLoad rd is
      else (Instr.adrp rd pages).withImmediates plain :: markPage is
  | i :: is => i.withImmediates plain :: markPage is

def clearSp (writesSp : UInt32 → Bool) : Others writesSp where
  exec word m := if writesSp word then { m with sp := 0 } else m
  exec_x := by
    intro word m
    split <;> rfl
  exec_sp := by
    intro word m h
    simp [h]

structure Holds (P : UInt64 → Prop) (m : Machine) : Prop where
  base : ∀ r, P (m.base r)
  mem : ∀ a, m.mem a = 0

section

variable {writesSp : UInt32 → Bool} {P P' : UInt64 → Prop} {m : Machine} {pc : UInt64}

theorem Holds.setX (h : Holds P m) (hP : ∀ v, P v → P' v) {v : UInt64} (hv : P' v) (r : UInt32) :
    Holds P' (m.setX r v) where
  base := by
    intro s
    rw [Machine.base_setX]
    split
    · exact hv
    · exact hP _ (h.base s)
  mem := by
    rw [Machine.mem_setX]
    exact h.mem

theorem Holds.setBase (h : Holds P m) (hP : ∀ v, P v → P' v) {v : UInt64} (hv : P' v)
    (r : UInt32) : Holds P' (m.setBase r v) where
  base := by
    intro s
    rw [Machine.base_setBase]
    split
    · exact hv
    · exact hP _ (h.base s)
  mem := by
    rw [Machine.mem_setBase]
    exact h.mem

/-- What holds of the results holds behind an instruction. -/
theorem Holds.step (h : Holds P m) (hP : ∀ v, P v → P' v) (hzero : P' 0) {n : Immediates}
    (hpage : P' (pageAddress pc n.pages)) (hadd : ∀ v, P v → P' (v + n.imm)) (i : Instr) :
    Holds P' (Aarch64.step (clearSp writesSp) pc (i.withImmediates n) m) := by
  cases i with
  | adrp rd pages => exact h.setX hP hpage rd
  | add rd rn imm => exact h.setBase hP (hadd _ (h.base rn)) rd
  | ldr rt rn offset =>
      refine h.setX hP ?_ rt
      rw [h.mem]
      exact hzero
  | other word =>
      show Holds P' (if writesSp word then { m with sp := 0 } else m)
      split
      · refine ⟨fun r => ?_, h.mem⟩
        unfold Machine.base
        split
        · exact hzero
        · rename_i hr
          have := hP _ (h.base r)
          rwa [Machine.base, if_neg hr] at this
      · exact ⟨fun r => hP _ (h.base r), h.mem⟩

/-- Some bytes at most behind the start of a page. -/
def Near (k : ℕ) (v : UInt64) : Prop := v.toNat % 4096 ≤ k

/-- Some bytes at most. -/
def Low (k : ℕ) (v : UInt64) : Prop := v.toNat ≤ k

theorem pageAddress_of_lt (h : pc.toNat < 4096) (pages : ℤ) :
    pageAddress pc pages = UInt64.ofInt (4096 * pages) := by
  have hpage : pc / 4096 * 4096 = 0 := by
    apply UInt64.toNat_inj.mp
    have hconst : (4096 : UInt64).toNat = 4096 := rfl
    have hzero : (0 : UInt64).toNat = 0 := rfl
    rw [UInt64.toNat_mul, UInt64.toNat_div, hconst, hzero]
    omega
  rw [pageAddress, hpage, UInt64.zero_add]

theorem near_pageAddress (k : ℕ) (pc : UInt64) (pages : ℤ) : Near k (pageAddress pc pages) := by
  have hconst : (4096 : UInt64).toNat = 4096 := rfl
  rw [Near, pageAddress, UInt64.toNat_add, UInt64.toNat_mul, UInt64.toNat_div, hconst, toNat_ofInt]
  omega

theorem Near.add {k : ℕ} {v imm : UInt64} (h : Near k v) (himm : imm.toNat ≤ 1) :
    Near (k + 1) (v + imm) := by
  unfold Near at h ⊢
  rw [UInt64.toNat_add]
  omega

variable {k : ℕ}

theorem near_step (h : Holds (Near k) m) {n : Immediates} (hn : n.imm.toNat ≤ 1) (i : Instr) :
    Holds (Near (k + 1)) (Aarch64.step (clearSp writesSp) pc (i.withImmediates n) m) := by
  refine h.step (fun v hv => ?_) ?_ (near_pageAddress _ _ _) (fun v hv => hv.add hn) i
  · unfold Near at hv ⊢
    omega
  · exact Nat.zero_le _

theorem low_step (h : Holds (Low k) m) (hpc : pc.toNat < 4096) (hk : k < 4096) (i : Instr) :
    Holds (Low (k + 1)) (Aarch64.step (clearSp writesSp) pc (i.withImmediates plain) m) := by
  refine h.step (fun v hv => ?_) (Nat.zero_le _) ?_ (fun v hv => ?_) i
  · unfold Low at hv ⊢
    omega
  · rw [pageAddress_of_lt hpc]
    exact Nat.zero_le _
  · unfold Low at hv ⊢
    have hone : plain.imm.toNat = 1 := rfl
    rw [UInt64.toNat_add, hone]
    omega

/-- The address of a plain load is near, and no trace. -/
theorem not_mem_loadAddress (h : Holds (Near k) m) (hk : k < 2048) (i : Instr) :
    0x1800 ∉ (Aarch64.loadAddress m (i.withImmediates plain)).toList := by
  cases i with
  | ldr rt rn offset =>
      intro hmem
      have heq : m.base rn + 0 = 0x1800 := by
        simpa [Instr.withImmediates, Aarch64.loadAddress, plain, eq_comm] using hmem
      have hnear := h.base rn
      rw [UInt64.add_zero] at heq
      rw [heq, Near] at hnear
      have htrace : (0x1800 : UInt64).toNat % 4096 = 2048 := rfl
      omega
  | _ => exact List.not_mem_nil

theorem not_mem_loads_plain {is : List Instr} (h : Holds (Near k) m) (hk : k + is.length < 2048) :
    0x1800 ∉ loads (clearSp writesSp) pc m (is.map (·.withImmediates plain)) := by
  induction is generalizing k m pc with
  | nil => exact List.not_mem_nil
  | cons i is ih =>
      rw [List.length_cons] at hk
      rw [List.map_cons, loads, List.mem_append, not_or]
      exact ⟨not_mem_loadAddress h (by omega) i, ih (near_step h (by decide) i) (by omega)⟩

theorem writes_withImmediates (writesSp : UInt32 → Bool) (reg : UInt32) (n : Immediates)
    (i : Instr) : writes writesSp reg (i.withImmediates n) = writes writesSp reg i := by
  cases i <;> rfl

/-- What writes the register does not leave the mark in it. -/
theorem base_ne_of_writes (h : Holds (Near k) m) (hk : k < 2048) (hpc : pc.toNat < 4096)
    {reg : UInt32} {i : Instr} (hwrites : writes writesSp reg i = true) :
    (Aarch64.step (clearSp writesSp) pc (i.withImmediates plain) m).base reg ≠ 0x1000 := by
  cases i with
  | adrp rd pages =>
      obtain ⟨hrd, hreg⟩ := Bool.and_eq_true_iff.mp hwrites
      obtain rfl := eq_of_beq hrd
      show (m.setX rd _).base rd ≠ 0x1000
      rw [Machine.base_setX, if_pos ⟨rfl, by simpa using hreg⟩, pageAddress_of_lt hpc]
      decide
  | add rd rn imm =>
      obtain rfl := eq_of_beq hwrites
      show (m.setBase rd _).base rd ≠ 0x1000
      rw [Machine.base_setBase, if_pos rfl]
      have hnear := h.base rn
      intro heq
      have hnat := congrArg UInt64.toNat heq
      have hone : plain.imm.toNat = 1 := rfl
      have hmark : (0x1000 : UInt64).toNat = 4096 := rfl
      rw [UInt64.toNat_add, hone, hmark] at hnat
      unfold Near at hnear
      omega
  | ldr rt rn offset =>
      obtain ⟨hrt, hreg⟩ := Bool.and_eq_true_iff.mp hwrites
      obtain rfl := eq_of_beq hrt
      show (m.setX rt _).base rt ≠ 0x1000
      rw [Machine.base_setX, if_pos ⟨rfl, by simpa using hreg⟩, h.mem]
      decide
  | other word =>
      obtain ⟨hreg, hword⟩ := Bool.and_eq_true_iff.mp hwrites
      obtain rfl := eq_of_beq hreg
      show (if writesSp word then { m with sp := 0 } else m).base 31 ≠ 0x1000
      rw [if_pos hword]
      exact (by decide : (0 : UInt64) ≠ 0x1000)

theorem not_mem_loads_markLoad {is : List Instr} {reg : UInt32} (h : Holds (Near k) m)
    (hk : k + is.length < 2048) (hpc : pc.toNat + 4 * is.length ≤ 4096)
    (hdisturbed : m.base reg ≠ 0x1000 ∨ undisturbed writesSp reg is = false) :
    0x1800 ∉ loads (clearSp writesSp) pc m (markLoad reg is) := by
  -- `k` bounds how far registers have been moved from a page by the marks passed so far.
  induction is generalizing k m pc reg with
  | nil => exact List.not_mem_nil
  | cons i is ih =>
      rw [List.length_cons] at hk hpc
      have hnext : (pc + 4).toNat + 4 * is.length ≤ 4096 := by
        have hfour : (4 : UInt64).toNat = 4 := rfl
        rw [UInt64.toNat_add, hfour]
        omega
      rw [markLoad]
      rw [undisturbed] at hdisturbed
      cases hfollow : follow reg i with
      | stop offset =>
          rw [hfollow] at hdisturbed
          obtain ⟨rt, rfl⟩ := follow_stop hfollow
          have hstep : Holds (Near (k + 1)) (Aarch64.step (clearSp writesSp) pc
              ((Instr.ldr rt reg offset).withImmediates marked) m) := near_step h (by decide) _
          show 0x1800 ∉ loads _ pc m ((Instr.ldr rt reg offset).withImmediates marked ::
            is.map (·.withImmediates plain))
          rw [loads, List.mem_append, not_or]
          refine ⟨fun hmem => ?_, not_mem_loads_plain hstep (by omega)⟩
          -- The marked load is the only one with the marked offset.
          have heq : m.base reg + 0x800 = 0x1800 := by
            simpa [Instr.withImmediates, Aarch64.loadAddress, marked, eq_comm] using hmem
          obtain hne | hnone := hdisturbed
          · exact hne ((UInt64.add_left_inj (0x800 : UInt64)).mp heq)
          · exact Bool.noConfusion hnone
      | forward dst imm =>
          rw [hfollow] at hdisturbed
          obtain rfl := follow_forward hfollow
          have hstep : Holds (Near (k + 1)) (Aarch64.step (clearSp writesSp) pc
              ((Instr.add dst reg imm).withImmediates marked) m) := near_step h (by decide) _
          show 0x1800 ∉ loads _ pc m ((Instr.add dst reg imm).withImmediates marked ::
            markLoad dst is)
          rw [loads, List.mem_append, not_or]
          refine ⟨List.not_mem_nil, ih hstep (by omega) hnext ?_⟩
          have hbase : (Aarch64.step (clearSp writesSp) pc
              ((Instr.add dst reg imm).withImmediates marked) m).base dst = m.base reg := by
            show (m.setBase dst (m.base reg + 0)).base dst = m.base reg
            rw [Machine.base_setBase, if_pos rfl, UInt64.add_zero]
          rw [hbase]
          exact hdisturbed
      | pass =>
          rw [hfollow] at hdisturbed
          show 0x1800 ∉ loads _ pc m (i.withImmediates plain :: markLoad reg is)
          rw [loads, List.mem_append, not_or]
          refine ⟨not_mem_loadAddress h (by omega) i,
            ih (near_step h (by decide) i) (by omega) hnext ?_⟩
          cases hwrites : writes writesSp reg i with
          | true => exact .inl (base_ne_of_writes h (by omega) (by omega) hwrites)
          | false =>
              rw [hwrites] at hdisturbed
              rw [Aarch64.base_step _ pc m (by rwa [writes_withImmediates])]
              exact hdisturbed

theorem not_mem_loads_markPage {is : List Instr} (h : Holds (Low k) m)
    (hk : k + is.length < 2048) (hpc : pc.toNat + 4 * is.length ≤ 4096)
    (hsteady : steady writesSp is = false) :
    0x1800 ∉ loads (clearSp writesSp) pc m (markPage is) := by
  have hnear {k : ℕ} (hk : k < 2048) {m : Machine} (h : Holds (Low k) m) : Holds (Near k) m := by
    refine ⟨fun r => ?_, h.mem⟩
    have := h.base r
    unfold Low at this
    unfold Near
    omega
  induction is generalizing k m pc with
  | nil => exact List.not_mem_nil
  | cons i is ih =>
      rw [List.length_cons] at hk hpc
      have hnext : (pc + 4).toNat + 4 * is.length ≤ 4096 := by
        have hfour : (4 : UInt64).toNat = 4 := rfl
        rw [UInt64.toNat_add, hfour]
        omega
      have hplain : steady writesSp is = false →
          0x1800 ∉ loads (clearSp writesSp) pc m (i.withImmediates plain :: markPage is) := by
        intro hsteady
        rw [loads, List.mem_append, not_or]
        exact ⟨not_mem_loadAddress (hnear (by omega) h) (by omega) i,
          ih (low_step h (by omega) (by omega) i) (by omega) hnext hsteady⟩
      cases i with
      | adrp rd pages =>
          rw [steady] at hsteady
          rw [markPage]
          by_cases hfinds : findsLoad rd is = true
          · rw [if_pos hfinds] at hsteady ⊢
            have hstep : Holds (Near (k + 1)) (Aarch64.step (clearSp writesSp) pc
                ((Instr.adrp rd pages).withImmediates marked) m) :=
              near_step (hnear (by omega) h) (by decide) _
            rw [loads, List.mem_append, not_or]
            refine ⟨List.not_mem_nil, not_mem_loads_markLoad hstep (by omega) hnext ?_⟩
            refine (Bool.and_eq_false_iff.mp hsteady).imp_left fun hzero => ?_
            -- The zero register takes no page, and the stack pointer is low.
            obtain rfl : rd = 31 := by simpa using hzero
            show (m.setX 31 (pageAddress pc 1)).base 31 ≠ 0x1000
            rw [Machine.base_setX, if_neg (by simp)]
            intro heq
            have hlow := h.base 31
            have hmark : (0x1000 : UInt64).toNat = 4096 := rfl
            rw [heq, Low, hmark] at hlow
            omega
          · rw [if_neg hfinds] at hsteady ⊢
            exact hplain hsteady
      | _ => exact hplain hsteady

end

/-! ### Forms -/

theorem follow_withImmediates (reg : UInt32) (n : Immediates) (i : Instr) :
    follow reg (i.withImmediates n) =
      match follow reg i with
      | .stop _ => .stop n.offset
      | .forward dst _ => .forward dst n.imm
      | .pass => .pass := by
  cases i with
  | adrp rd pages => rfl
  | add rd rn imm => by_cases hrn : rn = reg <;> simp [follow, Instr.withImmediates, hrn]
  | ldr rt rn offset => by_cases hrn : rn = reg <;> simp [follow, Instr.withImmediates, hrn]
  | other word => rfl

section

variable {is is' : List Instr}

/-- What the scan finds depends on the form alone. -/
theorem findsLoad_congr (h : List.Forall₂ SameForm is is') (reg : UInt32) :
    findsLoad reg is = findsLoad reg is' := by
  unfold findsLoad
  induction h generalizing reg with
  | nil => rfl
  | cons hi _ ih =>
      obtain ⟨n, rfl⟩ := hi
      rw [followLoad, followLoad, follow_withImmediates]
      cases follow reg _ with
      | stop offset => rfl
      | forward dst imm =>
          exact (isSome_followLoad dst _ 0 _).trans ((ih dst).trans (isSome_followLoad dst 0 _ _))
      | pass => exact ih reg

theorem undisturbed_congr (writesSp : UInt32 → Bool) (h : List.Forall₂ SameForm is is')
    (reg : UInt32) : undisturbed writesSp reg is = undisturbed writesSp reg is' := by
  induction h generalizing reg with
  | nil => rfl
  | cons hi _ ih =>
      obtain ⟨n, rfl⟩ := hi
      rw [undisturbed, undisturbed, follow_withImmediates, writes_withImmediates, ih reg]
      cases follow reg _ with
      | stop offset => rfl
      | forward dst imm => exact ih dst
      | pass => rfl

theorem steady_congr (writesSp : UInt32 → Bool) (h : List.Forall₂ SameForm is is') :
    steady writesSp is = steady writesSp is' := by
  induction h with
  | nil => rfl
  | @cons i i' is is' hi htail ih =>
      obtain ⟨n, rfl⟩ := hi
      cases i with
      | adrp rd pages =>
          rw [Instr.withImmediates, steady, steady, findsLoad_congr htail,
            undisturbed_congr writesSp htail, ih]
      | _ => exact ih

end

/-! ### The marked code -/

def Marked (i i' : Instr) : Prop := i' = i.withImmediates plain ∨ i' = i.withImmediates marked

theorem Marked.sameForm {i i' : Instr} (h : Marked i i') : SameForm i i' := by
  obtain rfl | rfl := h
  · exact ⟨plain, rfl⟩
  · exact ⟨marked, rfl⟩

theorem markLoad_marked (reg : UInt32) (is : List Instr) :
    List.Forall₂ Marked is (markLoad reg is) := by
  induction is generalizing reg with
  | nil => exact .nil
  | cons i is ih =>
      rw [markLoad]
      cases follow reg i with
      | stop offset =>
          refine .cons (.inr rfl) ?_
          rw [List.forall₂_map_right_iff, List.forall₂_same]
          exact fun i _ => .inl rfl
      | forward dst imm => exact .cons (.inr rfl) (ih dst)
      | pass => exact .cons (.inl rfl) (ih reg)

theorem markPage_marked (is : List Instr) : List.Forall₂ Marked is (markPage is) := by
  induction is with
  | nil => exact .nil
  | cons i is ih =>
      cases i with
      | adrp rd pages =>
          rw [markPage]
          split
          · exact .cons (.inr rfl) (markLoad_marked rd is)
          · exact .cons (.inl rfl) ih
      | _ => exact .cons (.inl rfl) ih

theorem followLoad_markLoad {reg : UInt32} {is : List Instr} (h : findsLoad reg is = true)
    (base : UInt64) : followLoad reg base (markLoad reg is) = some (base + 0x800) := by
  induction is generalizing reg base with
  | nil => contradiction
  | cons i is ih =>
      rw [findsLoad, followLoad] at h
      rw [markLoad]
      cases hfollow : follow reg i with
      | stop offset =>
          show followLoad reg base (i.withImmediates marked :: _) = _
          rw [followLoad, follow_withImmediates, hfollow]
          rfl
      | forward dst imm =>
          rw [hfollow] at h
          show followLoad reg base (i.withImmediates marked :: markLoad dst is) = _
          rw [followLoad, follow_withImmediates, hfollow]
          show followLoad dst (base + 0) _ = _
          rw [UInt64.add_zero]
          exact ih ((isSome_followLoad dst 0 (0 + imm) is).trans h) base
      | pass =>
          rw [hfollow] at h
          show followLoad reg base (i.withImmediates plain :: markLoad reg is) = _
          rw [followLoad, follow_withImmediates, hfollow]
          exact ih h base

/-- What is decoded of the marked code. -/
theorem followPage_markPage {writesSp : UInt32 → Bool} {is : List Instr} {pc : UInt64}
    (hpc : pc.toNat + 4 * is.length ≤ 4096) (h : steady writesSp is = false) :
    followPage pc (markPage is) = some 0x1800 := by
  induction is generalizing pc with
  | nil => contradiction
  | cons i is ih =>
      rw [List.length_cons] at hpc
      have hnext : (pc + 4).toNat + 4 * is.length ≤ 4096 := by
        have hfour : (4 : UInt64).toNat = 4 := rfl
        rw [UInt64.toNat_add, hfour]
        omega
      cases i with
      | adrp rd pages =>
          rw [steady] at h
          rw [markPage]
          by_cases hfinds : findsLoad rd is = true
          · rw [if_pos hfinds, Instr.withImmediates, followPage, followLoad_markLoad hfinds,
              pageAddress_of_lt (by omega)]
            rfl
          · rw [if_neg hfinds] at h ⊢
            have hnone : followLoad rd (pageAddress pc plain.pages) (markPage is) = none := by
              rw [findsLoad_congr ((markPage_marked is).imp fun _ _ => Marked.sameForm),
                findsLoad, isSome_followLoad rd 0 (pageAddress pc plain.pages)] at hfinds
              exact Option.not_isSome_iff_eq_none.mp hfinds
            rw [Instr.withImmediates, followPage, hnone]
            exact ih hnext h
      | _ => exact ih hnext h

/-! ### Words -/

def plainBits : ImmediateBits where
  adrp := 0
  add := 0x400
  ldr := 0
  adrp_free := by decide
  add_free := by decide
  ldr_free := by decide

def markedBits : ImmediateBits where
  adrp := 0x20000000
  add := 0
  ldr := 0x40000
  adrp_free := by decide
  add_free := by decide
  ldr_free := by decide

theorem exists_words {words : List UInt32} {is : List Instr}
    (h : List.Forall₂ Marked (words.map Aarch64.decode) is) :
    ∃ words' : List UInt32,
      words'.length = words.length ∧ words'.map Aarch64.decode = is := by
  induction words generalizing is with
  | nil =>
      cases h
      exact ⟨[], rfl, rfl⟩
  | cons word words ih =>
      cases h with
      | @cons _ i _ is hi his =>
          obtain ⟨words', hlen, rfl⟩ := ih his
          have hplain : plainBits.immediates = plain := rfl
          have hmarked : markedBits.immediates = marked := rfl
          obtain rfl | rfl := hi
          · refine ⟨plainBits.write word :: words', by simp [hlen], ?_⟩
            rw [List.map_cons, Aarch64.decode_write, hplain]
          · refine ⟨markedBits.write word :: words', by simp [hlen], ?_⟩
            rw [List.map_cons, Aarch64.decode_write, hmarked]

/-- Code at the bottom of the address space, which every slot points to. -/
def codeImage (words : List UInt32) : Image where
  word address := words.getD (address.toNat / 4) 0
  pointer _ := 0

theorem codeImage_words {words : List UInt32} {n : ℕ} (hlen : words.length = n) (h : n < 2 ^ 32) :
    (codeImage words).words n 0 = words := by
  refine List.ext_getElem (by simp [Image.words, hlen]) fun i hi hi' => ?_
  have hfour : (4 : UInt64).toNat = 4 := rfl
  have hplace : (0 + 4 * UInt64.ofNat i).toNat / 4 = i := by
    rw [UInt64.zero_add, UInt64.toNat_mul, UInt64.toNat_ofNat', hfour]
    omega
  simp only [Image.words, List.getElem_map, List.getElem_range, codeImage, hplace]
  rw [List.getD_eq_getElem _ _ hi']

theorem followImportThunk_codeImage (words : List UInt32) :
    followImportThunk (codeImage words) 0 = 0 := by
  unfold followImportThunk
  dsimp only
  split
  · rfl
  · split
    · rfl
    · split <;> rfl

/-! ### The decoder -/

theorem decodeGMain_eq_ok_iff {image : Image} {entry gMain : UInt64} :
    decodeGMain image entry = .ok gMain ↔
      followPage (followImportThunk image entry)
        ((image.words window (followImportThunk image entry)).map Aarch64.decode) =
          some gMain := by
  rw [← scanAdrp_eq, decodeGMain]
  cases scanAdrp (followImportThunk image entry)
      (image.words window (followImportThunk image entry)) with
  | none => simp
  | some gMain' => simp

/-- The address is one that the code loads from, while nothing disturbs the
register that the scan follows. -/
theorem sound_of_steady {writesSp : UInt32 → Bool} {image : Image} {entry : UInt64}
    (h : steady writesSp
      ((image.words window (followImportThunk image entry)).map Aarch64.decode) = true) :
    Sound writesSp image entry :=
  fun _ hdecode _ _ => mem_loads_of_followPage (decodeGMain_eq_ok_iff.mp hdecode) h

/-- The code decodes to a load of its own exactly when nothing disturbs the register
that the scan follows, whatever immediates the instructions have. -/
theorem sound_iff_steady (writesSp : UInt32 → Bool) (code : Fin window → UInt32) :
    (∀ image entry, List.Forall₂ SameForm ((List.ofFn code).map Aarch64.decode)
        ((image.words window (followImportThunk image entry)).map Aarch64.decode) →
      Sound writesSp image entry) ↔
      steady writesSp ((List.ofFn code).map Aarch64.decode) = true := by
  constructor
  · intro hsound
    by_contra hsteady
    rw [Bool.not_eq_true] at hsteady
    -- Code that is not steady, with marks for its immediates, is decoded to an address that nothing
    -- in it loads from.
    have hmarked := markPage_marked ((List.ofFn code).map Aarch64.decode)
    obtain ⟨words, hlen, hwords⟩ := exists_words hmarked
    have hcount : ((List.ofFn code).map Aarch64.decode).length = 8 := by
      rw [List.length_map]
      exact List.length_ofFn
    generalize (List.ofFn code).map Aarch64.decode = is at *
    have hread : ((codeImage words).words window (followImportThunk (codeImage words) 0)).map
        Aarch64.decode = markPage is := by
      rw [followImportThunk_codeImage, codeImage_words (hlen.trans List.length_ofFn) (by decide),
        hwords]
    have hdecode : decodeGMain (codeImage words) 0 = .ok 0x1800 := by
      rw [decodeGMain_eq_ok_iff, hread, followImportThunk_codeImage]
      exact followPage_markPage (by rw [hcount]; decide) hsteady
    have hform : List.Forall₂ SameForm is (((codeImage words).words window
        (followImportThunk (codeImage words) 0)).map Aarch64.decode) := by
      rw [hread]
      exact hmarked.imp fun _ _ => Marked.sameForm
    have hmem := hsound (codeImage words) 0 hform _ hdecode (clearSp writesSp)
      ⟨fun _ => 0, 0, fun _ => 0⟩
    rw [hread, followImportThunk_codeImage] at hmem
    have hlow : Holds (Low 0) ⟨fun _ => 0, 0, fun _ => 0⟩ := by
      refine ⟨fun r => ?_, fun _ => rfl⟩
      unfold Machine.base
      split <;> exact Nat.le_refl 0
    exact not_mem_loads_markPage hlow (by omega) (by rw [hcount]; decide) hsteady hmem
  · intro hsteady image entry hform
    exact sound_of_steady (steady_congr writesSp hform ▸ hsteady)

/-- Code at `0x10000`: two pages in one register, and a load through the
second. -/
def overwrittenImage : Image where
  word address :=
    [0xb0000000, 0xd0000000, 0xf9400c01].getD ((address - 0x10000).toNat / 4) 0
  pointer _ := 0

theorem not_sound_overwritten :
    decodeGMain overwrittenImage 0x10000 = .ok 0x11018 ∧
      ¬ Sound (fun _ => false) overwrittenImage 0x10000 := by
  have hdecode : decodeGMain overwrittenImage 0x10000 = .ok 0x11018 := by decide +kernel
  refine ⟨hdecode, fun hsound => ?_⟩
  have hmem := hsound _ hdecode (clearSp fun _ => false) ⟨fun _ => 0, 0, fun _ => 0⟩
  revert hmem
  decide +kernel

end Idakit.Kernel
