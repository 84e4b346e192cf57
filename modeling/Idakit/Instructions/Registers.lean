import Idakit.Instructions.Decode

/-!
Which instructions are decoded without a panic, and with a refusal of every
register that has no class.
-/

namespace Idakit.Instructions

open Idakit.Library Idakit.Types Idakit.Decompiler Idakit.Facade

variable {p : Processor}

/-! ### The registers of an instruction -/

def operandRegisters (p : Processor) (op : RawOperand) : List ℤ :=
  match op.type with
  | .reg => [op.reg.toNat]
  | .fpreg => [p.st0 + op.reg.toNat]
  | .mmxreg => [p.mm0 + op.reg.toNat]
  | .xmmreg => [p.xmm0 + op.reg.toNat]
  | .ymmreg => [p.ymm0 + op.reg.toNat]
  | .zmmreg => [p.zmm0 + op.reg.toNat]
  | .kreg => [p.k0 + op.reg.toNat]
  | .mem | .phrase | .displ => [op.baseReg, op.indexReg].filter (· ≠ p.none)
  | _ => []

/-- The numbers that an instruction names, in an operand or as its opmask. -/
def registers (p : Processor) (insn : Insn) : List ℤ :=
  ((List.range procMaxop).flatMap fun i => operandRegisters p (insn.ops i)) ++
    if insn.evexpr ∧ (insn.ops procMaxop).type = .reg then [((insn.ops procMaxop).reg.toNat : ℤ)]
    else []

def writtenRegisters (data : InstructionData) : List RegisterData :=
  data.mask :: data.ops.flatMap fun o => [o.reg, o.base, o.index]

/-- The instruction that the processor module hands back. -/
def HandsBack (p : Processor) (address : Address) (insn : Insn) : Prop :=
  p.is386 = true ∧ p.decodeInsn address.raw = some insn

/-- Decoding ends in an instruction or an error, with modelled classes alone,
and a register without a class is what it is refused for. -/
structure DecodesSafely (p : Processor) (address : Address) : Prop where
  total : decode p address ≠ .panic
  classes : ∀ r ∈ writtenRegisters (decodeInsn p address.raw),
    (RegisterClass.tryFrom r.cls).isSome
  refused : ∀ insn, HandsBack p address insn → (∃ r ∈ registers p insn, regClassOf p r = rcBad) →
    ∃ slot number, decode p address = .err (.unsupportedRegister address.raw slot number)

/-- An operand that is refused for its register, and nothing before it that is
refused for its type. -/
def RefusedAt (p : Processor) (insn : Insn) (i : ℕ) : Prop :=
  (insn.ops i).type = .reg ∧ regClassOf p (insn.ops i).reg.toNat = rcBad ∧
    ∀ j < i, ∀ code, (insn.ops j).type ≠ .other code

/-- Every register has a class, or a plain register operand has none. -/
def Covered (p : Processor) (insn : Insn) : Prop :=
  (∀ r ∈ registers p insn, regClassOf p r ≠ rcBad) ∨ ∃ i < procMaxop, RefusedAt p insn i

/-! ### The facade -/

theorem isSome_regClassOf {r : ℤ} (h : regClassOf p r ≠ rcBad) :
    (RegisterClass.tryFrom (regClassOf p r)).isSome := by
  revert h
  fun_cases regClassOf p r <;> simp [RegisterClass.tryFrom, registerClasses] <;> decide

structure Written (p : Processor) (op : RawOperand) (o : OperandData) : Prop where
  kind : o.kind = opReg ∨ o.kind = opMem ∨ o.kind = opImm ∨ o.kind = opNear ∨ o.kind = opFar
  classes : (∀ r ∈ operandRegisters p op, regClassOf p r ≠ rcBad) →
    ∀ r ∈ [o.reg, o.base, o.index], (RegisterClass.tryFrom r.cls).isSome

theorem isSome_addressReg {insn : Insn} {op : RawOperand} {r : ℤ}
    (hop : op.type = .mem ∨ op.type = .phrase ∨ op.type = .displ)
    (hr : r = op.baseReg ∨ r = op.indexReg)
    (h : ∀ r ∈ operandRegisters p op, regClassOf p r ≠ rcBad) :
    (RegisterClass.tryFrom (addressReg p insn r).cls).isSome := by
  rw [addressReg]
  split
  · rename_i hne
    refine isSome_regClassOf (h r ?_)
    rw [operandRegisters]
    rcases hop with hop | hop | hop <;> rw [hop] <;> rcases hr with rfl | rfl <;> simp [hne]
  · rfl

/-- An operand is refused for its register, or for its type, or written. -/
theorem classifyOp_cases (p : Processor) (insn : Insn) (op : RawOperand) (idx : ℕ) :
    (op.type = .reg ∧ regClassOf p op.reg.toNat = rcBad ∧
      ∃ code, classifyOp p insn op idx = .error (-4, code)) ∨
    (op.type = .void ∨ ∃ code, op.type = .other code) ∧
      (∃ code, classifyOp p insn op idx = .error (-3, code)) ∨
    ∃ o, classifyOp p insn op idx = .ok o ∧ Written p op o := by
  have hnone : (RegisterClass.tryFrom noneReg.cls).isSome := rfl
  cases hop : op.type with
  | reg =>
      by_cases hbad : regClassOf p op.reg.toNat = rcBad
      · exact .inl ⟨rfl, hbad, _, by simp [classifyOp, hop, hbad]; rfl⟩
      · refine .inr (.inr ⟨_, by simp only [classifyOp, hop, if_neg hbad]; rfl, .inl rfl, ?_⟩)
        simp [blankOperand, fillReg, hnone, isSome_regClassOf hbad]
  | void => exact .inr (.inl ⟨.inl rfl, _, by simp only [classifyOp, hop]; rfl⟩)
  | other code => exact .inr (.inl ⟨.inr ⟨code, rfl⟩, _, by simp only [classifyOp, hop]; rfl⟩)
  | imm =>
      refine .inr (.inr ⟨_, by simp only [classifyOp, hop]; rfl, by simp, ?_⟩)
      simp [blankOperand, hnone]
  | near =>
      refine .inr (.inr ⟨_, by simp only [classifyOp, hop]; rfl, by simp, ?_⟩)
      simp [blankOperand, hnone]
  | far =>
      refine .inr (.inr ⟨_, by simp only [classifyOp, hop]; rfl, by simp, ?_⟩)
      simp [blankOperand, hnone]
  | mem | phrase | displ =>
      refine .inr (.inr ⟨_, by simp only [classifyOp, hop]; rfl, by simp [fillMem], fun h => ?_⟩)
      simp only [fillMem, blankOperand, List.forall_mem_cons]
      refine ⟨hnone, ?_, ?_, by simp⟩
      · exact isSome_addressReg (by simp [hop]) (.inl rfl) h
      · exact isSome_addressReg (by simp [hop]) (.inr rfl) h
  | _ =>
      refine .inr (.inr ⟨_, by simp only [classifyOp, hop]; rfl, by simp, fun _ => ?_⟩)
      simp only [blankOperand, fillReg, fillSpecialReg, List.forall_mem_cons]
      exact ⟨rfl, hnone, hnone, by simp⟩

def Accepts (p : Processor) (insn : Insn) (i : ℕ) : Prop :=
  (insn.ops i).type = .void ∨ ∃ o, classifyOp p insn (insn.ops i) i = .ok o

section

variable {insn : Insn} {slots : List ℕ} {ops : List OperandData} {tgt : UInt64}

/-- The loop is left at the first slot that is refused. -/
theorem classifyOps_error {status : Int32} {slot code : UInt8}
    (h : classifyOps p insn slots ops tgt = .error (status, slot, code)) :
    ∃ before i after, slots = before ++ i :: after ∧ (∀ j ∈ before, Accepts p insn j) ∧
      (insn.ops i).type ≠ .void ∧ classifyOp p insn (insn.ops i) i = .error (status, code) := by
  fun_induction classifyOps p insn slots ops tgt with
  | case1 => contradiction
  | case2 => contradiction
  | case3 i slots ops tgt op hroom hvoid ih =>
      obtain ⟨before, j, after, rfl, hbefore, hj⟩ := ih h
      exact ⟨i :: before, j, after, rfl, List.forall_mem_cons.mpr ⟨.inl hvoid, hbefore⟩, hj⟩
  | case4 i slots ops tgt op hroom hvoid status' code' hop =>
      cases h
      exact ⟨[], i, slots, rfl, by simp, hvoid, hop⟩
  | case5 i slots ops tgt op hroom hvoid dst hop access tgt' ih =>
      obtain ⟨before, j, after, rfl, hbefore, hj⟩ := ih h
      refine ⟨i :: before, j, after, rfl, ?_, hj⟩
      exact List.forall_mem_cons.mpr ⟨.inr ⟨dst, hop⟩, hbefore⟩

/-- When no slot is refused, what is written is what is written for the
slots. There are never more operands than the data have room for. -/
theorem classifyOps_ok {out : List OperandData} {tgt' : UInt64}
    (hroom : ops.length + slots.length ≤ maxOps)
    (h : classifyOps p insn slots ops tgt = .ok (out, tgt')) :
    (∀ i ∈ slots, Accepts p insn i) ∧
      ∀ o ∈ out, o ∈ ops ∨ ∃ i ∈ slots, Written p (insn.ops i) o := by
  -- No slot is left over for want of room, for there are no more slots than places.
  fun_induction classifyOps p insn slots ops tgt with
  | case1 =>
      cases h
      exact ⟨by simp, fun o ho => .inl ho⟩
  | case2 i slots ops tgt hfull =>
      rw [List.length_cons] at hroom
      omega
  | case3 i slots ops tgt op hfull hvoid ih =>
      rw [List.length_cons] at hroom
      obtain ⟨haccepts, hout⟩ := ih (by omega) h
      refine ⟨List.forall_mem_cons.mpr ⟨.inl hvoid, haccepts⟩, fun o ho => ?_⟩
      obtain ho | ⟨j, hj, hwritten⟩ := hout o ho
      · exact .inl ho
      · exact .inr ⟨j, List.mem_cons_of_mem _ hj, hwritten⟩
  | case4 => contradiction
  | case5 i slots ops tgt op hfull hvoid dst hop access tgt' ih =>
      rw [List.length_cons] at hroom
      obtain ⟨haccepts, hout⟩ := ih (by simp; omega) h
      refine ⟨List.forall_mem_cons.mpr ⟨.inr ⟨dst, hop⟩, haccepts⟩, fun o ho => ?_⟩
      obtain ho | ⟨j, hj, hwritten⟩ := hout o ho
      · obtain ho | ho := List.mem_append.mp ho
        · exact .inl ho
        · obtain rfl := List.mem_singleton.mp ho
          obtain ⟨-, -, code, herr⟩ | ⟨-, code, herr⟩ | ⟨dst', hdst, hwritten⟩ :=
            classifyOp_cases p insn (insn.ops i) i
          · rw [hop] at herr
            contradiction
          · rw [hop] at herr
            contradiction
          · obtain rfl : dst = dst' := Except.ok.inj (hop.symm.trans hdst)
            exact .inr ⟨i, by simp, hwritten.kind, hwritten.classes⟩
      · exact .inr ⟨j, List.mem_cons_of_mem _ hj, hwritten⟩

end

theorem isSome_opmask (p : Processor) (insn : Insn) :
    (RegisterClass.tryFrom (opmask p insn).cls).isSome := by
  rw [opmask]
  split <;> rfl

/-! ### The rebuilding -/

theorem register_ne_panic {r : RegisterData} (h : (RegisterClass.tryFrom r.cls).isSome) :
    register r ≠ .panic := by
  obtain ⟨c, hc⟩ := Option.isSome_iff_exists.mp h
  rw [register]
  split
  · simp
  · simp [hc, Outcome.expect]

theorem register_ne_err (r : RegisterData) (e : DecodeError) : register r ≠ .err e := by
  rw [register]
  split
  · simp
  · cases RegisterClass.tryFrom r.cls <;> simp [Outcome.expect]

theorem okOr_ne_panic {ε α : Type} (e : ε) (o : Option α) : Outcome.okOr e o ≠ .panic := by
  cases o <;> simp [Outcome.okOr]

theorem operand_ne_panic {op : RawOperand} {o : OperandData} (h : Written p op o)
    (hop : ∀ r ∈ operandRegisters p op, regClassOf p r ≠ rcBad) (address : Address) :
    operand o address ≠ .panic := by
  have hclasses := h.classes hop
  refine Outcome.bind_ne_panic ?_ fun kind _ => ?_
  · rw [operandKind]
    rcases h.kind with hkind | hkind | hkind | hkind | hkind
    · rw [if_pos hkind]
      refine Outcome.bind_ne_panic (register_ne_panic (hclasses _ (by simp))) fun r _ => ?_
      exact Outcome.bind_ne_panic (okOr_ne_panic _ r) fun r _ => by simp
    · rw [hkind, if_neg (by decide), if_pos rfl]
      refine Outcome.bind_ne_panic (register_ne_panic (hclasses _ (by simp))) fun base _ => ?_
      refine Outcome.bind_ne_panic (register_ne_panic (hclasses _ (by simp))) fun index _ => ?_
      simp
    · simp [hkind, opImm, opReg, opMem]
    · rw [hkind, if_neg (by decide), if_neg (by decide), if_neg (by decide), if_pos rfl]
      exact Outcome.bind_ne_panic (okOr_ne_panic _ _) fun target _ => by simp
    · simp [hkind, opFar, opImm, opNear, opReg, opMem]
  · exact Outcome.bind_ne_panic (okOr_ne_panic _ _) fun dataType _ => by simp

theorem fpControlFromData_ne_panic {data : InstructionData} {insn : Insn}
    (hcontrol : data.fpControl = (fpControl p insn).1)
    (hmode : data.roundMode = (fpControl p insn).2) : fpControlFromData data ≠ .panic := by
  rw [fpControlFromData, hcontrol, hmode]
  fun_cases fpControl p insn with
  | case1 => cases insn.evexL <;> cases insn.vexL <;> decide
  | case2 => decide
  | case3 => decide

theorem expect_ne_err {ε α : Type} (o : Option α) (e : ε) : Outcome.expect o ≠ .err e := by
  cases o <;> simp [Outcome.expect]

theorem eq_of_okOr_eq_err {ε α : Type} {e e' : ε} {o : Option α} (h : Outcome.okOr e o = .err e') :
    e' = e := by
  cases o with
  | none => exact (Outcome.err.inj h).symm
  | some a => contradiction

/-- An operand of a known kind is refused as malformed, and as nothing else. -/
theorem operandKind_err {o : OperandData} {address : Address} {e : DecodeError}
    (h : operandKind o address = .err e) : ∃ reason, e = .malformedOperand address.raw o.idx reason := by
  unfold operandKind at h
  split at h
  · obtain h | ⟨r, -, h⟩ := Outcome.bind_eq_err_iff.mp h
    · exact absurd h (register_ne_err _ _)
    · obtain h | ⟨r, -, h⟩ := Outcome.bind_eq_err_iff.mp h
      · exact ⟨_, eq_of_okOr_eq_err h⟩
      · contradiction
  split at h
  · obtain h | ⟨base, -, h⟩ := Outcome.bind_eq_err_iff.mp h
    · exact absurd h (register_ne_err _ _)
    · obtain h | ⟨index, -, h⟩ := Outcome.bind_eq_err_iff.mp h
      · exact absurd h (register_ne_err _ _)
      · contradiction
  split at h
  · contradiction
  split at h
  · obtain h | ⟨target, -, h⟩ := Outcome.bind_eq_err_iff.mp h
    · exact ⟨_, eq_of_okOr_eq_err h⟩
    · contradiction
  split at h <;> contradiction

theorem fpControlFromData_ne_err (data : InstructionData) (e : DecodeError) :
    fpControlFromData data ≠ .err e := by
  unfold fpControlFromData
  split
  · simp
  split
  · intro h
    obtain h | ⟨mode, -, h⟩ := Outcome.bind_eq_err_iff.mp h
    · exact expect_ne_err _ _ h
    · contradiction
  split <;> simp

/-- No data are refused for a register. -/
theorem insnFromData_ne_unsupportedRegister (data : InstructionData) (address : Address)
    (slot number : UInt8) :
    insnFromData data address ≠ .err (.unsupportedRegister address.raw slot number) := by
  intro h
  obtain h | ⟨ops, -, h⟩ := Outcome.bind_eq_err_iff.mp h
  · obtain ⟨o, -, h⟩ := Outcome.exists_err_of_collect h
    obtain h | ⟨kind, -, h⟩ := Outcome.bind_eq_err_iff.mp h
    · obtain ⟨reason, h⟩ := operandKind_err h
      contradiction
    · obtain h | ⟨dataType, -, h⟩ := Outcome.bind_eq_err_iff.mp h
      · exact absurd (eq_of_okOr_eq_err h) (by simp)
      · contradiction
  · obtain h | ⟨mask, -, h⟩ := Outcome.bind_eq_err_iff.mp h
    · exact register_ne_err _ _ h
    · obtain h | ⟨control, -, h⟩ := Outcome.bind_eq_err_iff.mp h
      · exact fpControlFromData_ne_err _ _ h
      · contradiction

/-! ### The loop over the slots -/

theorem range_eq_append_cons {n i : ℕ} {before after : List ℕ}
    (h : List.range n = before ++ i :: after) : before = List.range i ∧ i < n := by
  have hget : (List.range n)[before.length]? = some i := by
    rw [h, List.getElem?_append_right le_rfl]
    simp
  obtain ⟨hlt, heq⟩ := List.getElem?_eq_some_iff.mp hget
  rw [List.getElem_range] at heq
  subst heq
  rw [List.length_range] at hlt
  refine ⟨?_, hlt⟩
  have htake := congrArg (List.take before.length) h
  rw [List.take_range, List.take_left, min_eq_left hlt.le] at htake
  exact htake.symm

theorem status_of_error {insn : Insn} {slots : List ℕ} {ops : List OperandData} {tgt : UInt64}
    {status : Int32} {slot code : UInt8}
    (h : classifyOps p insn slots ops tgt = .error (status, slot, code)) :
    status = -4 ∨ status = -3 := by
  obtain ⟨before, i, after, -, -, -, hop⟩ := classifyOps_error h
  obtain ⟨-, -, code', herr⟩ | ⟨-, code', herr⟩ | ⟨o, ho, -⟩ :=
    classifyOp_cases p insn (insn.ops i) i
  · rw [hop] at herr
    cases herr
    exact .inl rfl
  · rw [hop] at herr
    cases herr
    exact .inr rfl
  · rw [hop] at ho
    contradiction

/-- The facade refuses a register where a plain register operand has no
class. -/
theorem exists_refusedAt_iff (p : Processor) (insn : Insn) :
    (∃ i < procMaxop, RefusedAt p insn i) ↔
      ∃ slot code, classifyOps p insn (List.range procMaxop) [] badAddr = .error (-4, slot, code) := by
  constructor
  · rintro ⟨i, hi, htype, hbad, hbefore⟩
    have hrefused : ¬ Accepts p insn i := by
      rintro (hvoid | ⟨o, ho⟩)
      · rw [hvoid] at htype
        contradiction
      · rw [classifyOp, htype] at ho
        simp [hbad] at ho
    cases hops : classifyOps p insn (List.range procMaxop) [] badAddr with
    | ok out =>
        obtain ⟨haccepts, -⟩ := classifyOps_ok (by decide) hops
        exact absurd (haccepts i (List.mem_range.mpr hi)) hrefused
    | error e =>
        obtain ⟨status, slot, code⟩ := e
        obtain ⟨before, j, after, hrange, haccepts, hvoid, hop⟩ := classifyOps_error hops
        obtain ⟨rfl, -⟩ := range_eq_append_cons hrange
        -- The slot that is refused first is no later than this one.
        have hle : j ≤ i := by
          by_contra hlt
          exact hrefused (haccepts i (List.mem_range.mpr (by omega)))
        obtain ⟨-, -, code', herr⟩ | ⟨hunknown, -⟩ | ⟨o, ho, -⟩ :=
          classifyOp_cases p insn (insn.ops j) j
        · rw [hop] at herr
          cases herr
          exact ⟨slot, code, rfl⟩
        · exfalso
          rcases hunknown with hvoid' | ⟨code', hcode⟩
          · exact hvoid hvoid'
          · rcases hle.lt_or_eq with hlt | rfl
            · exact hbefore j hlt code' hcode
            · rw [hcode] at htype
              contradiction
        · rw [hop] at ho
          contradiction
  · rintro ⟨slot, code, hops⟩
    obtain ⟨before, i, after, hrange, haccepts, hvoid, hop⟩ := classifyOps_error hops
    obtain ⟨rfl, hi⟩ := range_eq_append_cons hrange
    obtain ⟨htype, hbad, -⟩ | ⟨-, code', herr⟩ | ⟨o, ho, -⟩ :=
      classifyOp_cases p insn (insn.ops i) i
    · refine ⟨i, hi, htype, hbad, fun j hj code' hcode => ?_⟩
      rcases haccepts j (List.mem_range.mpr hj) with hvoid' | ⟨o, ho⟩
      · rw [hcode] at hvoid'
        contradiction
      · rw [classifyOp, hcode] at ho
        contradiction
    · rw [hop] at herr
      cases herr
    · rw [hop] at ho
      contradiction

/-! ### Instructions -/

structure Accepted (p : Processor) (insn : Insn) (data : InstructionData) : Prop where
  status : data.status = 0
  mask : data.mask = opmask p insn
  control : data.fpControl = (fpControl p insn).1
  mode : data.roundMode = (fpControl p insn).2
  ops : ∀ o ∈ data.ops, ∃ i < procMaxop, Written p (insn.ops i) o

/-- An instruction is refused at a slot, or its data are those of its
operands. -/
theorem decodeInsn_cases {address : Address} {insn : Insn} (h : HandsBack p address insn) :
    (∃ status slot code,
      classifyOps p insn (List.range procMaxop) [] badAddr = .error (status, slot, code) ∧
      (decodeInsn p address.raw).status = status ∧ (decodeInsn p address.raw).errOp = slot ∧
      (decodeInsn p address.raw).errOptype = code ∧
      writtenRegisters (decodeInsn p address.raw) = [.zero]) ∨
    (∃ out, classifyOps p insn (List.range procMaxop) [] badAddr = .ok out) ∧
      Accepted p insn (decodeInsn p address.raw) := by
  obtain ⟨hx86, hinsn⟩ := h
  rw [decodeInsn, if_pos hx86, hinsn]
  cases hops : classifyOps p insn (List.range procMaxop) [] badAddr with
  | error e =>
      obtain ⟨status, slot, code⟩ := e
      exact .inl ⟨status, slot, code, rfl, by simp [hops], by simp [hops], by simp [hops],
        by simp [hops, writtenRegisters, blankInstruction]⟩
  | ok out =>
      obtain ⟨ops, tgt⟩ := out
      refine .inr ⟨⟨_, rfl⟩, ?_⟩
      simp only [hops]
      refine ⟨rfl, rfl, rfl, rfl, fun o ho => ?_⟩
      obtain hmem | ⟨i, hi, hwritten⟩ := (classifyOps_ok (by decide) hops).2 o ho
      · contradiction
      · exact ⟨i, List.mem_range.mp hi, hwritten⟩

/-- When there is no instruction, nothing is written. -/
theorem decodeInsn_of_not_handsBack {address : Address} (h : ∀ insn, ¬ HandsBack p address insn) :
    ((decodeInsn p address.raw).status = -1 ∨ (decodeInsn p address.raw).status = -2) ∧
      writtenRegisters (decodeInsn p address.raw) = [.zero] := by
  rw [decodeInsn]
  by_cases hx86 : p.is386 = true
  · rw [if_pos hx86]
    cases hinsn : p.decodeInsn address.raw with
    | none => exact ⟨.inl rfl, rfl⟩
    | some insn => exact absurd ⟨hx86, hinsn⟩ (h insn)
  · rw [if_neg hx86]
    exact ⟨.inr rfl, rfl⟩

theorem classify_ne_panic {data : InstructionData} (address : Address) (h : data.status ≠ 0) :
    classify data address ≠ .panic := by
  rw [classify, if_neg h]
  split
  · simp
  split
  · simp
  split <;> simp

theorem status_of_unsupportedRegister {data : InstructionData} {address : Address}
    {slot number : UInt8}
    (h : classify data address = .err (.unsupportedRegister address.raw slot number)) :
    data.status = -4 := by
  unfold classify at h
  split at h
  · exact absurd h (insnFromData_ne_unsupportedRegister data address slot number)
  split at h
  · simp at h
  split at h
  · simp at h
  split at h
  · assumption
  · simp at h

theorem mem_registers {insn : Insn} {i : ℕ} (hi : i < procMaxop) {r : ℤ}
    (hr : r ∈ operandRegisters p (insn.ops i)) : r ∈ registers p insn :=
  List.mem_append_left _ (List.mem_flatMap.mpr ⟨i, List.mem_range.mpr hi, hr⟩)

/-- Data whose registers all have a class are rebuilt without a panic. -/
theorem Accepted.ne_panic {insn : Insn} {data : InstructionData} (h : Accepted p insn data)
    (hall : ∀ r ∈ registers p insn, regClassOf p r ≠ rcBad) (address : Address) :
    insnFromData data address ≠ .panic := by
  refine Outcome.bind_ne_panic (Outcome.collect_ne_panic fun o ho => ?_) fun ops _ => ?_
  · obtain ⟨i, hi, hwritten⟩ := h.ops o ho
    exact operand_ne_panic hwritten (fun r hr => hall r (mem_registers hi hr)) address
  have hmask : register data.mask ≠ .panic := by
    rw [h.mask]
    exact register_ne_panic (isSome_opmask p insn)
  refine Outcome.bind_ne_panic hmask fun mask _ => ?_
  exact Outcome.bind_ne_panic (fpControlFromData_ne_panic h.control h.mode) fun control _ => by simp

theorem Accepted.classes {insn : Insn} {data : InstructionData} (h : Accepted p insn data)
    (hall : ∀ r ∈ registers p insn, regClassOf p r ≠ rcBad) :
    ∀ r ∈ writtenRegisters data, (RegisterClass.tryFrom r.cls).isSome := by
  intro r hr
  obtain rfl | hr := List.mem_cons.mp hr
  · rw [h.mask]
    exact isSome_opmask p insn
  · obtain ⟨o, ho, hr⟩ := List.mem_flatMap.mp hr
    obtain ⟨i, hi, hwritten⟩ := h.ops o ho
    exact hwritten.classes (fun r hr => hall r (mem_registers hi hr)) r hr

theorem DecodesSafely.covered {p : Processor} {address : Address} (h : DecodesSafely p address) :
    ∀ insn, HandsBack p address insn → Covered p insn := by
  intro insn hback
  by_cases hall : ∀ r ∈ registers p insn, regClassOf p r ≠ rcBad
  · exact .inl hall
  · push Not at hall
    obtain ⟨slot, number, hdecode⟩ := h.refused insn hback hall
    have hstatus := status_of_unsupportedRegister hdecode
    obtain ⟨status, slot', code, hops, rfl, -⟩ | ⟨-, haccepted⟩ := decodeInsn_cases hback
    · rw [hstatus] at hops
      exact .inr ((exists_refusedAt_iff p insn).mpr ⟨slot', code, hops⟩)
    · rw [haccepted.status] at hstatus
      contradiction

theorem decodesSafely_of_covered {p : Processor} {address : Address}
    (h : ∀ insn, HandsBack p address insn → Covered p insn) : DecodesSafely p address := by
  -- A refused operand comes back as its status, an accepted one has a modelled class.
  by_cases hback : ∃ insn, HandsBack p address insn
  · obtain ⟨insn, hback⟩ := hback
    obtain ⟨status, slot, code, hops, hstatus, hslot, hcode, hwritten⟩ | ⟨⟨out, hops⟩, haccepted⟩ :=
      decodeInsn_cases hback
    · refine ⟨classify_ne_panic address ?_, ?_, fun insn' hback' hbad => ?_⟩
      · rw [hstatus]
        rcases status_of_error hops with rfl | rfl <;> decide
      · rw [hwritten]
        simp [RegisterData.zero, RegisterClass.tryFrom, registerClasses]
      · obtain rfl : insn' = insn := Option.some.inj (hback'.2.symm.trans hback.2)
        obtain ⟨r, hr, hbad⟩ := hbad
        have hrefused := (h _ hback).resolve_left fun hall => hall r hr hbad
        obtain ⟨slot', code', herr⟩ := (exists_refusedAt_iff p _).mp hrefused
        rw [hops] at herr
        cases herr
        refine ⟨slot, code, ?_⟩
        rw [decode, classify, hstatus, hslot, hcode]
        rfl
    · have hall : ∀ r ∈ registers p insn, regClassOf p r ≠ rcBad := by
        refine (h insn hback).resolve_right fun hrefused => ?_
        obtain ⟨slot, code, herr⟩ := (exists_refusedAt_iff p insn).mp hrefused
        rw [hops] at herr
        contradiction
      have hdecode : decode p address = insnFromData (decodeInsn p address.raw) address := by
        rw [decode, classify, if_pos haccepted.status]
      refine ⟨?_, haccepted.classes hall, fun insn' hback' hbad => ?_⟩
      · rw [hdecode]
        exact haccepted.ne_panic hall address
      · obtain rfl : insn' = insn := Option.some.inj (hback'.2.symm.trans hback.2)
        obtain ⟨r, hr, hbad⟩ := hbad
        exact absurd hbad (hall r hr)
  · push Not at hback
    obtain ⟨hstatus, hwritten⟩ := decodeInsn_of_not_handsBack hback
    refine ⟨classify_ne_panic address ?_, ?_, fun insn hinsn => absurd hinsn (hback insn)⟩
    · rcases hstatus with hstatus | hstatus <;> rw [hstatus] <;> decide
    · rw [hwritten]
      simp [RegisterData.zero, RegisterClass.tryFrom, registerClasses]

/-- Decoding is safe at an address exactly when the registers of the
instruction there are covered. -/
theorem decodesSafely_iff (p : Processor) (address : Address) :
    DecodesSafely p address ↔ ∀ insn, HandsBack p address insn → Covered p insn :=
  ⟨DecodesSafely.covered, decodesSafely_of_covered⟩

def flagBase : RawOperand where
  type := .displ
  reg := 0
  offb := 2
  dtype := 2
  addr := 8
  value := 0
  segsel := 0
  specflag1 := 0
  baseReg := 35
  indexReg := -1
  scale := 0
  dataEa := 8
  codeEa := 8
  farEa := 8

def voidOperand : RawOperand := { flagBase with type := .void }

def flagBaseProcessor : Processor where
  is386 := true
  is64bit := true
  none := -1
  ax := 0
  r15 := 15
  dil := 27
  ip := 28
  isSegreg r := 29 ≤ r && r ≤ 34
  st0 := 45
  st7 := 52
  mm0 := 56
  mm7 := 63
  xmm0 := 64
  xmm15 := 79
  xmm16 := 101
  xmm31 := 116
  ymm0 := 81
  ymm15 := 96
  ymm16 := 117
  ymm31 := 132
  zmm0 := 133
  zmm31 := 164
  k0 := 165
  k7 := 172
  bnd0 := 97
  bnd3 := 100
  getRegName _ _ := none
  regNames _ := none
  getDtypeSize _ := 4
  isRoundingCapable _ := false
  decodeInsn ea := some
    { ea
      size := 3
      itype := 1
      ops := fun i => if i = 0 then flagBase else voidOperand
      canonMnem := none
      disasmLine := none
      hasUse := fun _ => true
      hasChg := fun _ => false
      cfStop := false
      ad64 := true
      ad32 := false
      evexpr := false
      evexZ := false
      evexB := false
      evexL := false
      vexL := false
      isCall := false
      isRet := false
      isIndirectJump := false
      isJcc := false }

theorem not_decodesSafely_flagBase :
    regClassOf flagBaseProcessor 35 = rcBad ∧
      decode flagBaseProcessor ⟨0x1000, by decide⟩ = .panic ∧
      ¬ DecodesSafely flagBaseProcessor ⟨0x1000, by decide⟩ := by
  have hpanic : decode flagBaseProcessor ⟨0x1000, by decide⟩ = .panic := rfl
  exact ⟨rfl, hpanic, fun h => h.total hpanic⟩

end Idakit.Instructions
