import Idakit.Instructions.Registers

/-!
What a decoded instruction says of the one that the processor module handed
back. Its operands stand for the slots that are not empty; where a slot is
empty, the place of an operand and the number of its slot part. Control flow
is read off five predicates and the target of the first branch, the opmask off
the slot behind the operands.
-/

namespace Idakit.Instructions

open Idakit.Library Idakit.Types Idakit.Decompiler Idakit.Facade

variable {p : Processor} {insn : Insn}

/-! ### What is to be decoded -/

def occupiedSlots (insn : Insn) : List ℕ :=
  (List.range procMaxop).filter fun i => (insn.ops i).type ≠ .void

/-- Where an operand branches to, if it does and the target is known. -/
def linearTarget (op : RawOperand) : Option Address :=
  if op.type = .near then Address.tryNew op.codeEa
  else if op.type = .far then Address.tryNew op.farEa
  else none

/-- The target of the first branch that has one. -/
def flowTarget (insn : Insn) : Option Address :=
  (List.range procMaxop).findSome? fun i => linearTarget (insn.ops i)

/-- The slot behind the operands selects a mask, which is not `k0`. -/
def SelectsMask (p : Processor) (insn : Insn) : Prop :=
  insn.evexpr = true ∧ (insn.ops procMaxop).type = .reg ∧
    p.k0 < (insn.ops procMaxop).reg.toNat ∧ (insn.ops procMaxop).reg.toNat ≤ p.k7

structure StandsFor (insn : Insn) (i : ℕ) (o : Operand) : Prop where
  slot : o.slot.toNat = i
  byteOffset : o.byteOffset = (insn.ops i).offb
  read : o.access.read = insn.hasUse i
  written : o.access.written = insn.hasChg i

structure Faithful (p : Processor) (insn : Insn) (instruction : Instruction) : Prop where
  operands : List.Forall₂ (StandsFor insn) (occupiedSlots insn) instruction.ops
  target : instruction.flow.target = flowTarget insn
  calls : instruction.flow.isCall = insn.isCall
  jumps : instruction.flow.isJump = (insn.isJcc || insn.isIndirectJump ||
    ((flowTarget insn).isSome && insn.cfStop && !insn.isCall && !insn.isRet))
  indirect : instruction.flow.isIndirect = true ↔
    (instruction.flow.isCall = true ∨ instruction.flow.isJump = true) ∧
      instruction.flow.target = none
  masked : instruction.masking.isSome ↔ SelectsMask p insn
  maskRegister : ∀ masking, instruction.masking = some masking →
    masking.register.number = (insn.ops procMaxop).reg
  /-- With a control of floating point no operand is broadcast. -/
  exclusive : ∀ control, instruction.fpControl = some control → ∀ o ∈ instruction.ops,
    ∀ memory, o.kind = .memory memory → memory.broadcast = none

/-! ### One slot -/

def accessBits (insn : Insn) (i : ℕ) : UInt8 :=
  (if insn.hasUse i then 1 else 0) ||| if insn.hasChg i then 2 else 0

theorem accessBits_read (insn : Insn) (i : ℕ) : (accessBits insn i &&& 1 != 0) = insn.hasUse i := by
  rw [accessBits]
  cases insn.hasUse i <;> cases insn.hasChg i <;> rfl

theorem accessBits_written (insn : Insn) (i : ℕ) :
    (accessBits insn i &&& 2 != 0) = insn.hasChg i := by
  rw [accessBits]
  cases insn.hasUse i <;> cases insn.hasChg i <;> rfl

/-- An operand keeps its slot and offset, and addresses memory as its slot
does. -/
theorem classifyOp_ok {op : RawOperand} {i : ℕ} {dst : OperandData}
    (h : classifyOp p insn op i = .ok dst) :
    dst.idx = .ofNat i ∧ dst.offb = op.offb ∧
      (dst.kind = opMem → op.type = .mem ∨ op.type = .phrase ∨ op.type = .displ) := by
  cases hop : op.type with
  | reg =>
      simp only [classifyOp, hop] at h
      split at h
      · contradiction
      · obtain rfl := Except.ok.inj h
        simp [blankOperand, opReg, opMem]
  | void | other =>
      simp only [classifyOp, hop] at h
      contradiction
  | _ =>
      simp only [classifyOp, hop] at h
      obtain rfl := Except.ok.inj h
      simp [blankOperand, fillMem, opReg, opMem, opImm, opNear, opFar]

/-- An operand is rebuilt from what was written for its slot. -/
theorem operand_ok {o : OperandData} {address : Address} {operand' : Operand}
    (h : operand o address = .ok operand') :
    operand'.slot = o.idx ∧ operand'.byteOffset = o.offb ∧
      operand'.access = ⟨o.access &&& 1 != 0, o.access &&& 2 != 0⟩ ∧
      operandKind o address = .ok operand'.kind := by
  obtain ⟨kind, hkind, h⟩ := Outcome.bind_eq_ok_iff.mp h
  obtain ⟨dataType, -, h⟩ := Outcome.bind_eq_ok_iff.mp h
  obtain rfl := Outcome.ok.inj h
  exact ⟨rfl, rfl, rfl, hkind⟩

/-- What addresses memory was written as such. -/
theorem kind_of_memory {o : OperandData} {address : Address} {memory : Memory}
    (h : operandKind o address = .ok (.memory memory)) : o.kind = opMem := by
  unfold operandKind at h
  split at h
  · obtain ⟨r, -, h⟩ := Outcome.bind_eq_ok_iff.mp h
    obtain ⟨r', -, h⟩ := Outcome.bind_eq_ok_iff.mp h
    cases h
  split at h
  · assumption
  split at h
  · cases h
  split at h
  · obtain ⟨target, -, h⟩ := Outcome.bind_eq_ok_iff.mp h
    cases h
  · split at h <;> cases h

/-! ### The loop over the slots -/

def WrittenFor (p : Processor) (insn : Insn) (i : ℕ) (o : OperandData) : Prop :=
  ∃ dst, classifyOp p insn (insn.ops i) i = .ok dst ∧ o = { dst with access := accessBits insn i }

/-- A target stays until there is one; an operand that branches sets it. -/
theorem tryNew_target (op : RawOperand) (tgt : UInt64) :
    Address.tryNew (if (op.type = .near ∨ op.type = .far) ∧ tgt = badAddr then
        if op.type = .far then op.farEa else op.codeEa
      else tgt) = (Address.tryNew tgt).or (linearTarget op) := by
  by_cases htgt : tgt = badAddr
  · rw [Address.tryNew_eq_none.mpr htgt, Option.none_or, linearTarget]
    cases hop : op.type <;> simp [htgt, Address.tryNew_eq_none.mpr]
  · rw [if_neg (fun h => htgt h.2), Address.tryNew, dif_pos htgt, Option.some_or]

theorem classifyOps_written {slots : List ℕ} {ops out : List OperandData} {tgt tgt' : UInt64}
    (hroom : ops.length + slots.length ≤ maxOps)
    (h : classifyOps p insn slots ops tgt = .ok (out, tgt')) :
    (∃ written, out = ops ++ written ∧ List.Forall₂ (WrittenFor p insn)
        (slots.filter fun i => (insn.ops i).type ≠ .void) written) ∧
      Address.tryNew tgt' =
        (Address.tryNew tgt).or (slots.findSome? fun i => linearTarget (insn.ops i)) := by
  fun_induction classifyOps p insn slots ops tgt with
  | case1 ops tgt =>
      cases h
      exact ⟨⟨[], by simp, .nil⟩, by simp⟩
  | case2 i slots ops tgt hfull =>
      rw [List.length_cons] at hroom
      omega
  | case3 i slots ops tgt op hfull hvoid ih =>
      rw [List.length_cons] at hroom
      obtain ⟨⟨written, hout, hwritten⟩, htgt⟩ := ih (by omega) h
      have hnone : linearTarget (insn.ops i) = none := by
        simp [linearTarget, show (insn.ops i).type = .void from hvoid]
      refine ⟨⟨written, hout, ?_⟩, ?_⟩
      · rwa [List.filter_cons_of_neg (by simpa using hvoid)]
      · rw [htgt, List.findSome?_cons, hnone]
  | case4 => contradiction
  | case5 i slots ops tgt op hfull hvoid dst hop access tgt'' ih =>
      rw [List.length_cons] at hroom
      obtain ⟨⟨written, hout, hwritten⟩, htgt⟩ := ih (by simp; omega) h
      refine ⟨⟨{ dst with access } :: written, by simp [hout], ?_⟩, ?_⟩
      · rw [List.filter_cons_of_pos (by simpa using hvoid)]
        exact .cons ⟨dst, hop, rfl⟩ hwritten
      · rw [htgt, show tgt'' = _ from rfl, tryNew_target, List.findSome?_cons]
        cases linearTarget (insn.ops i) <;> simp

/-! ### The whole instruction -/

theorem flowOf_bits (insn : Insn) (hasTgt : Bool) :
    (flowOf insn hasTgt &&& 0x01 != 0) = insn.isCall ∧
      (flowOf insn hasTgt &&& 0x04 != 0) = (insn.isJcc || insn.isIndirectJump ||
        (hasTgt && insn.cfStop && !insn.isCall && !insn.isRet)) ∧
      (flowOf insn hasTgt &&& 0x08 != 0) = ((insn.isCall || (insn.isJcc || insn.isIndirectJump ||
        (hasTgt && insn.cfStop && !insn.isCall && !insn.isRet))) && !hasTgt) := by
  unfold flowOf
  generalize (insn.isJcc || insn.isIndirectJump ||
    (hasTgt && insn.cfStop && !insn.isCall && !insn.isRet)) = isJump
  cases insn.isCall <;> cases insn.isRet <;> cases insn.cfStop <;> cases isJump <;> cases hasTgt <;>
    decide

theorem classify_ok {data : InstructionData} {address : Address} {instruction : Instruction}
    (h : classify data address = .ok instruction) :
    data.status = 0 ∧ insnFromData data address = .ok instruction := by
  unfold classify at h
  split at h
  · exact ⟨by assumption, h⟩
  · split_ifs at h

structure WrittenInsn (p : Processor) (insn : Insn) (ops : List OperandData) (tgt : UInt64)
    (data : InstructionData) : Prop where
  ops : data.ops = ops
  target : data.target = tgt
  flow : data.flow = flowOf insn (tgt != badAddr)
  mask : data.mask = opmask p insn
  control : data.fpControl = (fpControl p insn).1

/-- No slot of an instruction that is decoded has been refused. -/
theorem decode_ok {address : Address} {instruction : Instruction}
    (hback : HandsBack p address insn) (h : decode p address = .ok instruction) :
    ∃ ops tgt data, classifyOps p insn (List.range procMaxop) [] badAddr = .ok (ops, tgt) ∧
      WrittenInsn p insn ops tgt data ∧ insnFromData data address = .ok instruction := by
  obtain ⟨hx86, hinsn⟩ := hback
  obtain ⟨hstatus, hdata⟩ := classify_ok h
  rw [decodeInsn, if_pos hx86, hinsn] at hstatus hdata
  cases hops : classifyOps p insn (List.range procMaxop) [] badAddr with
  | error e =>
      obtain ⟨status, slot, code⟩ := e
      simp only [hops] at hstatus
      obtain rfl | rfl := status_of_error hops <;> contradiction
  | ok out =>
      obtain ⟨ops, tgt⟩ := out
      simp only [hops] at hdata
      exact ⟨ops, tgt, _, rfl, ⟨rfl, rfl, rfl, rfl, rfl⟩, hdata⟩

theorem opmask_of_selectsMask (h : SelectsMask p insn) :
    opmask p insn = fillReg p (insn.ops procMaxop).reg.toNat rcMask
      (p.getDtypeSize (insn.ops procMaxop).dtype) := if_pos h

theorem opmask_of_not (h : ¬ SelectsMask p insn) : opmask p insn = noneReg := if_neg h

theorem fillReg_num (p : Processor) (number : UInt16) (cls : UInt8) (width : ℕ) :
    (fillReg p number.toNat cls width).num = number := by
  have hlt := number.toNat_lt
  have hmod : ((number.toNat : ℤ) % 2 ^ 16).toNat = number.toNat := by omega
  rw [fillReg, hmod, UInt16.ofNat_toNat]

/-- A mask is rebuilt under its number, which is none but that of a register
when the masks lie below the sentinel. -/
theorem register_opmask (hk7 : p.k7 < regNone.toNat) {mask : Option Register}
    (h : register (opmask p insn) = .ok mask) :
    (mask.isSome ↔ SelectsMask p insn) ∧
      ∀ r, mask = some r → r.number = (insn.ops procMaxop).reg := by
  by_cases hselects : SelectsMask p insn
  · obtain ⟨-, -, -, hle⟩ := id hselects
    rw [opmask_of_selectsMask hselects, register, fillReg_num, if_neg] at h
    · obtain ⟨class_, -, h⟩ := Outcome.bind_eq_ok_iff.mp h
      obtain rfl := Outcome.ok.inj h
      refine ⟨by simpa using hselects, fun r hr => ?_⟩
      rw [← Option.some.inj hr]
    · intro hnone
      rw [hnone] at hle
      omega
  · rw [opmask_of_not hselects] at h
    obtain rfl := Outcome.ok.inj h
    exact ⟨by simpa using hselects, by simp⟩

/-- Floating point is controlled in registers only. -/
theorem hasMem_of_fpControl (h : (fpControl p insn).1 ≠ fpcNone) : hasMem insn = false := by
  unfold fpControl at h
  split at h
  · rename_i hregisters
    simp only [Bool.and_eq_true, Bool.not_eq_true'] at hregisters
    exact hregisters.2
  · contradiction

/-- What addresses memory, in a slot, is seen by `hasMem`. -/
theorem hasMem_of_type {i : ℕ} (hi : i < procMaxop)
    (h : (insn.ops i).type = .mem ∨ (insn.ops i).type = .phrase ∨ (insn.ops i).type = .displ) :
    hasMem insn = true := by
  rw [hasMem, List.any_eq_true]
  refine ⟨i, List.mem_range.mpr hi, ?_⟩
  rcases h with h | h | h <;> rw [h] <;> rfl

/-- How an operand comes from its slot. -/
def ComesFrom (p : Processor) (insn : Insn) (address : Address) (i : ℕ) (o : Operand) : Prop :=
  ∃ written, WrittenFor p insn i written ∧ operand written address = .ok o

theorem ComesFrom.standsFor {address : Address} {i : ℕ} {o : Operand} (hi : i < procMaxop)
    (h : ComesFrom p insn address i o) : StandsFor insn i o := by
  obtain ⟨_, ⟨dst, hdst, rfl⟩, ho⟩ := h
  obtain ⟨hidx, hoffb, -⟩ := classifyOp_ok hdst
  obtain ⟨hslot, hbyteOffset, haccess, -⟩ := operand_ok ho
  refine ⟨?_, hbyteOffset.trans hoffb, ?_, ?_⟩
  · have hmax : procMaxop = 5 := rfl
    rw [hslot, hidx, UInt8.toNat_ofNat']
    omega
  · rw [haccess]
    exact accessBits_read insn i
  · rw [haccess]
    exact accessBits_written insn i

/-- An operand that addresses memory comes from a slot that does. -/
theorem ComesFrom.hasMem {address : Address} {i : ℕ} {o : Operand} (hi : i < procMaxop)
    (h : ComesFrom p insn address i o) {memory : Memory} (hmemory : o.kind = .memory memory) :
    hasMem insn = true := by
  obtain ⟨_, ⟨dst, hdst, rfl⟩, ho⟩ := h
  obtain ⟨-, -, -, hkind⟩ := operand_ok ho
  rw [hmemory] at hkind
  obtain ⟨-, -, htype⟩ := classifyOp_ok hdst
  exact hasMem_of_type hi (htype (kind_of_memory hkind))

theorem isSome_tryNew (tgt : UInt64) : (Address.tryNew tgt).isSome = (tgt != badAddr) := by
  by_cases htgt : tgt = badAddr <;> simp [Address.tryNew, htgt]

/-- An instruction that is decoded is the one that was handed back. -/
theorem decode_faithful (hk7 : p.k7 < regNone.toNat) {address : Address} {instruction : Instruction}
    (hback : HandsBack p address insn) (h : decode p address = .ok instruction) :
    Faithful p insn instruction := by
  obtain ⟨ops, tgt, data, hops, hdata, hinsn⟩ := decode_ok hback h
  obtain ⟨⟨_, rfl, hwritten⟩, htgt⟩ := classifyOps_written (by decide) hops
  rw [Address.tryNew_eq_none.mpr rfl, Option.none_or] at htgt
  obtain ⟨operands, hoperands, hinsn⟩ := Outcome.bind_eq_ok_iff.mp hinsn
  obtain ⟨mask, hmask, hinsn⟩ := Outcome.bind_eq_ok_iff.mp hinsn
  obtain ⟨control, hcontrol, hinsn⟩ := Outcome.bind_eq_ok_iff.mp hinsn
  obtain rfl := Outcome.ok.inj hinsn
  -- The facade writes what its slots say, and Rust reads what was written.
  rw [hdata.ops] at hoperands
  rw [hdata.mask] at hmask
  have hslots : ∀ i ∈ occupiedSlots insn, i < procMaxop := fun i hi =>
    List.mem_range.mp (List.mem_filter.mp hi).1
  have hcomes : List.Forall₂ (fun i o => i < procMaxop ∧ ComesFrom p insn address i o)
      (occupiedSlots insn) operands :=
    (List.forall₂_and_left _ _).mpr ⟨hslots, Outcome.collect_forall₂ hwritten hoperands⟩
  obtain ⟨hcall, hjump, hindirect⟩ := flowOf_bits insn (tgt != badAddr)
  obtain ⟨hmasked, hnumber⟩ := register_opmask hk7 hmask
  have htarget : Address.tryNew data.target = flowTarget insn := by rw [hdata.target, htgt]; rfl
  have hsome : (flowTarget insn).isSome = (tgt != badAddr) := by
    rw [← htarget, hdata.target, isSome_tryNew]
  rw [← hdata.flow] at hcall hjump hindirect
  rw [← hsome] at hjump hindirect
  constructor
  case operands => exact hcomes.imp fun i o h => h.2.standsFor h.1
  case target => exact htarget
  case calls => exact hcall
  case jumps => exact hjump
  case indirect =>
      show (data.flow &&& 0x08 != 0) = true ↔ ((data.flow &&& 0x01 != 0) = true ∨
        (data.flow &&& 0x04 != 0) = true) ∧ Address.tryNew data.target = none
      rw [hindirect, hcall, hjump, htarget]
      simp
  case masked => simpa using hmasked
  case maskRegister =>
      intro masking hmasking
      obtain ⟨r, hr, rfl⟩ := Option.map_eq_some_iff.mp hmasking
      exact hnumber r hr
  case exclusive =>
      intro control' hcontrol' o ho memory hmemory
      exfalso
      obtain rfl : control = some control' := hcontrol'
      obtain ⟨n, hn, rfl⟩ := List.getElem_of_mem ho
      obtain ⟨hi, hfrom⟩ := hcomes.get (hcomes.length_eq ▸ hn) hn
      -- Control bits are set only without a memory operand, whose slot would be this one.
      have hregisters : hasMem insn = false := by
        refine hasMem_of_fpControl (p := p) fun hnone => ?_
        rw [fpControlFromData, hdata.control, if_pos hnone] at hcontrol
        exact absurd (Outcome.ok.inj hcontrol) (Option.some_ne_none control').symm
      rw [hfrom.hasMem hi hmemory] at hregisters
      contradiction

/-- A masked instruction with an empty slot in front of a broadcast operand. -/
def maskedInsn : Insn where
  ea := 0x1000
  size := 6
  itype := 1
  ops := fun i =>
    if i = 0 then { flagBase with type := .reg, reg := 134 }
    else if i = 2 then { flagBase with baseReg := 0 }
    else if i = 5 then { flagBase with type := .reg, reg := 166 }
    else voidOperand
  canonMnem := some "vaddps".toList
  disasmLine := some "zmm1{k1}, [rax]{1to16}".toList
  hasUse i := i == 2
  hasChg i := i == 0
  cfStop := false
  ad64 := true
  ad32 := false
  evexpr := true
  evexZ := false
  evexB := true
  evexL := true
  vexL := false
  isCall := false
  isRet := false
  isIndirectJump := false
  isJcc := false

def maskedProcessor : Processor :=
  { flagBaseProcessor with decodeInsn := fun _ => some maskedInsn }

theorem decode_faithful_masked :
    ∃ instruction, decode maskedProcessor ⟨0x1000, by decide⟩ = .ok instruction ∧
      Faithful maskedProcessor maskedInsn instruction :=
  ⟨_, rfl, decode_faithful (by decide) ⟨rfl, rfl⟩ rfl⟩

end Idakit.Instructions
