import Idakit.Decompiler.Ctree.Node
import Mathlib.Algebra.Group.Int.Defs

/-!
One instruction of the processor module, folded into the data that crosses to
Rust. Registers are classified by their number, and a number without a class
has a code of its own, which no operand of a register may carry.
-/

namespace Idakit.Facade

open Idakit.Types Idakit.Decompiler

/-! ### The processor module -/

/-- The types of raw operands; every other code is none of the module's. -/
inductive OpType
  | void | reg | mem | phrase | displ | imm | far | near
  | trreg | dbreg | crreg | fpreg | mmxreg | xmmreg | ymmreg | zmmreg | kreg
  | other (code : UInt8)
  deriving DecidableEq

structure RawOperand where
  type : OpType
  reg : UInt16
  offb : UInt8
  dtype : UInt8
  addr : UInt64
  value : UInt64
  segsel : UInt16
  specflag1 : UInt8
  baseReg : ℤ
  indexReg : ℤ
  scale : ℕ
  dataEa : UInt64
  codeEa : UInt64
  farEa : UInt64

structure Insn where
  ea : UInt64
  size : UInt16
  itype : UInt16
  ops : ℕ → RawOperand
  canonMnem : Option Text
  disasmLine : Option Text
  hasUse : ℕ → Bool
  hasChg : ℕ → Bool
  cfStop : Bool
  ad64 : Bool
  ad32 : Bool
  evexpr : Bool
  evexZ : Bool
  evexB : Bool
  evexL : Bool
  vexL : Bool
  isCall : Bool
  isRet : Bool
  isIndirectJump : Bool
  isJcc : Bool

structure Processor where
  /-- It is the one for x86. -/
  is386 : Bool
  is64bit : Bool
  none : ℤ
  ax : ℤ
  r15 : ℤ
  dil : ℤ
  ip : ℤ
  isSegreg : ℤ → Bool
  st0 : ℤ
  st7 : ℤ
  mm0 : ℤ
  mm7 : ℤ
  xmm0 : ℤ
  xmm15 : ℤ
  xmm16 : ℤ
  xmm31 : ℤ
  ymm0 : ℤ
  ymm15 : ℤ
  ymm16 : ℤ
  ymm31 : ℤ
  zmm0 : ℤ
  zmm31 : ℤ
  k0 : ℤ
  k7 : ℤ
  bnd0 : ℤ
  bnd3 : ℤ
  getRegName : ℤ → ℕ → Option Text
  regNames : ℤ → Option Text
  getDtypeSize : UInt8 → ℕ
  isRoundingCapable : UInt16 → Bool
  decodeInsn : UInt64 → Option Insn

/-- `PROC_MAXOP`; the slot behind holds the opmask. -/
def procMaxop : ℕ := 5

def maxOps : ℕ := 8

/-! ### The data that crosses -/

structure RegisterData where
  num : UInt16
  cls : UInt8
  width : UInt8
  name : Text
  deriving DecidableEq

structure OperandData where
  kind : UInt8
  idx : UInt8
  offb : UInt8
  dataType : UInt8
  access : UInt8
  scale : UInt8
  reg : RegisterData
  base : RegisterData
  index : RegisterData
  disp : Int64
  value : UInt64
  addr : UInt64
  sel : UInt16
  broadcast : UInt8
  deriving DecidableEq

structure InstructionData where
  status : Int32
  errOp : UInt8
  errOptype : UInt8
  address : UInt64
  target : UInt64
  itype : UInt16
  len : UInt8
  isa : UInt8
  nops : UInt8
  flow : UInt8
  mnemonic : Text
  ops : List OperandData
  mask : RegisterData
  zeroing : UInt8
  fpControl : UInt8
  roundMode : UInt8
  deriving DecidableEq

def regNone : UInt16 := 0xFFFF

def opReg : UInt8 := 0
def opMem : UInt8 := 1
def opImm : UInt8 := 2
def opNear : UInt8 := 3
def opFar : UInt8 := 4

def fpcNone : UInt8 := 0
def fpcRounding : UInt8 := 1
def fpcSae : UInt8 := 2

def rcGpr : UInt8 := 0
def rcSegment : UInt8 := 1
def rcXmm : UInt8 := 2
def rcYmm : UInt8 := 3
def rcZmm : UInt8 := 4
def rcMask : UInt8 := 5
def rcSt : UInt8 := 6
def rcMmx : UInt8 := 7
def rcControl : UInt8 := 8
def rcDebug : UInt8 := 9
def rcTest : UInt8 := 10
def rcIp : UInt8 := 11
def rcBnd : UInt8 := 12

/-- The code of a register without a class. -/
def rcBad : UInt8 := 0xFF

def RegisterData.zero : RegisterData := ⟨0, 0, 0, []⟩

def noneReg : RegisterData := ⟨regNone, rcGpr, 0, []⟩

/-! ### Registers -/

section

variable (p : Processor)

def regClassOf (r : ℤ) : UInt8 :=
  if p.ax ≤ r ∧ r ≤ p.dil then rcGpr
  else if r = p.ip then rcIp
  else if p.isSegreg r then rcSegment
  else if p.st0 ≤ r ∧ r ≤ p.st7 then rcSt
  else if p.mm0 ≤ r ∧ r ≤ p.mm7 then rcMmx
  else if (p.xmm0 ≤ r ∧ r ≤ p.xmm15) ∨ (p.xmm16 ≤ r ∧ r ≤ p.xmm31) then rcXmm
  else if (p.ymm0 ≤ r ∧ r ≤ p.ymm15) ∨ (p.ymm16 ≤ r ∧ r ≤ p.ymm31) then rcYmm
  else if p.zmm0 ≤ r ∧ r ≤ p.zmm31 then rcZmm
  else if p.k0 ≤ r ∧ r ≤ p.k7 then rcMask
  else if p.bnd0 ≤ r ∧ r ≤ p.bnd3 then rcBnd
  else rcBad

def fillReg (num : ℤ) (cls : UInt8) (width : ℕ) : RegisterData where
  num := .ofNat (num % 2 ^ 16).toNat
  cls := cls
  width := .ofNat width
  name :=
    if (p.ax ≤ num ∧ num ≤ p.r15) ∨ num = p.ip then
      (p.getRegName num (if width > 0 then width else 8)).getD []
    else (p.regNames num).getD []

/-- A control, debug or test register, which only the module's output knows. -/
def fillSpecialReg (letter : Char) (index : UInt16) (cls : UInt8) (dSuffix : Bool) :
    RegisterData where
  num := index
  cls := cls
  width := 0
  name := letter :: 'r' :: Nat.toDigits 10 index.toNat ++ if dSuffix then ['d'] else []

/-! ### Operands -/

def addrWidth (insn : Insn) : ℕ := if insn.ad64 then 8 else if insn.ad32 then 4 else 2

/-- What stands behind the first `{1to` of a line. -/
def afterOneTo : Text → Option Text
  | [] => none
  | c :: line =>
      if "\x7b1to".toList.isPrefixOf (c :: line) then some ((c :: line).drop 4) else afterOneTo line

def broadcastOf (insn : Insn) : UInt8 :=
  if insn.evexpr && insn.evexB then
    match insn.disasmLine.bind afterOneTo with
    | some rest =>
        .ofNat ((rest.takeWhile Char.isDigit).foldl (fun (factor : UInt32) c =>
          factor * 10 + .ofNat (c.toNat - '0'.toNat)) 0).toNat
    | none => 0
  else 0

def blankOperand (op : RawOperand) (idx : ℕ) : OperandData where
  kind := 0
  idx := .ofNat idx
  offb := op.offb
  dataType := op.dtype
  access := 0
  scale := 0
  reg := noneReg
  base := noneReg
  index := noneReg
  disp := 0
  value := 0
  addr := 0
  sel := 0
  broadcast := 0

def addressReg (insn : Insn) (r : ℤ) : RegisterData :=
  if r ≠ p.none then fillReg p r (regClassOf p r) (addrWidth insn) else noneReg

def fillMem (insn : Insn) (op : RawOperand) (dst : OperandData) : OperandData :=
  { dst with
    kind := opMem
    base := addressReg p insn op.baseReg
    index := addressReg p insn op.indexReg
    scale := .ofNat (1 <<< op.scale)
    disp := if op.type = .phrase then 0 else op.addr.toInt64
    addr := if op.type = .mem then op.dataEa else badAddr
    broadcast := broadcastOf insn }

/-- The operand, or the status and the code that it is refused with. -/
def classifyOp (insn : Insn) (op : RawOperand) (idx : ℕ) : Except (Int32 × UInt8) OperandData :=
  let dst := blankOperand op idx
  let regOperand (num : ℤ) (cls : UInt8) : OperandData :=
    { dst with kind := opReg, reg := fillReg p num cls (p.getDtypeSize op.dtype) }
  let special (letter : Char) (cls : UInt8) (dSuffix : Bool) : OperandData :=
    { dst with kind := opReg, reg := fillSpecialReg letter op.reg cls dSuffix }
  match op.type with
  | .reg =>
      if regClassOf p op.reg.toNat = rcBad then .error (-4, op.reg.toUInt8)
      else .ok (regOperand op.reg.toNat (regClassOf p op.reg.toNat))
  -- A number relative to its class; the class goes with the operand type.
  | .fpreg => .ok (regOperand (p.st0 + op.reg.toNat) rcSt)
  | .mmxreg => .ok (regOperand (p.mm0 + op.reg.toNat) rcMmx)
  | .xmmreg => .ok (regOperand (p.xmm0 + op.reg.toNat) rcXmm)
  | .ymmreg => .ok (regOperand (p.ymm0 + op.reg.toNat) rcYmm)
  | .zmmreg => .ok (regOperand (p.zmm0 + op.reg.toNat) rcZmm)
  | .kreg => .ok (regOperand (p.k0 + op.reg.toNat) rcMask)
  | .crreg => .ok (special 'c' rcControl (op.specflag1 != 0))
  | .dbreg => .ok (special 'd' rcDebug false)
  | .trreg => .ok (special 't' rcTest false)
  | .mem | .phrase | .displ => .ok (fillMem p insn op dst)
  | .imm => .ok { dst with kind := opImm, value := op.value }
  | .near => .ok { dst with kind := opNear, addr := op.codeEa }
  | .far => .ok { dst with kind := opFar, value := op.addr, sel := op.segsel }
  | .void => .error (-3, 0)
  | .other code => .error (-3, code)

/-- The operands of the slots from one on, and the target of the first
branch; or the slot that is refused, with its status and code. -/
def classifyOps (insn : Insn) :
    List ℕ → List OperandData → UInt64 → Except (Int32 × UInt8 × UInt8) (List OperandData × UInt64)
  | [], ops, tgt => .ok (ops, tgt)
  | i :: slots, ops, tgt =>
      let op := insn.ops i
      if ops.length ≥ maxOps then .ok (ops, tgt)
      else if op.type = .void then classifyOps insn slots ops tgt
      else
        match classifyOp p insn op i with
        | .error (status, code) => .error (status, .ofNat i, code)
        | .ok dst =>
            let access : UInt8 := (if insn.hasUse i then 1 else 0) ||| if insn.hasChg i then 2 else 0
            let tgt :=
              if (op.type = .near ∨ op.type = .far) ∧ tgt = badAddr then
                if op.type = .far then op.farEa else op.codeEa
              else tgt
            classifyOps insn slots (ops ++ [{ dst with access }]) tgt

/-! ### The instruction -/

def opmask (insn : Insn) : RegisterData :=
  let op6 := insn.ops procMaxop
  if insn.evexpr ∧ op6.type = .reg ∧ p.k0 < op6.reg.toNat ∧ op6.reg.toNat ≤ p.k7 then
    fillReg p op6.reg.toNat rcMask (p.getDtypeSize op6.dtype)
  else noneReg

def hasMem (insn : Insn) : Bool :=
  (List.range procMaxop).any fun i =>
    (insn.ops i).type == .mem || (insn.ops i).type == .phrase || (insn.ops i).type == .displ

def fpControl (insn : Insn) : UInt8 × UInt8 :=
  if insn.evexpr && insn.evexB && !hasMem insn then
    if p.isRoundingCapable insn.itype then
      (fpcRounding, (if insn.evexL then 2 else 0) ||| if insn.vexL then 1 else 0)
    else (fpcSae, 0)
  else (fpcNone, 0)

def flowOf (insn : Insn) (hasTgt : Bool) : UInt8 :=
  let isJump := insn.isJcc || insn.isIndirectJump ||
    (hasTgt && insn.cfStop && !insn.isCall && !insn.isRet)
  let indirect := (insn.isCall || isJump) && !hasTgt
  (if insn.isCall then 0x01 else 0) ||| (if insn.isRet then 0x02 else 0) |||
    (if isJump then 0x04 else 0) ||| (if indirect then 0x08 else 0) |||
    if insn.cfStop then 0x10 else 0

def blankInstruction (addr : UInt64) : InstructionData where
  status := 0
  errOp := 0
  errOptype := 0
  address := addr
  target := badAddr
  itype := 0
  len := 0
  isa := 0
  nops := 0
  flow := 0
  mnemonic := []
  ops := []
  mask := .zero
  zeroing := 0
  fpControl := 0
  roundMode := 0

def decodeInsn (addr : UInt64) : InstructionData :=
  if p.is386 then
    match p.decodeInsn addr with
    | none => { blankInstruction addr with status := -1 }
    | some insn =>
        let out :=
          { blankInstruction insn.ea with
            len := .ofNat insn.size.toNat
            isa := if p.is64bit then 1 else 0
            itype := insn.itype
            mnemonic := insn.canonMnem.getD [] }
        match classifyOps p insn (List.range procMaxop) [] badAddr with
        | .error (status, slot, code) => { out with status, errOp := slot, errOptype := code }
        | .ok (ops, tgt) =>
            { out with
              nops := .ofNat ops.length
              mask := opmask p insn
              zeroing := if insn.evexpr && insn.evexZ then 1 else 0
              fpControl := (fpControl p insn).1
              roundMode := (fpControl p insn).2
              flow := flowOf insn (tgt != badAddr)
              target := tgt
              ops }
  else { blankInstruction addr with status := -2 }

end

end Idakit.Facade
