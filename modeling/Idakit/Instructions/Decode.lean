import Idakit.Facade.Instruction
import Idakit.Library.Outcome

/-!
Instructions rebuilt from the data of the facade. What the facade cannot have
written ends in a panic, what the model does not cover in an error.

A register without a class is refused where it is an operand of its own. It is
not where it addresses memory, where a number relative to a class leaves the
class, or in the slot of the opmask; the first of these is a panic.
-/

namespace Idakit.Instructions

open Idakit.Library Idakit.Types Idakit.Decompiler Idakit.Facade

/-! ### Registers and operands -/

inductive RegisterClass
  | generalPurpose | segment | xmm | ymm | zmm | mask | st | mmx | control | debug | test | ip | bnd
  deriving DecidableEq

def registerClasses : List RegisterClass :=
  [.generalPurpose, .segment, .xmm, .ymm, .zmm, .mask, .st, .mmx, .control, .debug, .test, .ip,
    .bnd]

def RegisterClass.tryFrom (code : UInt8) : Option RegisterClass := registerClasses[code.toNat]?

structure Register where
  number : UInt16
  class_ : RegisterClass
  width : UInt8
  name : Text
  deriving DecidableEq

inductive OperandDataType
  | byte | word | dword | float | double | tbyte | packReal | qword | byte16 | code | void | fword
  | bitField | string | unicode | ldbl | byte32 | byte64 | half
  deriving DecidableEq

def operandDataTypes : List OperandDataType :=
  [.byte, .word, .dword, .float, .double, .tbyte, .packReal, .qword, .byte16, .code, .void, .fword,
    .bitField, .string, .unicode, .ldbl, .byte32, .byte64, .half]

def OperandDataType.tryFrom (code : UInt8) : Option OperandDataType :=
  operandDataTypes[code.toNat]?

inductive DecodeError
  | notCode (address : UInt64)
  | unsupportedProcessor
  | unsupportedOperand (address : UInt64) (slot operandType : UInt8)
  | unsupportedRegister (address : UInt64) (slot registerNumber : UInt8)
  | unsupportedDataType (address : UInt64) (slot dataType : UInt8)
  | malformedOperand (address : UInt64) (slot : UInt8) (reason : Text)
  deriving DecidableEq

structure Memory where
  base : Option Register
  index : Option Register
  scale : UInt8
  displacement : Int64
  segment : Option Register
  target : Option Address
  broadcast : Option UInt8
  deriving DecidableEq

inductive OperandKind
  | register (r : Register)
  | memory (m : Memory)
  | immediate (value : UInt64)
  | near (target : Address)
  | far (selector : UInt16) (offset : UInt64)
  deriving DecidableEq

structure Access where
  read : Bool
  written : Bool
  deriving DecidableEq

structure Operand where
  slot : UInt8
  byteOffset : UInt8
  kind : OperandKind
  dataType : OperandDataType
  access : Access
  deriving DecidableEq

/-- A slot, which may be empty. A class outside the enumeration is unreachable. -/
def register (r : RegisterData) : Outcome DecodeError (Option Register) :=
  if r.num = regNone then .ok none
  else (Outcome.expect (RegisterClass.tryFrom r.cls)).bind fun class_ =>
    .ok (some { number := r.num, class_, width := r.width, name := r.name })

def operandKind (o : OperandData) (address : Address) : Outcome DecodeError OperandKind :=
  if o.kind = opReg then
    (register o.reg).bind fun r =>
      (Outcome.okOr (.malformedOperand address.raw o.idx
        "register operand carries no register".toList) r).bind fun r => .ok (.register r)
  else if o.kind = opMem then
    (register o.base).bind fun base => (register o.index).bind fun index =>
      .ok (.memory
        { base, index
          scale := o.scale
          displacement := o.disp
          segment := none
          target := Address.tryNew o.addr
          broadcast := if o.broadcast ≠ 0 then some o.broadcast else none })
  else if o.kind = opImm then .ok (.immediate o.value)
  else if o.kind = opNear then
    (Outcome.okOr (.malformedOperand address.raw o.idx
      "near operand has no resolved target".toList) (Address.tryNew o.addr)).bind fun target =>
        .ok (.near target)
  else if o.kind = opFar then .ok (.far o.sel o.value)
  else .panic

def operand (o : OperandData) (address : Address) : Outcome DecodeError Operand :=
  (operandKind o address).bind fun kind =>
    (Outcome.okOr (.unsupportedDataType address.raw o.idx o.dataType)
      (OperandDataType.tryFrom o.dataType)).bind fun dataType =>
        .ok
          { slot := o.idx
            byteOffset := o.offb
            kind, dataType
            access := ⟨o.access &&& 1 != 0, o.access &&& 2 != 0⟩ }

/-! ### Instructions -/

inductive Isa
  | x86 | x64
  deriving DecidableEq

inductive RoundMode
  | nearest | down | up | zero
  deriving DecidableEq

def RoundMode.tryFrom (code : UInt8) : Option RoundMode :=
  [RoundMode.nearest, .down, .up, .zero][code.toNat]?

inductive FpControl
  | rounding (mode : RoundMode)
  | suppressExceptions
  deriving DecidableEq

structure Masking where
  register : Register
  zeroing : Bool
  deriving DecidableEq

structure Flow where
  isCall : Bool
  isRet : Bool
  isJump : Bool
  isIndirect : Bool
  stops : Bool
  target : Option Address
  deriving DecidableEq

structure Instruction where
  address : Address
  len : UInt8
  isa : Isa
  canonicalCode : UInt16
  mnemonic : Text
  ops : List Operand
  flow : Flow
  masking : Option Masking
  fpControl : Option FpControl
  deriving DecidableEq

def fpControlFromData (data : InstructionData) : Outcome DecodeError (Option FpControl) :=
  if data.fpControl = fpcNone then .ok none
  else if data.fpControl = fpcRounding then
    (Outcome.expect (RoundMode.tryFrom data.roundMode)).bind fun mode => .ok (some (.rounding mode))
  else if data.fpControl = fpcSae then .ok (some .suppressExceptions)
  else .panic

def insnFromData (data : InstructionData) (address : Address) : Outcome DecodeError Instruction :=
  (Outcome.collect (fun o => operand o address) data.ops).bind fun ops =>
    (register data.mask).bind fun mask =>
      (fpControlFromData data).bind fun fpControl =>
        .ok
          { address
            len := data.len
            isa := if data.isa = 1 then .x64 else .x86
            canonicalCode := data.itype
            mnemonic := data.mnemonic
            ops
            masking := mask.map fun register => ⟨register, data.zeroing != 0⟩
            fpControl
            flow :=
              { isCall := data.flow &&& 0x01 != 0
                isRet := data.flow &&& 0x02 != 0
                isJump := data.flow &&& 0x04 != 0
                isIndirect := data.flow &&& 0x08 != 0
                stops := data.flow &&& 0x10 != 0
                target := Address.tryNew data.target } }

def classify (data : InstructionData) (address : Address) : Outcome DecodeError Instruction :=
  if data.status = 0 then insnFromData data address
  else if data.status = -2 then .err .unsupportedProcessor
  else if data.status = -3 then .err (.unsupportedOperand address.raw data.errOp data.errOptype)
  else if data.status = -4 then .err (.unsupportedRegister address.raw data.errOp data.errOptype)
  else .err (.notCode address.raw)

def decode (p : Processor) (address : Address) : Outcome DecodeError Instruction :=
  classify (decodeInsn p address.raw) address

end Idakit.Instructions
