import Idakit.Types.Table

/-!
The nodes of a decompiled function's tree. Operators are grouped, and carry
the raw tags of the decompiler. A kind is generic in what stands for its
children: handles into the arenas here, whole trees where a tree is read.

Sixty-four-bit payloads that can be the invalid address are machine integers;
a floating-point literal is the bits of its double.
-/

namespace Idakit.Decompiler

open Idakit.Types

/-! ### Addresses -/

def badAddr : UInt64 := 0xffffffffffffffff

structure Address where
  raw : UInt64
  valid : raw ≠ badAddr
  deriving DecidableEq

def Address.tryNew (raw : UInt64) : Option Address :=
  if h : raw ≠ badAddr then some ⟨raw, h⟩ else none

theorem Address.tryNew_eq_none {raw : UInt64} : Address.tryNew raw = none ↔ raw = badAddr := by
  simp [Address.tryNew]

theorem Address.tryNew_eq_some {raw : UInt64} {address : Address}
    (h : Address.tryNew raw = some address) : ∃ hne : raw ≠ badAddr, ⟨raw, hne⟩ = address := by
  unfold Address.tryNew at h
  split at h
  · rename_i hne
    exact ⟨hne, Option.some.inj h⟩
  · contradiction

/-! ### Operators -/

/-- `x OP y`; the tags are 1 and 17 to 45. -/
inductive BinaryOp
  | comma | logOr | logAnd | bitOr | bitXor | bitAnd | eq | ne | sge | uge | sle | ule
  | sgt | ugt | slt | ult | sshr | ushr | shl | add | sub | mul | sdiv | udiv | smod | umod
  | fadd | fsub | fmul | fdiv
  deriving DecidableEq

/-- `x OP= y`; the tags are 2 to 15. -/
inductive AssignmentOp
  | assign | bitOrAssign | bitXorAssign | bitAndAssign | addAssign | subAssign | mulAssign
  | sshrAssign | ushrAssign | shlAssign | sdivAssign | udivAssign | smodAssign | umodAssign
  deriving DecidableEq

/-- `OP x`, or `x OP` for the two that stand behind. -/
inductive UnaryOp
  | fNeg | neg | logNot | bitNot | ref | postInc | postDec | preInc | preDec
  deriving DecidableEq

def BinaryOp.tryFrom : ℕ → Option BinaryOp
  | 1 => some .comma
  | 17 => some .logOr
  | 18 => some .logAnd
  | 19 => some .bitOr
  | 20 => some .bitXor
  | 21 => some .bitAnd
  | 22 => some .eq
  | 23 => some .ne
  | 24 => some .sge
  | 25 => some .uge
  | 26 => some .sle
  | 27 => some .ule
  | 28 => some .sgt
  | 29 => some .ugt
  | 30 => some .slt
  | 31 => some .ult
  | 32 => some .sshr
  | 33 => some .ushr
  | 34 => some .shl
  | 35 => some .add
  | 36 => some .sub
  | 37 => some .mul
  | 38 => some .sdiv
  | 39 => some .udiv
  | 40 => some .smod
  | 41 => some .umod
  | 42 => some .fadd
  | 43 => some .fsub
  | 44 => some .fmul
  | 45 => some .fdiv
  | _ => none

def AssignmentOp.tryFrom : ℕ → Option AssignmentOp
  | 2 => some .assign
  | 3 => some .bitOrAssign
  | 4 => some .bitXorAssign
  | 5 => some .bitAndAssign
  | 6 => some .addAssign
  | 7 => some .subAssign
  | 8 => some .mulAssign
  | 9 => some .sshrAssign
  | 10 => some .ushrAssign
  | 11 => some .shlAssign
  | 12 => some .sdivAssign
  | 13 => some .udivAssign
  | 14 => some .smodAssign
  | 15 => some .umodAssign
  | _ => none

def UnaryOp.tryFrom : ℕ → Option UnaryOp
  | 46 => some .fNeg
  | 47 => some .neg
  | 49 => some .logNot
  | 50 => some .bitNot
  | 52 => some .ref
  | 53 => some .postInc
  | 54 => some .postDec
  | 55 => some .preInc
  | 56 => some .preDec
  | _ => none

/-! ### Expressions -/

abbrev ExpressionId := ℕ

abbrev StatementId := ℕ

abbrev LocalId := ℕ

inductive ExpressionKind (ε : Type)
  | binary (op : BinaryOp) (x y : ε)
  | assign (op : AssignmentOp) (x y : ε)
  | unary (op : UnaryOp) (x : ε)
  | ternary (cond then_ else_ : ε)
  | call (callee : ε) (args : List ε)
  | index (array index : ε)
  | memberRef (obj : ε) (byteOffset : ℕ)
  | memberPtr (obj : ε) (byteOffset : ℕ)
  /-- The target type is the type of the node. -/
  | cast (x : ε)
  | deref (x : ε) (size : ℕ)
  | sizeof (x : ε)
  | num (value : UInt64)
  | fnum (bits : UInt64)
  | str (s : Text)
  | obj (address : Address) (name : Option Text)
  | var (v : LocalId)
  | helper (s : Text)
  | typeExpression
  | empty
  /-- A statement inside an expression, which a finalized tree never has. -/
  | internal
  deriving DecidableEq

def ExpressionKind.children {ε : Type} : ExpressionKind ε → List ε
  | .binary _ x y | .assign _ x y => [x, y]
  | .index array i => [array, i]
  | .unary _ x | .cast x | .deref x _ | .sizeof x => [x]
  | .memberRef x _ | .memberPtr x _ => [x]
  | .ternary cond then_ else_ => [cond, then_, else_]
  | .call callee args => callee :: args
  | .num _ | .fnum _ | .str _ | .obj _ _ | .var _ | .helper _ | .typeExpression | .empty
  | .internal => []

/-! ### Statements -/

/-- One `case` of a `switch`; without values it is the default. -/
structure Case (σ : Type) where
  values : List UInt64
  body : σ
  deriving DecidableEq

inductive StatementKind (ε σ : Type)
  | block (statements : List σ)
  | expression (e : ε)
  | if_ (cond : ε) (then_ : σ) (else_ : Option σ)
  | for_ (init cond step : Option ε) (body : σ)
  | while_ (cond : ε) (body : σ)
  | do_ (body : σ) (cond : ε)
  | switch (expression : ε) (cases : List (Case σ))
  | break_
  | continue_
  | return_ (e : Option ε)
  | goto (label : Int32)
  | asm (addrs : List Address)
  | try_ (body : σ) (catches : List σ)
  | throw (e : Option ε)
  | empty
  deriving DecidableEq

inductive Child (ε σ : Type)
  | expression (e : ε)
  | statement (s : σ)
  deriving DecidableEq

def StatementKind.children {ε σ : Type} : StatementKind ε σ → List (Child ε σ)
  | .block statements => statements.map .statement
  | .expression e => [.expression e]
  | .if_ cond then_ else_ =>
      .expression cond :: .statement then_ :: else_.toList.map .statement
  | .for_ init cond step body =>
      init.toList.map .expression ++ cond.toList.map .expression ++
        step.toList.map .expression ++ [.statement body]
  | .while_ cond body => [.expression cond, .statement body]
  | .do_ body cond => [.statement body, .expression cond]
  | .switch e cases => .expression e :: cases.map fun c => .statement c.body
  | .return_ e | .throw e => e.toList.map .expression
  | .try_ body catches => .statement body :: catches.map .statement
  | .break_ | .continue_ | .goto _ | .asm _ | .empty => []

/-! ### Nodes and locals -/

abbrev NodeRef := Child ExpressionId StatementId

structure ExpressionNode where
  /-- `none` for a synthetic node. -/
  address : Option Address
  ty : TypeId
  parent : Option NodeRef
  kind : ExpressionKind ExpressionId
  deriving DecidableEq

structure StatementNode where
  address : Option Address
  parent : Option NodeRef
  kind : StatementKind ExpressionId StatementId
  deriving DecidableEq

structure LocationPiece (ℓ : Type) where
  location : ℓ
  offset : UInt32
  size : UInt32

inductive LocalLocation
  | register (reg : UInt32)
  | registerPair (low high : UInt32)
  | stack (offset : Int64)
  | registerRelative (reg : UInt32) (offset : Int64)
  | static (address : Address)
  | scattered (pieces : List (LocationPiece LocalLocation))
  | custom
  | unallocated

structure Local where
  name : Text
  ty : TypeId
  isArg : Bool
  isResult : Bool
  isByref : Bool
  width : UInt32
  comment : Option Text
  location : LocalLocation

end Idakit.Decompiler
