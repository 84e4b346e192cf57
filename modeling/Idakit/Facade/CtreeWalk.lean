import Idakit.Facade.TypeWalk
import Idakit.Decompiler.Ctree.Callbacks

/-!
The walk of a decompiled function's tree into the builder's callbacks. The
local table is walked first, then the body, depth first: the type of a node
before its operands, its operands before the node itself, so that a callback
is passed the handles that the callbacks of its operands returned. The types
go to one walk of types that lasts as long as the walk of the tree.

`none` stands for a callback that panics, for a walk of types that is out of
fuel, or for an operand that the operator uses and that is not there.
-/

namespace Idakit.Facade

open Idakit.Types Idakit.Decompiler

/-! ### What the decompiler holds -/

/-- An expression, over type descriptors `τ`. A number is its value at its
type; an argument list that is not there is empty. -/
inductive Cexpr (τ : Type)
  | num (ea : UInt64) (type : τ) (value : UInt64)
  | fnum (ea : UInt64) (type : τ) (bits : UInt64)
  | obj (ea : UInt64) (type : τ) (objEa : UInt64)
  | var (ea : UInt64) (type : τ) (idx : Int32)
  | str (ea : UInt64) (type : τ) (string : Option Name)
  | helper (ea : UInt64) (type : τ) (helper : Option Name)
  | ptr (ea : UInt64) (type : τ) (x : Cexpr τ) (ptrsize : Int32)
  | memref (ea : UInt64) (type : τ) (x : Cexpr τ) (m : UInt32)
  | memptr (ea : UInt64) (type : τ) (x : Cexpr τ) (m : UInt32)
  | call (ea : UInt64) (type : τ) (x : Cexpr τ) (a : List (Cexpr τ))
  /-- Every other operator, by its tag. -/
  | op (ea : UInt64) (type : τ) (op : UInt32) (x y z : Option (Cexpr τ))

inductive Cinsn (τ : Type)
  | block (ea : UInt64) (list : List (Cinsn τ))
  | expr (ea : UInt64) (cexpr : Cexpr τ)
  | if_ (ea : UInt64) (expr : Cexpr τ) (ithen : Cinsn τ) (ielse : Option (Cinsn τ))
  | for_ (ea : UInt64) (init expr step : Cexpr τ) (body : Cinsn τ)
  | while_ (ea : UInt64) (expr : Cexpr τ) (body : Cinsn τ)
  | do_ (ea : UInt64) (body : Cinsn τ) (expr : Cexpr τ)
  | switch (ea : UInt64) (expr : Cexpr τ) (cases : List (Case (Cinsn τ)))
  | return_ (ea : UInt64) (expr : Cexpr τ)
  | goto (ea : UInt64) (labelNum : Int32)
  | asm (ea : UInt64) (addrs : List UInt64)
  | throw (ea : UInt64) (expr : Cexpr τ)
  | try_ (ea : UInt64) (body : List (Cinsn τ)) (catchs : List (List (Cinsn τ)))
  | break_ (ea : UInt64)
  | continue_ (ea : UInt64)
  | empty (ea : UInt64)
  /-- A kind of statement that the facade does not model. -/
  | other (ea : UInt64)

inductive ArgpartLocation
  | reg1 (reg : UInt32)
  | stkoff (off : Int64)
  | ea (ea : UInt64)
  | other (atype : { n : UInt32 // n ≠ 1 ∧ n ≠ 3 ∧ n ≠ 6 })

structure Argpart where
  location : ArgpartLocation
  off : UInt32
  size : UInt32

inductive Vdloc
  | none
  | stack (stkoff : Int64)
  | dist (scattered : List Argpart)
  | reg1 (reg : UInt32)
  | reg2 (reg1 reg2 : UInt32)
  | rrel (reg : UInt32) (off : Int64)
  | static (ea : UInt64)
  | custom (atype : { n : UInt32 // 7 ≤ n })

structure Clvar (τ : Type) where
  name : Name
  tif : τ
  isArgVar : Bool
  isResultVar : Bool
  isUsedByref : Bool
  width : UInt32
  cmt : Name
  location : Vdloc

structure Cfunc (τ : Type) where
  lvars : List (Clvar τ)
  body : Cinsn τ

structure CtreeSdk where
  opUsesX : UInt32 → Bool
  opUsesY : UInt32 → Bool
  opUsesZ : UInt32 → Bool
  /-- Empty where an address has no name. -/
  getName : UInt64 → Name

/-! ### The walk -/

structure WalkerState where
  nodes : CallbackBuilder
  defined : List Name
  calls : List SinkCall

def WalkerState.start : WalkerState := ⟨.new, [], []⟩

def WalkerState.types (s : WalkerState) : WalkState := ⟨s.nodes.b.types, s.defined, s.calls⟩

def WalkerState.withTypes (s : WalkerState) (w : WalkState) : WalkerState :=
  ⟨{ s.nodes with b := { s.nodes.b with types := w.builder } }, w.defined, w.calls⟩

abbrev Walker := StateT WalkerState Option

def emit (c : NodeCall) : Walker ℕ := fun s =>
  (CallbackBuilder.node c s.nodes).map fun p => (p.1, { s with nodes := p.2 })

def emitLvar (l : Lvar) : Walker Unit := fun s =>
  (CallbackBuilder.lvar l s.nodes).map fun p => ((), { s with nodes := p.2 })

def Cexpr.isEmpty {τ : Type} : Cexpr τ → Bool
  | .op _ _ tag _ _ _ => tag == 0
  | _ => false

def ArgpartLocation.atype : ArgpartLocation → UInt32
  | .reg1 _ => 3
  | .stkoff _ => 1
  | .ea _ => 6
  | .other atype => atype

/-- A fragment as it crosses; only the field of its kind is filled in. -/
def Argpart.piece (p : Argpart) : LocPiece where
  atype := p.location.atype
  reg := match p.location with
    | .reg1 reg => reg
    | _ => 0
  sval := match p.location with
    | .stkoff off => off
    | .ea ea => ea.toInt64
    | _ => 0
  off := p.off
  size := p.size

def Vdloc.atype : Vdloc → UInt32
  | .none => 0
  | .stack _ => 1
  | .dist _ => 2
  | .reg1 _ => 3
  | .reg2 _ _ => 4
  | .rrel _ _ => 5
  | .static _ => 6
  | .custom atype => atype

/-- The flags of a local: an argument, the return value, used by reference. -/
def Clvar.flags {τ : Type} (l : Clvar τ) : UInt32 :=
  (if l.isArgVar then 1 else 0) ||| (if l.isResultVar then 2 else 0) |||
    (if l.isUsedByref then 4 else 0)

def Clvar.toLvar {τ : Type} (lossy : Name → Text) (l : Clvar τ) (ty : TypeId) : Lvar where
  name := lossy l.name
  ty
  flags := l.flags
  width := l.width
  comment := lossy l.cmt
  atype := l.location.atype
  reg1 := match l.location with
    | .reg1 reg | .reg2 reg _ | .rrel reg _ => reg
    | _ => 0
  reg2 := match l.location with
    | .reg2 _ reg => reg
    | _ => 0
  sval := match l.location with
    | .stack off | .rrel _ off => off
    | .static ea => ea.toInt64
    | _ => 0
  pieces := match l.location with
    | .dist scattered => scattered.map Argpart.piece
    | _ => []

namespace Walker

section

variable {τ : Type} (sdk : Sdk τ) (ctree : CtreeSdk) (fuel : ℕ)

def type (t : τ) : Walker TypeId := fun s =>
  (ty sdk fuel t s.types).map fun p => (p.1, s.withTypes p.2)

mutual

def expr : Cexpr τ → Walker ℕ
  | .num ea type value => do
      let t ← Walker.type sdk fuel type
      emit (.eNum ea value t)
  | .fnum ea type bits => do
      let t ← Walker.type sdk fuel type
      emit (.eFnum ea bits t)
  | .obj ea type objEa => do
      let t ← Walker.type sdk fuel type
      emit (.eObj ea objEa (sdk.lossy (ctree.getName objEa)) t)
  | .var ea type idx => do
      let t ← Walker.type sdk fuel type
      emit (.eVar ea idx.toUInt32.toNat t)
  | .str ea type string => do
      let t ← Walker.type sdk fuel type
      emit (.eStr ea (sdk.lossy (string.getD [])) t)
  | .helper ea type helper => do
      let t ← Walker.type sdk fuel type
      emit (.eHelper ea (sdk.lossy (helper.getD [])) t)
  | .ptr ea type x ptrsize => do
      let t ← Walker.type sdk fuel type
      let x ← expr x
      emit (.eDeref ea x ptrsize.toUInt32.toNat t)
  | .memref ea type x m => do
      let t ← Walker.type sdk fuel type
      let x ← expr x
      emit (.eMemref ea x m.toNat t)
  | .memptr ea type x m => do
      let t ← Walker.type sdk fuel type
      let x ← expr x
      emit (.eMemptr ea x m.toNat t)
  | .call ea type x a => do
      let t ← Walker.type sdk fuel type
      let callee ← expr x
      let args ← exprs a
      emit (.eCall ea callee args t)
  | .op ea type op x y z => do
      let t ← Walker.type sdk fuel type
      let x ← operand (ctree.opUsesX op) x
      let y ← operand (ctree.opUsesY op) y
      let z ← operand (ctree.opUsesZ op) z
      emit (.eOp ea op.toNat x y z t)

/-- An operand, if the operator uses it. -/
def operand (uses : Bool) : Option (Cexpr τ) → Walker ℕ
  | some e => if uses then expr e else pure noHandle
  | none => if uses then fun _ => none else pure noHandle

def exprs : List (Cexpr τ) → Walker (List ℕ)
  | [] => pure []
  | e :: es => do
      let id ← expr e
      let ids ← exprs es
      return id :: ids

end

/-- An optional expression: the empty one is absent. -/
def optExpr (e : Cexpr τ) : Walker ℕ :=
  if e.isEmpty then pure noHandle else expr sdk ctree fuel e

def block (ea : UInt64) (list : Walker (List ℕ)) : Walker ℕ := do
  let kids ← list
  emit (.sBlock ea kids)

mutual

def stmt : Cinsn τ → Walker ℕ
  | .block ea list => block ea (stmts list)
  | .expr ea cexpr => do
      let e ← expr sdk ctree fuel cexpr
      emit (.sExpr ea e)
  | .if_ ea e ithen none => do
      let cond ← expr sdk ctree fuel e
      let thenBranch ← stmt ithen
      emit (.sIf ea cond thenBranch noHandle)
  | .if_ ea e ithen (some ielse) => do
      let cond ← expr sdk ctree fuel e
      let thenBranch ← stmt ithen
      let elseBranch ← stmt ielse
      emit (.sIf ea cond thenBranch elseBranch)
  | .for_ ea init e step body => do
      let init ← optExpr sdk ctree fuel init
      let cond ← optExpr sdk ctree fuel e
      let step ← optExpr sdk ctree fuel step
      let body ← stmt body
      emit (.sFor ea init cond step body)
  | .while_ ea e body => do
      let cond ← expr sdk ctree fuel e
      let body ← stmt body
      emit (.sWhile ea cond body)
  | .do_ ea body e => do
      let body ← stmt body
      let cond ← expr sdk ctree fuel e
      emit (.sDo ea body cond)
  | .switch ea e cases => do
      let cond ← expr sdk ctree fuel e
      let ids ← bodies cases
      emit (.sSwitch ea cond ids (cases.map fun c => u32 c.values.length)
        (cases.flatMap Case.values))
  | .return_ ea e => do
      let e ← optExpr sdk ctree fuel e
      emit (.sReturn ea e)
  | .goto ea labelNum => emit (.sGoto ea labelNum)
  | .asm ea addrs => emit (.sAsm ea addrs)
  | .throw ea e => do
      let e ← optExpr sdk ctree fuel e
      emit (.sThrow ea e)
  | .try_ ea body catchs => do
      let body ← block ea (stmts body)
      let catches ← blocks ea catchs
      emit (.sTry ea body catches)
  | .break_ ea => emit (.sBreak ea)
  | .continue_ ea => emit (.sContinue ea)
  | .empty ea | .other ea => emit (.sEmpty ea)

def stmts : List (Cinsn τ) → Walker (List ℕ)
  | [] => pure []
  | s :: ss => do
      let id ← stmt s
      let ids ← stmts ss
      return id :: ids

def bodies : List (Case (Cinsn τ)) → Walker (List ℕ)
  | [] => pure []
  | ⟨_, body⟩ :: cases => do
      let id ← stmt body
      let ids ← bodies cases
      return id :: ids

def blocks (ea : UInt64) : List (List (Cinsn τ)) → Walker (List ℕ)
  | [] => pure []
  | list :: lists => do
      let id ← block ea (stmts list)
      let ids ← blocks ea lists
      return id :: ids

end

def lvar (l : Clvar τ) : Walker Unit := do
  let ty ← Walker.type sdk fuel l.tif
  emitLvar (l.toLvar sdk.lossy ty)

def lvars : List (Clvar τ) → Walker Unit
  | [] => pure ()
  | l :: ls => do
      lvar sdk fuel l
      lvars ls

end

end Walker

section

variable {τ : Type} (sdk : Sdk τ) (ctree : CtreeSdk) (fuel : ℕ)

/-- Walk the local table and the body, and return the handle of the body. -/
def cfuncWalkCtree (cfunc : Cfunc τ) : Walker ℕ := do
  Walker.lvars sdk fuel cfunc.lvars
  Walker.stmt sdk ctree fuel cfunc.body

def walk (debugAssertions : Bool) (cfunc : Cfunc τ) : Option (Except ExtractError Ctree) := do
  let (root, s) ← cfuncWalkCtree sdk ctree fuel cfunc .start
  s.nodes.finish debugAssertions root

end

end Idakit.Facade
