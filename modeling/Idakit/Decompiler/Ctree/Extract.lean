import Idakit.Decompiler.Ctree.Shape

/-!
Building a tree from the callbacks of a walk. Children are emitted before
their parents, so every callback receives its children as the handles that
their own callbacks returned. A failure is recorded, and surfaces when the
tree is finished.

A callback that panics is `none`: an arena past its 32-bit handles, a switch
whose counts run past its values, a location at the invalid address.
-/

namespace Idakit.Decompiler

open Idakit.Types

def noHandle : ℕ := 0xffffffff

/-! ### Locations -/

structure LocPiece where
  atype : UInt32
  reg : UInt32
  sval : Int64
  off : UInt32
  size : UInt32

/-- The constructor for literals: the invalid address panics. -/
def Address.newConst (raw : UInt64) : Option Address := Address.tryNew raw

/-- The location that an `atype` selects, each reading its own fields. -/
def LocalLocation.fromArgloc (atype reg1 reg2 : UInt32) (sval : Int64)
    (pieces : List (LocationPiece LocalLocation)) : Option LocalLocation :=
  match atype.toNat with
  | 0 => some .unallocated
  | 1 => some (.stack sval)
  | 2 => some (.scattered pieces)
  | 3 => some (.register reg1)
  | 4 => some (.registerPair reg1 reg2)
  | 5 => some (.registerRelative reg1 sval)
  | 6 => (Address.newConst sval.toUInt64).map .static
  | _ => some .custom

/-! ### Callbacks -/

inductive NodeCall
  | eNum (ea value : UInt64) (ty : TypeId)
  | eFnum (ea bits : UInt64) (ty : TypeId)
  | eObj (ea target : UInt64) (name : Text) (ty : TypeId)
  | eVar (ea : UInt64) (idx : LocalId) (ty : TypeId)
  | eStr (ea : UInt64) (text : Text) (ty : TypeId)
  | eHelper (ea : UInt64) (name : Text) (ty : TypeId)
  | eCall (ea : UInt64) (callee : ℕ) (args : List ℕ) (ty : TypeId)
  | eMemref (ea : UInt64) (obj offset : ℕ) (ty : TypeId)
  | eMemptr (ea : UInt64) (obj offset : ℕ) (ty : TypeId)
  | eDeref (ea : UInt64) (x size : ℕ) (ty : TypeId)
  | eOp (ea : UInt64) (ctype x y z : ℕ) (ty : TypeId)
  | sBlock (ea : UInt64) (kids : List ℕ)
  | sExpr (ea : UInt64) (e : ℕ)
  | sIf (ea : UInt64) (cond then_ else_ : ℕ)
  | sFor (ea : UInt64) (init cond step body : ℕ)
  | sWhile (ea : UInt64) (cond body : ℕ)
  | sDo (ea : UInt64) (body cond : ℕ)
  | sSwitch (ea : UInt64) (expr : ℕ) (bodies valueCounts : List ℕ) (values : List UInt64)
  | sBreak (ea : UInt64)
  | sContinue (ea : UInt64)
  | sReturn (ea : UInt64) (e : ℕ)
  | sGoto (ea : UInt64) (label : Int32)
  | sAsm (ea : UInt64) (addrs : List UInt64)
  | sTry (ea : UInt64) (body : ℕ) (catches : List ℕ)
  | sThrow (ea : UInt64) (e : ℕ)
  | sEmpty (ea : UInt64)

structure Lvar where
  name : Text
  ty : TypeId
  flags : UInt32
  width : UInt32
  comment : Text
  atype : UInt32
  reg1 : UInt32
  reg2 : UInt32
  sval : Int64
  pieces : List LocPiece

/-! ### The builder that the callbacks drive -/

structure CallbackBuilder where
  b : CtreeBuilder
  error : Option ExtractError

/-- What a callback does; `none` is a panic. -/
abbrev Extraction := StateT CallbackBuilder Option

def optHandle (raw : ℕ) : Option ℕ := if raw ≠ noHandle then some raw else none

/-- The kind that an operator's tag names. The tags of assignments are probed
before those of the other operators. -/
def classify (ctype x y z : ℕ) : Option (ExpressionKind ExpressionId) :=
  if ctype = 66 then some .internal
  else
    let op16 := if ctype < 2 ^ 16 then some ctype else none
    match op16.bind AssignmentOp.tryFrom with
    | some op => some (.assign op x y)
    | none =>
        match op16.bind BinaryOp.tryFrom with
        | some op => some (.binary op x y)
        | none =>
            match op16.bind UnaryOp.tryFrom with
            | some op => some (.unary op x)
            | none =>
                match ctype with
                | 16 => some (.ternary x y z)
                | 48 => some (.cast x)
                | 58 => some (.index x y)
                | 67 => some (.sizeof x)
                | 0 => some .empty
                | 69 => some .typeExpression
                | _ => none

/-- The cases of a switch: each takes its count of values, from `pos` on. A
slice past the values panics. -/
def sliceCases (values : List UInt64) : ℕ → List (ℕ × ℕ) → Option (List (Case StatementId))
  | _, [] => some []
  | pos, (body, n) :: rest =>
      if pos + n ≤ values.length then
        (sliceCases values (pos + n) rest).map (⟨(values.drop pos).take n, body⟩ :: ·)
      else none

def LocPiece.toPiece (p : LocPiece) : Option (LocationPiece LocalLocation) :=
  (LocalLocation.fromArgloc p.atype p.reg 0 p.sval []).map (⟨·, p.off, p.size⟩)

def Lvar.toLocal (l : Lvar) : Option Local := do
  let pieces ← l.pieces.mapM LocPiece.toPiece
  let location ← LocalLocation.fromArgloc l.atype l.reg1 l.reg2 l.sval pieces
  return {
    name := l.name
    ty := l.ty
    isArg := l.flags &&& 1 != 0
    isResult := l.flags &&& 2 != 0
    isByref := l.flags &&& 4 != 0
    width := l.width
    comment := if l.comment ≠ [] then some l.comment else none
    location }

namespace CallbackBuilder

def new : CallbackBuilder := ⟨.new, none⟩

/-- Record a failure, keeping the first. -/
def fail (e : ExtractError) : Extraction Unit :=
  modify fun cb => { cb with error := cb.error.or (some e) }

def pushExpression (ea : UInt64) (ty : TypeId) (kind : ExpressionKind ExpressionId) :
    Extraction ℕ := fun cb =>
  if cb.b.expressions.length < 2 ^ 32 then
    let (id, b) := cb.b.expression ty kind (Address.tryNew ea)
    some (id, { cb with b })
  else none

def pushStatement (ea : UInt64) (kind : StatementKind ExpressionId StatementId) :
    Extraction ℕ := fun cb =>
  if cb.b.statements.length < 2 ^ 32 then
    let (id, b) := cb.b.statement kind (Address.tryNew ea)
    some (id, { cb with b })
  else none

/-- An object at no address is a failure, with an empty node in its place. -/
def obj (ea target : UInt64) (name : Option Text) (ty : TypeId) : Extraction ℕ :=
  match Address.tryNew target with
  | some address => pushExpression ea ty (.obj address name)
  | none => do
      fail .badAddress
      pushExpression ea ty .empty

def op (ea : UInt64) (ctype x y z : ℕ) (ty : TypeId) : Extraction ℕ :=
  match classify ctype x y z with
  | some kind => pushExpression ea ty kind
  | none => do
      fail (.unknownExpressionTag ctype)
      pushExpression ea ty .internal

/-- The addresses of inline assembly; the invalid ones are failures. -/
def asmAddrs : List UInt64 → Extraction (List Address)
  | [] => pure []
  | a :: addrs =>
      match Address.tryNew a with
      | some e => do
          let out ← asmAddrs addrs
          return e :: out
      | none => do
          fail .badAddress
          asmAddrs addrs

def asm (ea : UInt64) (addrs : List UInt64) : Extraction ℕ := do
  let out ← asmAddrs addrs
  pushStatement ea (.asm out)

def node : NodeCall → Extraction ℕ
  | .eNum ea value ty => pushExpression ea ty (.num value)
  | .eFnum ea bits ty => pushExpression ea ty (.fnum bits)
  | .eObj ea target name ty => obj ea target (if name ≠ [] then some name else none) ty
  | .eVar ea idx ty => pushExpression ea ty (.var idx)
  | .eStr ea text ty => pushExpression ea ty (.str text)
  | .eHelper ea name ty => pushExpression ea ty (.helper name)
  | .eCall ea callee args ty => pushExpression ea ty (.call callee args)
  | .eMemref ea obj offset ty => pushExpression ea ty (.memberRef obj offset)
  | .eMemptr ea obj offset ty => pushExpression ea ty (.memberPtr obj offset)
  | .eDeref ea x size ty => pushExpression ea ty (.deref x size)
  | .eOp ea ctype x y z ty => op ea ctype x y z ty
  | .sBlock ea kids => pushStatement ea (.block kids)
  | .sExpr ea e => pushStatement ea (.expression e)
  | .sIf ea cond then_ else_ => pushStatement ea (.if_ cond then_ (optHandle else_))
  | .sFor ea init cond step body =>
      pushStatement ea (.for_ (optHandle init) (optHandle cond) (optHandle step) body)
  | .sWhile ea cond body => pushStatement ea (.while_ cond body)
  | .sDo ea body cond => pushStatement ea (.do_ body cond)
  | .sSwitch ea expr bodies valueCounts values => do
      let cases ← StateT.lift (sliceCases values 0 (bodies.zip valueCounts))
      pushStatement ea (.switch expr cases)
  | .sBreak ea => pushStatement ea .break_
  | .sContinue ea => pushStatement ea .continue_
  | .sReturn ea e => pushStatement ea (.return_ (optHandle e))
  | .sGoto ea label => pushStatement ea (.goto label)
  | .sAsm ea addrs => asm ea addrs
  | .sTry ea body catches => pushStatement ea (.try_ body catches)
  | .sThrow ea e => pushStatement ea (.throw (optHandle e))
  | .sEmpty ea => pushStatement ea .empty

def lvar (l : Lvar) : Extraction Unit := fun cb => do
  let v ← l.toLocal
  if cb.b.locals.length < 2 ^ 32 then
    some ((), { cb with b := (cb.b.pushLocal v).2 })
  else none

def finish (cb : CallbackBuilder) (debugAssertions : Bool) (root : StatementId) :
    Option (Except ExtractError Ctree) :=
  match cb.error with
  | some e => some (.error e)
  | none =>
      match cb.b.types.tooWide with
      | some bytes => some (.error (.scalarTooWide bytes))
      | none =>
          if cb.b.types.unfilled ≠ 0 then some (.error (.unfilledType cb.b.types.unfilled))
          else (cb.b.finish debugAssertions root).map .ok

end CallbackBuilder

end Idakit.Decompiler
