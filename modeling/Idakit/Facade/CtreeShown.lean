import Idakit.Decompiler.Ctree.Emission
import Idakit.Facade.CtreeWalk
import Idakit.Facade.WalkFaithful

/-!
What a walk of a decompiled function has to show. Every node of the source is
read as a kind over its own operands; an arena shows a source at a handle when
the node there has the source's address, type and kind, and shows the operands
at the handles of its children. A step of the walk is accounted for by the
source nodes it leaves behind, in the order of their callbacks.
-/

namespace Idakit.Facade

open Idakit.Library Idakit.Types Idakit.Decompiler

variable {τ : Type}

/-! ### Reading the source -/

abbrev SourceNode (τ : Type) := Child (Cexpr τ) (Cinsn τ)

def pick {α : Type} (x y z : α) : ℕ → α
  | 0 => x
  | 1 => y
  | _ => z

namespace Cexpr

def ea : Cexpr τ → UInt64
  | .num ea .. | .fnum ea .. | .obj ea .. | .var ea .. | .str ea .. | .helper ea .. | .ptr ea ..
  | .memref ea .. | .memptr ea .. | .call ea .. | .op ea .. => ea

def type : Cexpr τ → τ
  | .num _ type .. | .fnum _ type .. | .obj _ type .. | .var _ type .. | .str _ type ..
  | .helper _ type .. | .ptr _ type .. | .memref _ type .. | .memptr _ type .. | .call _ type ..
  | .op _ type .. => type

/-- What an expression is, over its operands, if it can be extracted. -/
def kind (lossy : Name → Text) (ctree : CtreeSdk) :
    Cexpr τ → Option (ExpressionKind (Option (Cexpr τ)))
  | .num _ _ value => some (.num value)
  | .fnum _ _ bits => some (.fnum bits)
  | .obj _ _ objEa =>
      let name := lossy (ctree.getName objEa)
      (Address.tryNew objEa).map fun address => .obj address (if name ≠ [] then some name else none)
  | .var _ _ idx => some (.var idx.toUInt32.toNat)
  | .str _ _ string => some (.str (lossy (string.getD [])))
  | .helper _ _ text => some (.helper (lossy (text.getD [])))
  | .ptr _ _ x ptrsize => some (.deref (some x) ptrsize.toUInt32.toNat)
  | .memref _ _ x m => some (.memberRef (some x) m.toNat)
  | .memptr _ _ x m => some (.memberPtr (some x) m.toNat)
  | .call _ _ x a => some (.call (some x) (a.map some))
  | .op _ _ tag x y z => (classify tag.toNat 0 1 2).map (.map (pick x y z))

def failure : Cexpr τ → Option ExtractError
  | .obj _ _ objEa => if objEa = badAddr then some .badAddress else none
  | .op _ _ tag _ _ _ =>
      if (classify tag.toNat 0 1 2).isNone then some (.unknownExpressionTag tag.toNat) else none
  | _ => none

/-- An expression that may be left out: the empty one is. -/
def unlessEmpty (e : Cexpr τ) : Option (Cexpr τ) := if e.isEmpty then none else some e

def Present (ctree : CtreeSdk) : Cexpr τ → Prop
  | .op _ _ tag x y z =>
      (ctree.opUsesX tag → x.isSome) ∧ (ctree.opUsesY tag → y.isSome) ∧
        (ctree.opUsesZ tag → z.isSome)
  | _ => True

instance (ctree : CtreeSdk) (e : Cexpr τ) : Decidable (e.Present ctree) := by
  cases e
  case op => exact inferInstanceAs (Decidable (_ ∧ _ ∧ _))
  all_goals exact inferInstanceAs (Decidable True)

end Cexpr

namespace Cinsn

def ea : Cinsn τ → UInt64
  | .block ea .. | .expr ea .. | .if_ ea .. | .for_ ea .. | .while_ ea .. | .do_ ea ..
  | .switch ea .. | .return_ ea .. | .goto ea .. | .asm ea .. | .throw ea .. | .try_ ea ..
  | .break_ ea | .continue_ ea | .empty ea | .other ea => ea

/-- What a statement is, over its parts. The blocks of a `try` have its
address; a kind that is not modelled is the empty statement. -/
def kind : Cinsn τ → StatementKind (Cexpr τ) (Cinsn τ)
  | .block _ list => .block list
  | .expr _ cexpr => .expression cexpr
  | .if_ _ e ithen ielse => .if_ e ithen ielse
  | .for_ _ init e step body => .for_ init.unlessEmpty e.unlessEmpty step.unlessEmpty body
  | .while_ _ e body => .while_ e body
  | .do_ _ body e => .do_ body e
  | .switch _ e cases => .switch e cases
  | .return_ _ e => .return_ e.unlessEmpty
  | .goto _ labelNum => .goto labelNum
  | .asm _ addrs => .asm (addrs.filterMap Address.tryNew)
  | .throw _ e => .throw e.unlessEmpty
  | .try_ ea body catchs => .try_ (.block ea body) (catchs.map (.block ea))
  | .break_ _ => .break_
  | .continue_ _ => .continue_
  | .empty _ | .other _ => .empty

def failure : Cinsn τ → Option ExtractError
  | .asm _ addrs => if badAddr ∈ addrs then some .badAddress else none
  | _ => none

/-- The number of a case's values crosses in 32 bits. -/
def Counted : Cinsn τ → Prop
  | .switch _ _ cases => ∀ c ∈ cases, c.values.length < 2 ^ 32
  | _ => True

instance (s : Cinsn τ) : Decidable s.Counted := by
  cases s
  case switch => exact List.decidableBAll _ _
  all_goals exact inferInstanceAs (Decidable True)

end Cinsn

/-! ### The nodes of the source, in the order of their callbacks -/

section Nodes

variable (ctree : CtreeSdk)

mutual

def Cexpr.nodes : Cexpr τ → List (SourceNode τ)
  | .num ea type value => [.expression (.num ea type value)]
  | .fnum ea type bits => [.expression (.fnum ea type bits)]
  | .obj ea type objEa => [.expression (.obj ea type objEa)]
  | .var ea type idx => [.expression (.var ea type idx)]
  | .str ea type string => [.expression (.str ea type string)]
  | .helper ea type text => [.expression (.helper ea type text)]
  | .ptr ea type x ptrsize => x.nodes ++ [.expression (.ptr ea type x ptrsize)]
  | .memref ea type x m => x.nodes ++ [.expression (.memref ea type x m)]
  | .memptr ea type x m => x.nodes ++ [.expression (.memptr ea type x m)]
  | .call ea type x a => x.nodes ++ nodesOfExprs a ++ [.expression (.call ea type x a)]
  | .op ea type tag x y z =>
      nodesOfOperand (ctree.opUsesX tag) x ++ nodesOfOperand (ctree.opUsesY tag) y ++
        nodesOfOperand (ctree.opUsesZ tag) z ++ [.expression (.op ea type tag x y z)]

def nodesOfOperand (uses : Bool) : Option (Cexpr τ) → List (SourceNode τ)
  | some e => if uses then e.nodes else []
  | none => []

def nodesOfExprs : List (Cexpr τ) → List (SourceNode τ)
  | [] => []
  | e :: es => e.nodes ++ nodesOfExprs es

end

def Cexpr.optNodes (e : Cexpr τ) : List (SourceNode τ) :=
  if e.isEmpty then [] else e.nodes ctree

mutual

def Cinsn.nodes : Cinsn τ → List (SourceNode τ)
  | .block ea list => nodesOfStmts list ++ [.statement (.block ea list)]
  | .expr ea cexpr => cexpr.nodes ctree ++ [.statement (.expr ea cexpr)]
  | .if_ ea e ithen none => e.nodes ctree ++ ithen.nodes ++ [.statement (.if_ ea e ithen none)]
  | .if_ ea e ithen (some ielse) =>
      e.nodes ctree ++ ithen.nodes ++ ielse.nodes ++ [.statement (.if_ ea e ithen (some ielse))]
  | .for_ ea init e step body =>
      init.optNodes ctree ++ e.optNodes ctree ++ step.optNodes ctree ++ body.nodes ++
        [.statement (.for_ ea init e step body)]
  | .while_ ea e body => e.nodes ctree ++ body.nodes ++ [.statement (.while_ ea e body)]
  | .do_ ea body e => body.nodes ++ e.nodes ctree ++ [.statement (.do_ ea body e)]
  | .switch ea e cases =>
      e.nodes ctree ++ nodesOfBodies cases ++ [.statement (.switch ea e cases)]
  | .return_ ea e => e.optNodes ctree ++ [.statement (.return_ ea e)]
  | .goto ea labelNum => [.statement (.goto ea labelNum)]
  | .asm ea addrs => [.statement (.asm ea addrs)]
  | .throw ea e => e.optNodes ctree ++ [.statement (.throw ea e)]
  | .try_ ea body catchs =>
      nodesOfStmts body ++ [.statement (.block ea body)] ++ nodesOfBlocks ea catchs ++
        [.statement (.try_ ea body catchs)]
  | .break_ ea => [.statement (.break_ ea)]
  | .continue_ ea => [.statement (.continue_ ea)]
  | .empty ea => [.statement (.empty ea)]
  | .other ea => [.statement (.other ea)]

def nodesOfStmts : List (Cinsn τ) → List (SourceNode τ)
  | [] => []
  | s :: ss => s.nodes ++ nodesOfStmts ss

def nodesOfBodies : List (Case (Cinsn τ)) → List (SourceNode τ)
  | [] => []
  | ⟨_, body⟩ :: cases => body.nodes ++ nodesOfBodies cases

def nodesOfBlocks (ea : UInt64) : List (List (Cinsn τ)) → List (SourceNode τ)
  | [] => []
  | list :: lists =>
      nodesOfStmts list ++ [.statement (.block ea list)] ++ nodesOfBlocks ea lists

end

end Nodes

def SourceNode.failure : SourceNode τ → Option ExtractError
  | .expression e => e.failure
  | .statement s => s.failure

def firstFailure (nodes : List (SourceNode τ)) : Option ExtractError :=
  nodes.findSome? SourceNode.failure

def expressionCount (nodes : List (SourceNode τ)) : ℕ :=
  nodes.countP fun | .expression _ => true | .statement _ => false

def statementCount (nodes : List (SourceNode τ)) : ℕ :=
  nodes.countP fun | .expression _ => false | .statement _ => true

@[simp] theorem firstFailure_append (l l' : List (SourceNode τ)) :
    firstFailure (l ++ l') = (firstFailure l).or (firstFailure l') := List.findSome?_append

@[simp] theorem expressionCount_append (l l' : List (SourceNode τ)) :
    expressionCount (l ++ l') = expressionCount l + expressionCount l' := List.countP_append

@[simp] theorem statementCount_append (l l' : List (SourceNode τ)) :
    statementCount (l ++ l') = statementCount l + statementCount l' := List.countP_append

/-! ### Locals -/

def ArgpartLocation.location : ArgpartLocation → Option LocalLocation
  | .reg1 reg => some (.register reg)
  | .stkoff off => some (.stack off)
  | .ea address => (Address.tryNew address).map .static
  -- Whatever the fragment holds otherwise does not cross.
  | .other atype => LocalLocation.fromArgloc atype 0 0 0 []

def Argpart.fragment (p : Argpart) : Option (LocationPiece LocalLocation) :=
  p.location.location.map (⟨·, p.off, p.size⟩)

def Vdloc.location : Vdloc → Option LocalLocation
  | .none => some .unallocated
  | .stack off => some (.stack off)
  | .dist scattered => (scattered.mapM Argpart.fragment).map .scattered
  | .reg1 reg => some (.register reg)
  | .reg2 low high => some (.registerPair low high)
  | .rrel reg off => some (.registerRelative reg off)
  | .static ea => (Address.tryNew ea).map .static
  | .custom _ => some .custom

/-- A local under the handle of its type, unless it is at the invalid
address. -/
def Clvar.toLocal (lossy : Name → Text) (l : Clvar τ) (ty : TypeId) : Option Local :=
  l.location.location.map fun location => {
    name := lossy l.name
    ty
    isArg := l.isArgVar
    isResult := l.isResultVar
    isByref := l.isUsedByref
    width := l.width
    comment := if lossy l.cmt ≠ [] then some (lossy l.cmt) else none
    location }

def ShowsLocal (lossy : Name → Text) (stands : τ → TypeId → Prop) (l : Clvar τ) (v : Local) :
    Prop :=
  stands l.tif v.ty ∧ l.toLocal lossy v.ty = some v

/-! ### Showing the source -/

section Shows

variable (lossy : Name → Text) (ctree : CtreeSdk) (stands : τ → TypeId → Prop) (a : Arenas)

inductive ShowsExpression : Cexpr τ → ExpressionId → Prop
  | node {e : Cexpr τ} {id : ExpressionId} {ty : TypeId}
      (kind : ExpressionKind (Option (Cexpr τ) × ExpressionId))
      (hat : a.expressionAt id = some (Address.tryNew e.ea, ty, kind.map Prod.snd))
      (htype : stands e.type ty) (hkind : e.kind lossy ctree = some (kind.map Prod.fst))
      (hpresent : ∀ c ∈ kind.children, c.1 ≠ none)
      (hchildren : ∀ e' id', (some e', id') ∈ kind.children → ShowsExpression e' id') :
      ShowsExpression e id

inductive ShowsStatement : Cinsn τ → StatementId → Prop
  | node {s : Cinsn τ} {id : StatementId}
      (kind : StatementKind (Cexpr τ × ExpressionId) (Cinsn τ × StatementId))
      (hat : a.statementAt id = some (Address.tryNew s.ea, kind.map Prod.snd Prod.snd))
      (hkind : s.kind = kind.map Prod.fst Prod.fst)
      (hexpressions : ∀ e id', .expression (e, id') ∈ kind.children →
        ShowsExpression lossy ctree stands a e id')
      (hstatements : ∀ s' id', .statement (s', id') ∈ kind.children → ShowsStatement s' id') :
      ShowsStatement s id

end Shows

section Mono

variable {lossy : Name → Text} {ctree : CtreeSdk} {stands stands' : τ → TypeId → Prop}
  {a a' : Arenas} (hstands : ∀ t id, stands t id → stands' t id) (hkept : a.Extends a')

include hstands hkept

theorem ShowsExpression.mono {e : Cexpr τ} {id : ExpressionId}
    (h : ShowsExpression lossy ctree stands a e id) :
    ShowsExpression lossy ctree stands' a' e id := by
  induction h with
  | node kind hat htype hkind hpresent _ ih =>
      exact .node kind (hkept.expressions _ _ hat) (hstands _ _ htype) hkind hpresent ih

theorem ShowsStatement.mono {s : Cinsn τ} {id : StatementId}
    (h : ShowsStatement lossy ctree stands a s id) :
    ShowsStatement lossy ctree stands' a' s id := by
  induction h with
  | node kind hat hkind hexpressions _ ih =>
      exact .node kind (hkept.statements _ _ hat) hkind
        (fun e id' he => (hexpressions e id' he).mono hstands hkept) ih

end Mono

end Idakit.Facade
