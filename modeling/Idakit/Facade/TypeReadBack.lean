import Idakit.Facade.RecipeMeaning
import Idakit.Facade.TypeApply
import Idakit.Facade.WalkFaithful

/-!
What is written at an address is read back. The kernel holds an environment
of named types, and what it makes is a reference over it; the table that the
walk leaves spells the expression that was written there last.

The qualifiers, the calling convention and the names of the parameters of a
function are not in a table.
-/

namespace Idakit.Facade.TypeApply

open Idakit.Library Idakit.Types
open Idakit.Facade.RecipeMachine (Constructors SimpleType typeOk typeErrInput meaning meaningParams)

/-! ### Expressions in a table -/

def Shown (table : TypeTable) (id : TypeId) (shape : TypeShape) : Prop :=
  ∃ value, table.get id = some value ∧ value.shape = shape

/-- A table spells an expression at a handle. A name is the environment's
unfolding of it, and a declaration that of what it parses to. -/
inductive Spells (env : Environment) (parse : List UInt8 → Option TypeRef) (table : TypeTable) :
    TypeExpr → TypeId → Prop
  | void {id} (h : Shown table id .void) : Spells env parse table .void id
  | bool {id} (h : Shown table id .bool) : Spells env parse table .bool id
  | int {id bytes signed} (h : Shown table id (.int bytes.toNat signed)) :
      Spells env parse table (.int bytes signed) id
  | float {id bytes} (h : Shown table id (.float bytes.toNat)) :
      Spells env parse table (.float bytes) id
  | bitfield {id nbytes width signed} (h : Shown table id (.int nbytes.toNat signed)) :
      Spells env parse table (.bitfield nbytes width signed) id
  | named {id n} (h : env.Unfolds table (.named n) id) : Spells env parse table (.named n) id
  | decl {id text t} (hparse : parse text.asBytes = some t) (h : env.Unfolds table t id) :
      Spells env parse table (.decl text) id
  | pointer {id inner target} (h : Shown table id (.ptr target))
      (hinner : Spells env parse table inner target) : Spells env parse table (.pointer inner) id
  | array {id elem len e} (h : Shown table id (.array e len.toNat))
      (helem : Spells env parse table elem e) : Spells env parse table (.array elem len) id
  | const {id inner} (h : Spells env parse table inner id) :
      Spells env parse table (.const inner) id
  | volatile {id inner} (h : Spells env parse table inner id) :
      Spells env parse table (.volatile inner) id
  | function {id ret params varargs cc r ps} (h : Shown table id (.function r ps varargs))
      (hret : Spells env parse table ret r)
      (hparams : List.Forall₂ (Spells env parse table) (params.map Param.ty) ps) :
      Spells env parse table (.function ret params varargs cc) id

/-! ### The kernel -/

inductive Scalar : SimpleType → TypeRef → Prop
  | void : Scalar .void .void
  | bool {size} : Scalar .bool (.bool size)
  | int {bytes : Fin 256} {signed} : Scalar (.int bytes signed) (.integral bytes signed)
  | float {bytes : Fin 256} (h : bytes.val = 4) : Scalar .float (.floating bytes)
  | double {bytes : Fin 256} (h : bytes.val = 8) : Scalar .double (.floating bytes)

structure Makes (k : Constructors TypeRef) : Prop where
  simple : ∀ c t, k.createSimpleType c = some t → Scalar c t
  named : ∀ (n : Text) t, k.getNamedType n.asBytes = some t → t = .named n
  ptr : ∀ inner t, k.createPtr inner = some t → ∃ size, t = .ptr inner size
  array : ∀ elem nelems t, k.createArray elem nelems = some t → ∃ size, t = .array elem nelems size
  const : ∀ t, k.setConst t = t
  volatile : ∀ t, k.setVolatile t = t
  func : ∀ f t, k.createFunc f = some t →
    t = .func f.rettype (f.args.map Funcarg.type) f.cc.isVararg
  bitfield : ∀ nbytes width isUnsigned t, k.createBitfield nbytes width isUnsigned = some t →
    ∃ bytes : Fin 256, bytes.val = nbytes.toNat ∧ t = .bitfield bytes isUnsigned

/-- The kernel holds at an address what was applied there, of which every name
is defined. -/
structure Holds {σ : Type} (sdk : NoteSdk σ TypeRef) (env : Environment) : Prop where
  makes : Makes sdk.constructors
  named : ∀ (n : Text) t, sdk.getNamedType n.asBytes = some t → t = .named n
  defined : ∀ s a t s', sdk.applyTinfo s a t = some s' → t.names ⊆ env.names
  applied : ∀ s a t s', sdk.applyTinfo s a t = some s' → sdk.getTinfo s' a = some t
  appliedApart : ∀ s a t s', sdk.applyTinfo s a t = some s' →
    ∀ b, b ≠ a → sdk.getTinfo s' b = sdk.getTinfo s b
  reset : ∀ s a s', sdk.resetTinfo s a = some s' → sdk.getTinfo s' a = none
  resetApart : ∀ s a s', sdk.resetTinfo s a = some s' →
    ∀ b, b ≠ a → sdk.getTinfo s' b = sdk.getTinfo s b

/-! ### What was made is spelled -/

section

variable {env : Environment} {k : Constructors TypeRef} {table : TypeTable} {id : TypeId}

end

/-! ### What was written is held -/

def Asks (k : Constructors TypeRef) : TypeExpr → TypeRef → Prop
  | .named n, t => t = .named n
  | e, t => meaning k e = some t

section

variable {σ : Type} {sdk : NoteSdk σ TypeRef} {quoted : Text → Text} {env : Environment} {s : σ}
  {a : UInt64}

structure Comes (sdk : NoteSdk σ TypeRef) (s : σ) (a : UInt64) (P : Option TypeRef → Prop)
    (out : Except ApplyError Unit × σ) : Prop where
  here : out.1.isOk = true → P (sdk.getTinfo out.2 a)
  apart : ∀ b, b ≠ a → sdk.getTinfo out.2 b = sdk.getTinfo s b
  refused : out.1.isOk = false → out.2 = s

theorem Comes.imp {P Q : Option TypeRef → Prop} {out : Except ApplyError Unit × σ}
    (h : Comes sdk s a P out) (himp : ∀ held, P held → Q held) : Comes sdk s a Q out :=
  ⟨fun hok => himp _ (h.here hok), h.apart, h.refused⟩

end

/-! ### What is held is read -/

section

variable {env : Environment} {lossy : Name → Text}

def Reads (env : Environment) (lossy : Name → Text) (held : Option TypeRef) (address : UInt64)
    (out : Except (UInt64 × ExtractError) (Option ResolvedType)) : Prop :=
  ∃ least, ∀ fuel, least ≤ fuel → typeAt (env.sdk lossy) fuel held address = some out

end

/-! ### A kernel -/

end Idakit.Facade.TypeApply
