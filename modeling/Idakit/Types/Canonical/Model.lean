import Idakit.Library.StableSort
import Idakit.Types.Table
import Mathlib.Data.PNat.Basic

/-!
The canonical form of a type and the walk that produces it. A canonical
type has no handles: children are inlined, a named aggregate away from
the root is cut to its name, and a cycle that no name cuts is closed by a
De Bruijn back-reference to an enclosing spelled aggregate.

The code's walk recurses over the handle graph without a bound, so the
model gives it fuel: `none` stands for a walk that has not come to an end
within the fuel, or that indexes past the arena.
-/

namespace Idakit.Types.Canonical

open Idakit.Library

inductive AggregateKind
  | struct | union | enum
  deriving DecidableEq

inductive RecordKind
  | struct | union
  deriving DecidableEq

def RecordKind.toAggregate : RecordKind → AggregateKind
  | .struct => .struct
  | .union => .union

structure CanonicalMember (τ : Type) where
  name : Text
  bitOffset : Option ℕ
  bitfieldWidth : Option ℕ
  ty : τ

/-- A table-free structural form of a type. -/
inductive CanonicalType
  | void
  | bool
  | int (bytes : Option ℕ) (signed : Bool)
  | float (bytes : Option ℕ)
  | ptr (pointee : CanonicalType) (width : Option ℕ)
  | array (elem : CanonicalType) (len : ℕ)
  | named (tag : Text) (kind : AggregateKind)
  | aggregate (tag : Option Text) (kind : RecordKind)
      (members : List (CanonicalMember CanonicalType)) (size : Option ℕ)
  | enum (tag : Option Text) (underlying : CanonicalType) (members : List (Text × ℕ))
      (size : Option ℕ)
  | function (ret : CanonicalType) (params : List CanonicalType) (varargs : Bool)
  | typedef (name : Text) (underlying : CanonicalType)
  | opaqueNamed (name : Text)
  | backRef (n : ℕ+)

namespace CanonicalType

/-- Induction over a canonical type, with a hypothesis for every member of
an aggregate and every parameter of a function. -/
@[elab_as_elim, induction_eliminator]
theorem induct {P : CanonicalType → Prop}
    (void : P .void) (bool : P .bool)
    (int : ∀ bytes signed, P (.int bytes signed)) (float : ∀ bytes, P (.float bytes))
    (ptr : ∀ pointee width, P pointee → P (.ptr pointee width))
    (array : ∀ elem len, P elem → P (.array elem len))
    (named : ∀ tag kind, P (.named tag kind))
    (aggregate : ∀ tag kind members size, (∀ m ∈ members, P m.ty) →
      P (.aggregate tag kind members size))
    (enum : ∀ tag underlying members size, P underlying →
      P (.enum tag underlying members size))
    (function : ∀ ret params varargs, P ret → (∀ p ∈ params, P p) →
      P (.function ret params varargs))
    (typedef : ∀ name underlying, P underlying → P (.typedef name underlying))
    (opaqueNamed : ∀ name, P (.opaqueNamed name)) (backRef : ∀ n, P (.backRef n)) :
    ∀ c, P c := by
  intro c
  refine @CanonicalType.rec P (fun ms => ∀ m ∈ ms, P m.ty) (fun ts => ∀ t ∈ ts, P t)
    (fun m => P m.ty)
    void bool int float ptr array named aggregate enum function typedef opaqueNamed
    backRef (by simp) ?_ (by simp) ?_ ?_ c
  · intro m ms hm hms
    exact List.forall_mem_cons.mpr ⟨hm, hms⟩
  · intro t ts ht hts
    exact List.forall_mem_cons.mpr ⟨ht, hts⟩
  · intro _ _ _ _ ht
    exact ht

mutual

/-- Structural equality, the derived `PartialEq`. -/
def beq : CanonicalType → CanonicalType → Bool
  | .void, .void => true
  | .bool, .bool => true
  | .int b s, .int b' s' => b == b' && s == s'
  | .float b, .float b' => b == b'
  | .ptr p w, .ptr p' w' => beq p p' && w == w'
  | .array e n, .array e' n' => beq e e' && n == n'
  | .named t k, .named t' k' => t == t' && k == k'
  | .aggregate t k ms s, .aggregate t' k' ms' s' =>
      t == t' && k == k' && beqMembers ms ms' && s == s'
  | .enum t u ms s, .enum t' u' ms' s' => t == t' && beq u u' && ms == ms' && s == s'
  | .function r ps v, .function r' ps' v' => beq r r' && beqParams ps ps' && v == v'
  | .typedef n u, .typedef n' u' => n == n' && beq u u'
  | .opaqueNamed n, .opaqueNamed n' => n == n'
  | .backRef n, .backRef n' => n == n'
  | _, _ => false

def beqMembers : List (CanonicalMember CanonicalType) →
    List (CanonicalMember CanonicalType) → Bool
  | [], [] => true
  | ⟨n, o, w, t⟩ :: ms, ⟨n', o', w', t'⟩ :: ms' =>
      n == n' && o == o' && w == w' && beq t t' && beqMembers ms ms'
  | _, _ => false

def beqParams : List CanonicalType → List CanonicalType → Bool
  | [], [] => true
  | t :: ts, t' :: ts' => beq t t' && beqParams ts ts'
  | _, _ => false

end

theorem beqMembers_iff {ms : List (CanonicalMember CanonicalType)}
    (ih : ∀ m ∈ ms, ∀ t, beq m.ty t = true ↔ m.ty = t) :
    ∀ ms', beqMembers ms ms' = true ↔ ms = ms' := by
  induction ms with
  | nil => intro ms'; cases ms' <;> simp [beqMembers]
  | cons m ms ihms =>
      intro ms'
      have hm := ih m (by simp)
      have hms := ihms fun m hm => ih m (by simp [hm])
      obtain ⟨n, o, w, t⟩ := m
      cases ms' with
      | nil => simp [beqMembers]
      | cons m' ms' =>
          obtain ⟨n', o', w', t'⟩ := m'
          simp only [beqMembers, Bool.and_eq_true, beq_iff_eq, hm, hms, List.cons.injEq,
            CanonicalMember.mk.injEq, and_assoc]

theorem beqParams_iff {ts : List CanonicalType}
    (ih : ∀ t ∈ ts, ∀ t', beq t t' = true ↔ t = t') :
    ∀ ts', beqParams ts ts' = true ↔ ts = ts' := by
  induction ts with
  | nil => intro ts'; cases ts' <;> simp [beqParams]
  | cons t ts ihts =>
      intro ts'
      have ht := ih t (by simp)
      have hts := ihts fun t ht => ih t (by simp [ht])
      cases ts' with
      | nil => simp [beqParams]
      | cons t' ts' => simp only [beqParams, Bool.and_eq_true, ht, hts, List.cons.injEq]

theorem beq_iff (x : CanonicalType) : ∀ y, beq x y = true ↔ x = y := by
  induction x with
  | aggregate tag kind members size ih =>
      intro y; cases y <;> simp [beq, beqMembers_iff ih, and_assoc]
  | function ret params varargs ihr ihp =>
      intro y; cases y <;> simp [beq, ihr, beqParams_iff ihp, and_assoc]
  | ptr pointee width ih => intro y; cases y <;> simp [beq, ih]
  | array elem len ih => intro y; cases y <;> simp [beq, ih]
  | enum tag underlying members size ih =>
      intro y; cases y <;> simp [beq, ih, and_assoc]
  | typedef name underlying ih => intro y; cases y <;> simp [beq, ih]
  | _ => intro y; cases y <;> simp [beq]

instance : DecidableEq CanonicalType := fun x y => decidable_of_iff _ (beq_iff x y)

end CanonicalType

instance : DecidableEq (CanonicalMember CanonicalType) := fun
  | ⟨n, o, w, t⟩, ⟨n', o', w', t'⟩ =>
      decidable_of_iff (n = n' ∧ o = o' ∧ w = w' ∧ t = t') (by simp)

structure CanonicalOptions where
  /-- Fold concrete byte widths and bit offsets in. -/
  includeSizes : Bool
  deriving DecidableEq

namespace CanonicalOptions

/-- ABI-exact: widths and offsets are part of the form. -/
def strict : CanonicalOptions := ⟨true⟩

/-- Size-abstracted: widths and offsets are dropped. -/
def logical : CanonicalOptions := ⟨false⟩

def width (opts : CanonicalOptions) (bytes : ℕ) : Option ℕ :=
  if opts.includeSizes then some bytes else none

/-- A pointer's own width: dropped, or narrowed to a `u8` when it fits. -/
def ptrWidth (opts : CanonicalOptions) (size : Option ℕ) : Option ℕ :=
  if opts.includeSizes then size.bind fun s => if s < 256 then some s else none else none

def offset (opts : CanonicalOptions) (bits : ℕ) : Option ℕ :=
  if opts.includeSizes then some bits else none

def size (opts : CanonicalOptions) (size : Option ℕ) : Option ℕ :=
  if opts.includeSizes then size else none

end CanonicalOptions

/-- Whether a tag is made up by IDA, so that it names nothing across
databases. -/
def isSynthetic (tag : Text) : Bool :=
  tag.isEmpty || tag.head? == some '$'

def realTag (name : Option Text) : Option Text :=
  name.filter fun n => !isSynthetic n

/-- The cut for an aggregate with a stable tag referenced away from the
root. -/
def nominalCut (name : Option Text) (kind : AggregateKind) (spellNamed : Bool) :
    Option CanonicalType :=
  match realTag name with
  | some tag => if spellNamed then none else some (.named tag kind)
  | none => none

/-- The order of a record's members: a union's carries no meaning, a
struct's is its layout. -/
def arrange (kind : RecordKind) (members : List (CanonicalMember CanonicalType)) :
    List (CanonicalMember CanonicalType) :=
  match kind with
  | .union => sortByKey CanonicalMember.name members
  | .struct => members

def canonMember (recur : TypeId → List TypeId → Option CanonicalType)
    (opts : CanonicalOptions) (stack : List TypeId) (m : TypeMember) :
    Option (CanonicalMember CanonicalType) := do
  let ty ← recur m.ty stack
  return { name := m.name, bitOffset := opts.offset m.bitOffset,
           bitfieldWidth := m.bitfieldWidth, ty }

/-- Canonicalize a struct or union: cut it, close a cycle through it, or
spell its body. The head of the stack is the innermost open aggregate. -/
def aggregate (recur : TypeId → List TypeId → Option CanonicalType)
    (opts : CanonicalOptions) (id : TypeId) (kind : RecordKind) (name : Option Text)
    (members : List TypeMember) (size : Option ℕ) (stack : List TypeId)
    (spellNamed : Bool) : Option CanonicalType :=
  match nominalCut name kind.toAggregate spellNamed with
  | some cut => some cut
  | none =>
    match stack.idxOf? id with
    | some depth => some (.backRef depth.succPNat)
    | none => do
        let members ← members.mapM (canonMember recur opts (id :: stack))
        return .aggregate (realTag name) kind (arrange kind members) (opts.size size)

/-- An enum's constants in name order. The order they are listed in carries
no meaning. -/
def constants (members : List EnumMember) : List (Text × ℕ) :=
  sortByKey Prod.fst (members.map fun m => (m.name, m.value))

/-- One level of the recursive core, over the walk `recur` of the children.
Only the root is walked with `spellNamed` set, so `recur` never is. -/
def canonWith (table : TypeTable) (opts : CanonicalOptions)
    (recur : TypeId → List TypeId → Option CanonicalType) (id : TypeId)
    (stack : List TypeId) (spellNamed : Bool) : Option CanonicalType := do
  let value ← table.get id
  match value.shape with
  | .void => return .void
  | .bool => return .bool
  | .int bytes signed => return .int (opts.width bytes) signed
  | .float bytes => return .float (opts.width bytes)
  | .ptr inner => return .ptr (← recur inner stack) (opts.ptrWidth value.size)
  | .array elem len => return .array (← recur elem stack) len
  | .struct name members =>
      aggregate recur opts id .struct name members value.size stack spellNamed
  | .union name members =>
      aggregate recur opts id .union name members value.size stack spellNamed
  | .enum name underlying members _ _ =>
      match nominalCut name .enum spellNamed with
      | some cut => return cut
      | none =>
          return .enum (realTag name) (← recur underlying stack) (constants members)
            (opts.size value.size)
  | .function ret params varargs =>
      let ret ← recur ret stack
      let params ← params.mapM fun p => recur p stack
      return .function ret params varargs
  | .typedef name underlying => return .typedef name (← recur underlying stack)
  | .opaqueNamed name => return .opaqueNamed name
  -- Surfaced as a marker rather than a panic.
  | .unknown => return .opaqueNamed "<unfilled>".toList

/-- The recursive core. `spellNamed` is true only at the root. -/
def canon (table : TypeTable) (opts : CanonicalOptions) :
    ℕ → TypeId → List TypeId → Bool → Option CanonicalType
  | 0, _, _, _ => none
  | fuel + 1, id, stack, spellNamed =>
      canonWith table opts (fun id stack => canon table opts fuel id stack false) id stack
        spellNamed

def canonicalize (fuel : ℕ) (table : TypeTable) (root : TypeId) (opts : CanonicalOptions) :
    Option CanonicalType :=
  canon table opts fuel root [] true

def IsCanonicalForm (table : TypeTable) (opts : CanonicalOptions) (root : TypeId)
    (c : CanonicalType) : Prop :=
  ∃ fuel, canonicalize fuel table root opts = some c

/-- An unnamed list node: a struct whose one member points back to it. -/
def unnamedNode : TypeTable where
  arena := [⟨.struct (some "$A1".toList) [⟨"next".toList, 0, 1, none, none⟩], some 8⟩,
    ⟨.ptr 0, some 8⟩]
  dedup := []

example : canonicalize 3 unnamedNode 0 .strict =
    some (.aggregate none .struct
      [⟨"next".toList, some 0, none, .ptr (.backRef 1) (some 8)⟩] (some 8)) := by
  decide

end Idakit.Types.Canonical
