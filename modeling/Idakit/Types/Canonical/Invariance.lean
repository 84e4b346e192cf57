import Idakit.Types.Canonical.Spelling
import Idakit.Types.Canonical.Walk
import Mathlib.Data.Set.Function

/-!
What the canonical form does not depend on. The options are consulted only
for the values they drop, so the size-abstracted form is the ABI-exact one
with those values erased; and handles are only followed and compared with
one another, so renumbering a handle graph leaves the form alone.
-/

namespace Idakit.Types

open Idakit.Library

namespace Canonical

/-! ### Erasing layout -/

namespace CanonicalType

mutual

/-- Drop every size, scalar and pointer width and bit offset. Bitfield
widths and array lengths are declared structure and stay. -/
def erase : CanonicalType → CanonicalType
  | .void => .void
  | .bool => .bool
  | .int _ signed => .int none signed
  | .float _ => .float none
  | .ptr pointee _ => .ptr pointee.erase none
  | .array elem len => .array elem.erase len
  | .named tag kind => .named tag kind
  | .aggregate tag kind members _ => .aggregate tag kind (eraseMembers members) none
  | .enum tag underlying members _ => .enum tag underlying.erase members none
  | .function ret params varargs => .function ret.erase (eraseParams params) varargs
  | .typedef name underlying => .typedef name underlying.erase
  | .opaqueNamed name => .opaqueNamed name
  | .backRef n => .backRef n

def eraseMembers :
    List (CanonicalMember CanonicalType) → List (CanonicalMember CanonicalType)
  | [] => []
  | ⟨name, _, width, ty⟩ :: ms => ⟨name, none, width, ty.erase⟩ :: eraseMembers ms

def eraseParams : List CanonicalType → List CanonicalType
  | [] => []
  | t :: ts => t.erase :: eraseParams ts

end

def eraseMember (m : CanonicalMember CanonicalType) : CanonicalMember CanonicalType :=
  ⟨m.name, none, m.bitfieldWidth, m.ty.erase⟩

theorem eraseMembers_eq_map (ms : List (CanonicalMember CanonicalType)) :
    eraseMembers ms = ms.map eraseMember := by
  induction ms with
  | nil => rfl
  | cons m ms ih => rw [eraseMembers, ih]; rfl

theorem eraseParams_eq_map (ts : List CanonicalType) : eraseParams ts = ts.map erase := by
  induction ts with
  | nil => rfl
  | cons t ts ih => rw [eraseParams, ih]; rfl

end CanonicalType

open CanonicalType

theorem arrange_eraseMembers (kind : RecordKind)
    (ms : List (CanonicalMember CanonicalType)) :
    arrange kind (ms.map eraseMember) = (arrange kind ms).map eraseMember := by
  cases kind with
  | struct => rfl
  | union => exact (map_sortByKey eraseMember ms fun _ _ => rfl).symm

/-- `aggregate` consults the options only for what erasing drops. -/
theorem aggregate_logical {recur recur' : TypeId → List TypeId → Option CanonicalType}
    (hrecur : ∀ id stack, recur' id stack = (recur id stack).map erase) (id : TypeId)
    (kind : RecordKind) (name : Option Text) (members : List TypeMember) (size : Option ℕ)
    (stack : List TypeId) (spellNamed : Bool) :
    aggregate recur' .logical id kind name members size stack spellNamed =
      (aggregate recur .strict id kind name members size stack spellNamed).map erase := by
  have hms : members.mapM (canonMember recur' .logical (id :: stack)) =
      (members.mapM (canonMember recur .strict (id :: stack))).map (List.map eraseMember) := by
    rw [mapM_map_result]
    refine mapM_congr fun m _ => ?_
    rw [canonMember, canonMember, hrecur]
    cases recur m.ty (id :: stack) <;> rfl
  rw [aggregate, aggregate]
  cases hcut : nominalCut name kind.toAggregate spellNamed with
  | some cut =>
      obtain ⟨tag, -, -, rfl⟩ := nominalCut_eq_some_iff.mp hcut
      rfl
  | none =>
      cases stack.idxOf? id with
      | some depth => rfl
      | none =>
          simp only [hms, Option.bind_eq_bind, Option.pure_def, Option.bind_map,
            Option.map_bind]
          refine congrArg (Option.bind _) ?_
          funext ms
          simp [arrange_eraseMembers, erase, eraseMembers_eq_map, CanonicalOptions.size,
            CanonicalOptions.logical]

/-- One level of the size-abstracted walk is the ABI-exact level with its
layout erased. -/
theorem canonWith_logical (table : TypeTable)
    {recur recur' : TypeId → List TypeId → Option CanonicalType}
    (hrecur : ∀ id stack, recur' id stack = (recur id stack).map erase) (id : TypeId)
    (stack : List TypeId) (spellNamed : Bool) :
    canonWith table .logical recur' id stack spellNamed =
      (canonWith table .strict recur id stack spellNamed).map erase := by
  rw [canonWith, canonWith]
  cases table.get id with
  | none => rfl
  | some value =>
      obtain ⟨shape, size⟩ := value
      simp only [Option.bind_eq_bind, Option.bind_some]
      cases shape with
      | struct name members => exact aggregate_logical hrecur id .struct name members size _ _
      | union name members => exact aggregate_logical hrecur id .union name members size _ _
      | enum name underlying members isBitmask repr =>
          cases hcut : nominalCut name .enum spellNamed with
          | some cut =>
              obtain ⟨tag, -, -, rfl⟩ := nominalCut_eq_some_iff.mp hcut
              simp only [hcut]
              rfl
          | none =>
              simp only [hcut, hrecur]
              cases recur underlying stack <;> rfl
      | function ret params varargs =>
          have hps : params.mapM (fun p => recur' p stack) =
              (params.mapM fun p => recur p stack).map (List.map erase) := by
            rw [mapM_map_result]
            exact mapM_congr fun p _ => hrecur p stack
          simp only [hps, hrecur ret]
          cases recur ret stack with
          | none => rfl
          | some r =>
              cases params.mapM fun p => recur p stack with
              | none => rfl
              | some ps => simp [erase, eraseParams_eq_map]
      | ptr inner => simp only [hrecur]; cases recur inner stack <;> rfl
      | array elem len => simp only [hrecur]; cases recur elem stack <;> rfl
      | typedef name underlying => simp only [hrecur]; cases recur underlying stack <;> rfl
      | void | bool | int _ _ | float _ | opaqueNamed _ | unknown => rfl

theorem canon_logical (table : TypeTable) (fuel : ℕ) (id : TypeId) (stack : List TypeId)
    (spellNamed : Bool) :
    canon table .logical fuel id stack spellNamed =
      (canon table .strict fuel id stack spellNamed).map erase := by
  induction fuel generalizing id stack spellNamed with
  | zero => rfl
  | succ fuel ih => exact canonWith_logical table (fun id stack => ih id stack false) id stack _

/-- The size-abstracted form is the ABI-exact form with its layout erased, so
two types equal under the exact form are equal under the abstract one. -/
theorem canonicalize_logical (table : TypeTable) (root : TypeId) :
    (∀ fuel, canonicalize fuel table root .logical =
      (canonicalize fuel table root .strict).map erase) ∧
    ∀ table' root' fuel fuel',
      canonicalize fuel table root .strict = canonicalize fuel' table' root' .strict →
      canonicalize fuel table root .logical = canonicalize fuel' table' root' .logical := by
  refine ⟨fun fuel => canon_logical table fuel root [] true, ?_⟩
  intro table' root' fuel fuel' h
  rw [canonicalize, canonicalize, canon_logical, canon_logical]
  exact congrArg (Option.map erase) h

/-! ### Renumbering handles -/

end Canonical

def TypeMember.mapIds (f : TypeId → TypeId) (m : TypeMember) : TypeMember :=
  { m with ty := f m.ty }

def TypeShape.mapIds (f : TypeId → TypeId) : TypeShape → TypeShape
  | .ptr pointee => .ptr (f pointee)
  | .array elem len => .array (f elem) len
  | .struct name members => .struct name (members.map (TypeMember.mapIds f))
  | .union name members => .union name (members.map (TypeMember.mapIds f))
  | .enum name underlying members isBitmask repr =>
      .enum name (f underlying) members isBitmask repr
  | .function ret params varargs => .function (f ret) (params.map f) varargs
  | .typedef name underlying => .typedef name (f underlying)
  | shape => shape

def TypeValue.mapIds (f : TypeId → TypeId) (value : TypeValue) : TypeValue :=
  { value with shape := value.shape.mapIds f }

/-- The entries reachable from two roots correspond under `f`: one to one,
root to root, and each entry to itself with its children renumbered. -/
structure GraphIso (table : TypeTable) (root : TypeId) (table' : TypeTable) (root' : TypeId)
    (f : TypeId → TypeId) : Prop where
  bijOn : Set.BijOn f {id | table.Reachable root id} {id | table'.Reachable root' id}
  roots : f root = root'
  entry : ∀ id, table.Reachable root id →
    table'.get (f id) = (table.get id).map (TypeValue.mapIds f)

namespace Canonical

/-- The first place of an entry is kept by a map that tells the entries of
the list from it. -/
theorem idxOf?_map {f : TypeId → TypeId} {s : Set TypeId} (hf : Set.InjOn f s)
    {stack : List TypeId} {id : TypeId} (hstack : ∀ i ∈ stack, i ∈ s) (hid : id ∈ s) :
    (stack.map f).idxOf? (f id) = stack.idxOf? id := by
  induction stack with
  | nil => rfl
  | cons i stack ih =>
      have hi : (f i == f id) = (i == id) := by
        rw [Bool.eq_iff_iff, beq_iff_eq, beq_iff_eq]
        exact hf.eq_iff (hstack i (by simp)) hid
      rw [List.map_cons, List.idxOf?_cons, List.idxOf?_cons, hi,
        ih fun i hi => hstack i (List.mem_cons_of_mem _ hi)]

section

variable {table table' : TypeTable} {root root' : TypeId} {f : TypeId → TypeId}
  {opts : CanonicalOptions} {recur recur' : TypeId → List TypeId → Option CanonicalType}

/-- `aggregate` does the same at corresponding entries if the walks of their
members do. -/
theorem aggregate_renumber {s : Set TypeId} (hf : Set.InjOn f s) {id : TypeId}
    {stack : List TypeId} (hid : id ∈ s) (hstack : ∀ i ∈ stack, i ∈ s) (kind : RecordKind)
    (name : Option Text) (members : List TypeMember)
    (hmembers : ∀ m ∈ members,
      recur' (f m.ty) ((id :: stack).map f) = recur m.ty (id :: stack))
    (size : Option ℕ) (spellNamed : Bool) :
    aggregate recur' opts (f id) kind name (members.map (TypeMember.mapIds f)) size
        (stack.map f) spellNamed =
      aggregate recur opts id kind name members size stack spellNamed := by
  have hms : (members.map (TypeMember.mapIds f)).mapM
        (canonMember recur' opts (f id :: stack.map f)) =
      members.mapM (canonMember recur opts (id :: stack)) := by
    rw [List.mapM_map]
    refine mapM_congr fun m hm => ?_
    rw [canonMember, ← hmembers m hm]
    rfl
  rw [aggregate, aggregate, idxOf?_map hf hstack hid, hms]

/-- One level of the walk does the same at corresponding entries if the walks
of their children do. -/
theorem canonWith_renumber (hiso : GraphIso table root table' root' f)
    (hrecur : ∀ id stack, table.Reachable root id → (∀ i ∈ stack, table.Reachable root i) →
      recur' (f id) (stack.map f) = recur id stack)
    {id : TypeId} {stack : List TypeId} (hid : table.Reachable root id)
    (hstack : ∀ i ∈ stack, table.Reachable root i) (spellNamed : Bool) :
    canonWith table' opts recur' (f id) (stack.map f) spellNamed =
      canonWith table opts recur id stack spellNamed := by
  rw [canonWith, canonWith, hiso.entry id hid]
  cases hget : table.get id with
  | none => rfl
  | some value =>
      have hchild : ∀ child ∈ value.shape.children, table.Reachable root child :=
        fun child hchild => hid.tail ⟨value, hget, hchild⟩
      have hrec : ∀ child ∈ value.shape.children, ∀ stack',
          (∀ i ∈ stack', table.Reachable root i) →
          recur' (f child) (stack'.map f) = recur child stack' :=
        fun child hc stack' hstack' => hrecur child stack' (hchild child hc) hstack'
      -- A record is open itself around its members, and is reached like the rest of the stack.
      have hgrown : ∀ i ∈ id :: stack, table.Reachable root i :=
        List.forall_mem_cons.mpr ⟨hid, hstack⟩
      obtain ⟨shape, size⟩ := value
      simp only [Option.map_some, TypeValue.mapIds, Option.bind_eq_bind, Option.bind_some]
      cases shape with
      | struct name members =>
          exact aggregate_renumber hiso.bijOn.injOn hid hstack .struct name members
            (fun m hm => hrec m.ty (List.mem_map_of_mem hm) _ hgrown) size spellNamed
      | union name members =>
          exact aggregate_renumber hiso.bijOn.injOn hid hstack .union name members
            (fun m hm => hrec m.ty (List.mem_map_of_mem hm) _ hgrown) size spellNamed
      | ptr inner | array inner len | typedef name inner =>
          simp only [TypeShape.mapIds, hrec inner (List.mem_singleton_self _) stack hstack]
      | enum name underlying members isBitmask repr =>
          simp only [TypeShape.mapIds, hrec underlying (List.mem_singleton_self _) stack hstack]
      | function ret params varargs =>
          have hps : (params.map f).mapM (fun p => recur' p (stack.map f)) =
              params.mapM fun p => recur p stack := by
            rw [List.mapM_map]
            exact mapM_congr fun p hp => hrec p (List.mem_cons_of_mem _ hp) stack hstack
          simp only [TypeShape.mapIds, hps, hrec ret List.mem_cons_self stack hstack]
      | void | bool | int _ _ | float _ | opaqueNamed _ | unknown => rfl

end

theorem canon_renumber {table table' : TypeTable} {root root' : TypeId}
    {f : TypeId → TypeId} (hiso : GraphIso table root table' root' f)
    (opts : CanonicalOptions) (fuel : ℕ) {id : TypeId} {stack : List TypeId}
    (hid : table.Reachable root id) (hstack : ∀ i ∈ stack, table.Reachable root i)
    (spellNamed : Bool) :
    canon table' opts fuel (f id) (stack.map f) spellNamed =
      canon table opts fuel id stack spellNamed := by
  induction fuel generalizing id stack spellNamed with
  | zero => rfl
  | succ fuel ih =>
      exact canonWith_renumber hiso (fun id stack hid hstack => ih hid hstack false) hid hstack
        spellNamed

/-- The canonical form, its string and any digest of it are the same for
isomorphic handle graphs, however handles are numbered and whatever else the
two tables hold. -/
theorem canonicalize_graphIso (table : TypeTable) (root : TypeId) (table' : TypeTable)
    (root' : TypeId) (f : TypeId → TypeId) (hiso : GraphIso table root table' root' f)
    (opts : CanonicalOptions) (fuel : ℕ) :
    canonicalize fuel table' root' opts = canonicalize fuel table root opts ∧
      (canonicalize fuel table' root' opts).map CanonicalType.writeCanonical =
        (canonicalize fuel table root opts).map CanonicalType.writeCanonical ∧
      ∀ key : CanonicalType → BitVec 128,
        (canonicalize fuel table' root' opts).map key =
          (canonicalize fuel table root opts).map key := by
  have heq : canonicalize fuel table' root' opts = canonicalize fuel table root opts := by
    rw [canonicalize, canonicalize, ← hiso.roots]
    show canon table' opts fuel (f root) (List.map f []) true = _
    exact canon_renumber hiso opts fuel .refl (List.forall_mem_nil _) true
  exact ⟨heq, by rw [heq], fun key => by rw [heq]⟩

/-- The unnamed list node with its two entries swapped and a third between
them that nothing refers to. -/
def swappedNode : TypeTable where
  arena := [⟨.ptr 2, some 8⟩, ⟨.void, none⟩,
    ⟨.struct (some "$A1".toList) [⟨"next".toList, 0, 0, none, none⟩], some 8⟩]
  dedup := []

theorem canonicalize_graphIso_swappedNode :
    canonicalize 3 swappedNode 2 .strict = canonicalize 3 unnamedNode 0 .strict ∧
      (canonicalize 3 swappedNode 2 .strict).map CanonicalType.writeCanonical =
        (canonicalize 3 unnamedNode 0 .strict).map CanonicalType.writeCanonical ∧
      ∀ key : CanonicalType → BitVec 128,
        (canonicalize 3 swappedNode 2 .strict).map key =
          (canonicalize 3 unnamedNode 0 .strict).map key := by
  have hnode : ∀ id, unnamedNode.Reachable 0 id → id = 0 ∨ id = 1 := by
    intro id h
    induction h with
    | refl => exact .inl rfl
    | tail _ hedge ih =>
        obtain ⟨value, hget, hchild⟩ := hedge
        rcases ih with rfl | rfl <;> cases hget <;> simp_all [TypeShape.children]
  have hswapped : ∀ id, swappedNode.Reachable 2 id → id = 2 ∨ id = 0 := by
    intro id h
    induction h with
    | refl => exact .inl rfl
    | tail _ hedge ih =>
        obtain ⟨value, hget, hchild⟩ := hedge
        rcases ih with rfl | rfl <;> cases hget <;> simp_all [TypeShape.children]
  refine canonicalize_graphIso unnamedNode 0 swappedNode 2 (fun id => 2 - 2 * id) ?_ .strict 3
  have hptr : swappedNode.Reachable 2 0 :=
    .single ⟨_, rfl, by simp [TypeShape.children]⟩
  have hnext : unnamedNode.Reachable 0 1 :=
    .single ⟨_, rfl, by simp [TypeShape.children]⟩
  refine ⟨⟨?_, ?_, ?_⟩, rfl, ?_⟩
  · intro id hid
    rcases hnode id hid with rfl | rfl
    · exact .refl
    · exact hptr
  · intro i hi j hj hij
    rcases hnode i hi with rfl | rfl <;> rcases hnode j hj with rfl | rfl <;>
      first | rfl | cases hij
  · intro id hid
    rcases hswapped id hid with rfl | rfl
    · exact ⟨0, .refl, rfl⟩
    · exact ⟨1, hnext, rfl⟩
  · intro id hid
    rcases hnode id hid with rfl | rfl <;> rfl

end Canonical

end Idakit.Types
