import Idakit.Facade.WalkEnvironment
import Idakit.Facade.Placeholders
import Idakit.Library.Fuel
import Idakit.Types.Resolved

/-!
What the walk of an environment's type leaves behind. Unless a typedef of an
unnamed struct, union or enum is met, the table unfolds to the environment's
unfolding of the type, with one handle for every name and every placeholder
filled once. Such a typedef is filled with itself, and its body is nowhere in
the table.
-/

namespace Idakit.Facade

open Idakit.Library Idakit.Types

variable {env : Environment} {lossy : Name → Text} {root t : TypeRef} {w : WalkState}
  {id : TypeId}

/-- The outcome of a walk is the environment's: it is accepted, every name met
has one handle, every placeholder is filled once, and the table unfolds to the
unfolding of the root. -/
structure Faithful (env : Environment) (root : TypeRef) (id : TypeId) (w : WalkState) :
    Prop where
  unfilled : w.builder.unfilled = 0
  accepted : walkType ⟨w.calls, some id⟩ = some (.ok (some ⟨w.builder.table, id⟩))
  names_nodup : (TypeBuilder.new.allottedNames w.calls).Nodup
  mem_names : ∀ n, n ∈ TypeBuilder.new.allottedNames w.calls ↔ env.Reaches root (.named n)
  filledOnce : ((TypeBuilder.new.allotted w.calls).map Prod.snd).Perm (w.calls.filterMap target)
  handles_nodup : ((TypeBuilder.new.allotted w.calls).map Prod.snd).Nodup
  unfolds : env.Unfolds w.builder.table root id

/-! ### Layouts -/

/-- The handles in a shape are those it was made over. -/
theorem children_bodyShape {body : Body TypeRef} {tag : Option Text} {ids : List TypeId}
    (hlen : body.children.length = ids.length) : (body.shape tag ids).children = ids := by
  cases body with
  | record isUnion members size =>
      have hmap : (List.zipWith Member.toTypeMember members ids).map TypeMember.ty = ids := by
        rw [List.map_zipWith]
        have hlen : members.length = ids.length := by simpa [Body.children] using hlen
        have hsnd := List.map_snd_zip hlen.ge
        rwa [List.map_zip_eq_zipWith] at hsnd
      cases isUnion <;> exact hmap
  | enumeration e =>
      obtain ⟨id, rfl⟩ := List.length_eq_one_iff.mp hlen.symm
      rfl

/-- The handles in a shape are those it was made over. -/
theorem children_shape {ids : List TypeId} (hlen : (env.children t).length = ids.length) :
    (env.shape t ids).children = ids := by
  have hone (h : 1 = ids.length) : ids = [ids.headD 0] := by
    obtain ⟨id, rfl⟩ := List.length_eq_one_iff.mp h.symm
    rfl
  cases t with
  | named n =>
      rw [Environment.children] at hlen
      rw [Environment.shape]
      cases hn : env.definition n with
      | none =>
          rw [hn] at hlen
          exact (List.length_eq_zero_iff.mp hlen.symm).symm
      | some d =>
          rw [hn] at hlen
          cases d with
          | typedef target => exact (hone hlen).symm
          | type body => exact children_bodyShape hlen
  | ptr target size | array elem nelems size => exact (hone hlen).symm
  | func ret args vararg =>
      cases ids with
      | nil => cases hlen
      | cons id ids => rfl
  | anonymous body => exact children_bodyShape hlen
  | _ => exact (List.length_eq_zero_iff.mp hlen.symm).symm

/-- A handle that two layouts of a reference share lays out its children at
the same handles. -/
theorem level_and {R S : TypeRef → TypeId → Prop} {table : TypeTable}
    (hR : (env.layout table).Level R t id) (hS : (env.layout table).Level S t id) :
    (env.layout table).Level (fun t id => R t id ∧ S t id) t id := by
  obtain ⟨ids, ⟨value, hget, hshape⟩, hall⟩ := hR
  obtain ⟨ids', ⟨value', hget', hshape'⟩, hall'⟩ := hS
  have hsame : ids = ids' := by
    rw [← children_shape hall.length_eq, ← children_shape hall'.length_eq, ← hshape, ← hshape']
    rw [hget] at hget'
    rw [Option.some.inj hget']
  subst hsame
  exact ⟨ids, ⟨value, hget, hshape⟩, Library.forall₂_and hall hall'⟩

/-! ### When the walk is over -/

section

variable {met : TypeRef → Prop} (h : Inv env met w) (hopened : w.builder.pending = [])
include h hopened

/-- A reference that stands at a handle is laid out there. -/
theorem Inv.level (hstands : env.Stands w.builder t id) (halias : ¬env.AliasesBody t) :
    (env.layout w.builder.table).Level (env.Stands w.builder) t id := by
  by_cases hnamed : ∃ n, t = .named n
  · obtain ⟨n, rfl⟩ := hnamed
    have hid : id ∉ w.builder.opened := by
      rw [TypeBuilder.opened, hopened]
      exact List.not_mem_nil
    exact (h.filled n id (Environment.stands_named_iff.mp hstands) hid).laid halias
  · exact ((Environment.stands_iff fun n hn => hnamed ⟨n, hn⟩).mp hstands).2

theorem Inv.unfolds (halias : ∀ t, env.Reaches root t → ¬env.AliasesBody t)
    (hstands : env.Stands w.builder root id) : env.Unfolds w.builder.table root id := by
  have hlevel (t : TypeRef) (id : TypeId)
      (ht : env.Stands w.builder t id ∧ env.Reaches root t) :
      (env.layout w.builder.table).Level
        (fun t id => env.Stands w.builder t id ∧ env.Reaches root t) t id := by
    obtain ⟨ids, hholds, hall⟩ := h.level hopened ht.1 (halias t ht.2)
    refine ⟨ids, hholds, ?_⟩
    have hboth := (List.forall₂_and_left _ _).mpr ⟨fun c hc => ht.2.tail hc, hall⟩
    exact hboth.imp fun _ _ hc => ⟨hc.2, hc.1⟩
  exact Presentation.unfolds_of hlevel ⟨hstands, .refl⟩

/-- Whatever is reached stands somewhere. -/
theorem Inv.exists_stands (halias : ∀ t, env.Reaches root t → ¬env.AliasesBody t)
    (hstands : env.Stands w.builder root id) (hreach : env.Reaches root t) :
    ∃ i, env.Stands w.builder t i := by
  induction hreach with
  | refl => exact ⟨id, hstands⟩
  | tail hreach hc ih =>
      obtain ⟨i, hi⟩ := ih
      obtain ⟨ids, -, hall⟩ := h.level hopened hi (halias _ hreach)
      obtain ⟨j, -, hj⟩ := exists_related hall hc
      exact ⟨j, hj⟩

/-- A typedef of an unnamed body is filled with itself, which is no body. -/
theorem Inv.not_unfolds (halias : env.AliasesBody t) (hstands : env.Stands w.builder t id) :
    ¬env.Unfolds w.builder.table t id := by
  intro hunfolds
  have hname := halias
  obtain ⟨n, body, rfl, hn⟩ := halias
  have hid : id ∉ w.builder.opened := by
    rw [TypeBuilder.opened, hopened]
    exact List.not_mem_nil
  obtain ⟨size, hget⟩ := (h.filled n id (Environment.stands_named_iff.mp hstands) hid).aliased hname
  obtain ⟨ids, ⟨value, hvalue, hshape⟩, hall⟩ := Presentation.unfolds_iff.mp hunfolds
  have hlen : (env.children (.named n)).length = ids.length := hall.length_eq
  have hids := children_shape hlen
  rw [hget] at hvalue
  cases hvalue
  rw [← hshape] at hids
  subst hids
  -- What the typedef stands for is the typedef again.
  have hchildren : (env.layout w.builder.table).children (.named n) = [.anonymous body] := by
    simp [Environment.layout, Environment.children, hn, TypeRef.knownAs]
  rw [hchildren] at hall
  obtain ⟨hself, -⟩ := List.forall₂_cons.mp hall
  obtain ⟨ids', ⟨value', hvalue', hshape'⟩, -⟩ := Presentation.unfolds_iff.mp hself
  rw [hget] at hvalue'
  cases hvalue'
  cases body with
  | record isUnion members size => cases isUnion <;> cases hshape'
  | enumeration e => cases hshape'

end

/-! ### The walk of a type -/

/-- Every walk ends; it leaves nothing pending, and the root stands at the
handle that it returns. -/
theorem completes_ty (hlossy : DecodesUtf8 lossy) (hroot : root.names ⊆ env.names) :
    Completes (fun fuel => ty (env.sdk lossy) fuel root) .start
      (Stood env (env.Reaches root) root.names .start root) :=
  walks_of_met hlossy (Environment.closes_reaches hroot) _ .refl .start ⟨inv_start, le_rfl⟩

theorem faithful_of_stood (hlossy : DecodesUtf8 lossy) {fuel : ℕ}
    (hwalk : ty (env.sdk lossy) fuel root .start = some (id, w))
    (hstood : Stood env (env.Reaches root) root.names .start root id w)
    (halias : ∀ t, env.Reaches root t → ¬env.AliasesBody t) : Faithful env root id w := by
  have hinv := hstood.inv
  have hstands := hstood.stands
  -- A walk from the start ends with nothing pending.
  have hpending : w.builder.pending = [] := hstood.went.pending_eq
  obtain ⟨calls, handles, hcalls, hrun, hfills⟩ := moves_ty fuel root _ _ _ hwalk
  have hcalls : w.calls = calls := hcalls
  subst hcalls
  obtain ⟨-, halong, -⟩ := hfills (Environment.decodesApart hlossy) known_start
  obtain ⟨hnodup, -, hnames⟩ := TypeBuilder.allottedNames_spec hrun
  constructor
  case unfilled => rw [TypeBuilder.unfilled, hpending, List.length_nil]
  case accepted =>
    have hunfilled : w.builder.unfilled = 0 := by
      rw [TypeBuilder.unfilled, hpending, List.length_nil]
    have hrun : TypeBuilder.new.run w.calls = some (handles, w.builder) := hrun
    simp [walkType, hrun, hinv.narrow, hunfilled]
  case names_nodup => exact hnodup
  case mem_names =>
    intro n
    have hmem : n ∈ TypeBuilder.new.allottedNames w.calls ↔
        w.builder.name2type.lookup n ≠ none := by
      rw [hnames n]
      simp [WalkState.start, TypeBuilder.new]
    rw [hmem, Option.ne_none_iff_exists']
    constructor
    · rintro ⟨i, hi⟩
      exact hinv.reached n i hi
    · intro hreach
      obtain ⟨i, hi⟩ := hinv.exists_stands hpending halias hstands hreach
      exact ⟨i, Environment.stands_named_iff.mp hi⟩
  case filledOnce =>
    have hperm := TypeBuilder.perm_fills (b := WalkState.start.builder) .nil
      TypeBuilder.holdsPlaceholders_new halong hrun
    rw [hpending] at hperm
    simpa [WalkState.start, TypeBuilder.new] using hperm
  case handles_nodup => exact (TypeBuilder.allotted_increases hrun).1.imp fun h => h.ne
  case unfolds => exact hinv.unfolds hpending halias hstands

/-- Where the table unfolds to the root's unfolding, no typedef of an unnamed
body is reached. -/
theorem not_aliasesBody_of_unfolds
    (hstood : Stood env (env.Reaches root) root.names .start root id w)
    (hunfolds : env.Unfolds w.builder.table root id) (hreach : env.Reaches root t) :
    ¬env.AliasesBody t := by
  have hinv := hstood.inv
  have hstands := hstood.stands
  have hpending : w.builder.pending = [] := hstood.went.pending_eq
  have hboth : ∃ i, env.Stands w.builder t i ∧ env.Unfolds w.builder.table t i := by
    induction hreach with
    | refl => exact ⟨id, hstands, hunfolds⟩
    | tail hreach hc ih =>
        obtain ⟨i, hi, hi'⟩ := ih
        have halias := fun halias => hinv.not_unfolds hpending halias hi hi'
        obtain ⟨ids, -, hall⟩ :=
          level_and (hinv.level hpending hi halias) (Presentation.unfolds_iff.mp hi')
        obtain ⟨j, -, hj⟩ := exists_related hall hc
        exact ⟨j, hj⟩
  obtain ⟨i, hi, hi'⟩ := hboth
  exact fun halias => hinv.not_unfolds hpending halias hi hi'

theorem not_aliasesBody_of_completes (hlossy : DecodesUtf8 lossy) (hroot : root.names ⊆ env.names)
    (h : Completes (fun fuel => ty (env.sdk lossy) fuel root) .start (Faithful env root))
    (hreach : env.Reaches root t) : ¬env.AliasesBody t := by
  obtain ⟨id, w, -, hstood, hfaithful⟩ := (completes_ty hlossy hroot).and h
  exact not_aliasesBody_of_unfolds hstood hfaithful.unfolds hreach

/-- The walk of a type ends, and it ends faithfully exactly when the type leads
to no typedef whose target is an unnamed struct, union or enum. -/
theorem completes_faithful_iff (env : Environment) (lossy : Name → Text)
    (hlossy : DecodesUtf8 lossy) (root : TypeRef) (hroot : root.names ⊆ env.names) :
    Completes (fun fuel => ty (env.sdk lossy) fuel root) .start (Faithful env root) ↔
      ∀ t, env.Reaches root t → ¬env.AliasesBody t := by
  constructor
  · exact fun h t hreach => not_aliasesBody_of_completes hlossy hroot h hreach
  · intro halias
    obtain ⟨id, w, ⟨least, hends⟩, hstood⟩ := completes_ty hlossy hroot
    refine ⟨id, w, ⟨least, hends⟩, ?_⟩
    exact faithful_of_stood hlossy (hends least le_rfl) hstood halias

/-! ### Two environments -/

def decodeUtf8 (nm : Name) : Text := (nm.toByteArray.utf8Decode?.map Array.toList).getD []

theorem decodesUtf8_decodeUtf8 : DecodesUtf8 decodeUtf8 := by
  intro text
  have hbytes : text.asBytes.toByteArray = text.utf8Encode := rfl
  rw [decodeUtf8, hbytes, List.utf8Decode?_utf8Encode]
  rfl

/-- `typedef struct node node_t; struct node { node_t *next; };` -/
def nodeEnvironment : Environment where
  definitions := [
    ("node".toList, .type (.record false
      [⟨"next".toList, 0, .ptr (.named "node_t".toList) (some 8), none, ⟨0, false, false⟩⟩]
      (some 8))),
    ("node_t".toList, .typedef (.named "node".toList))]
  nodup_names := by decide
  names_ne_nil := by decide
  closed := by decide

theorem completes_faithful_node :
    Completes (fun fuel => ty (nodeEnvironment.sdk decodeUtf8) fuel (.named "node".toList)) .start
      (Faithful nodeEnvironment (.named "node".toList)) := by
  refine (completes_faithful_iff nodeEnvironment decodeUtf8 decodesUtf8_decodeUtf8
    (.named "node".toList) (by decide)).mpr ?_
  rintro t - ⟨n, body, rfl, hn⟩
  have hmem := Environment.mem_of_definition hn
  simp [nodeEnvironment] at hmem

/-- `typedef struct {} empty;` -/
def emptyEnvironment : Environment where
  definitions := [("empty".toList, .typedef (.anonymous (.record false [] (some 1))))]
  nodup_names := by decide
  names_ne_nil := by decide
  closed := by decide

/-- The typedef of an unnamed struct is filled with itself. -/
theorem not_completes_faithful_empty :
    ¬∀ (env : Environment) (lossy : Name → Text), DecodesUtf8 lossy →
      ∀ root : TypeRef, root.names ⊆ env.names →
        Completes (fun fuel => ty (env.sdk lossy) fuel root) .start (Faithful env root) := by
  intro h
  have hcompletes := h emptyEnvironment decodeUtf8 decodesUtf8_decodeUtf8
    (.named "empty".toList) (by decide)
  exact not_aliasesBody_of_completes decodesUtf8_decodeUtf8 (by decide) hcompletes .refl
    ⟨_, _, rfl, rfl⟩

end Idakit.Facade
