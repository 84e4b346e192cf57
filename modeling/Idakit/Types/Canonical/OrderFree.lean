import Idakit.Types.Canonical.Subterms
import Idakit.Types.Canonical.Termination
import Idakit.Types.Interning

/-!
What the canonical form owes to the order in which unions list their members
and enums their constants. Both are sorted by name, and sorting by name leaves
what shares a name, or has none, in the order of the table.

An entry is walked under the aggregates that are open around it, so members are
compared by what they are spelled as there.
-/

namespace Idakit.Types

open Idakit.Library

inductive TypeValue.Permutes : TypeValue → TypeValue → Prop
  | same (value) : Permutes value value
  | union {name members members' size} (h : members.Perm members') :
      Permutes ⟨.union name members, size⟩ ⟨.union name members', size⟩
  | enum {name underlying members members' isBitmask repr size} (h : members.Perm members') :
      Permutes ⟨.enum name underlying members isBitmask repr, size⟩
        ⟨.enum name underlying members' isBitmask repr, size⟩

def TypeTable.Permutes (table table' : TypeTable) : Prop :=
  ∀ id, Option.Rel TypeValue.Permutes (table.get id) (table'.get id)

namespace Canonical

/-- No order of unions and enums changes the canonical form of the root. -/
def OrderIndependent (table : TypeTable) (root : TypeId) (opts : CanonicalOptions) : Prop :=
  ∀ table', table.Permutes table' → ∀ c,
    IsCanonicalForm table' opts root c ↔ IsCanonicalForm table opts root c

/-! ### What the walk visits -/

/-- An entry is taken apart: no name cuts it, and it is not open already. -/
def SpelledOut (shape : TypeShape) (stack : List TypeId) (id : TypeId) (spellNamed : Bool) : Prop :=
  match shape with
  | .struct name _ | .union name _ => (realTag name = none ∨ spellNamed = true) ∧ id ∉ stack
  | .enum name _ _ _ _ => realTag name = none ∨ spellNamed = true
  | _ => True

def grow (shape : TypeShape) (id : TypeId) (stack : List TypeId) : List TypeId :=
  match shape with
  | .struct _ _ | .union _ _ => id :: stack
  | _ => stack

inductive Visits (table : TypeTable) (root : TypeId) : List TypeId → TypeId → Bool → Prop
  | root : Visits table root [] root true
  | child {stack id spellNamed shape size child} (h : Visits table root stack id spellNamed)
      (hget : table.get id = some ⟨shape, size⟩) (hout : SpelledOut shape stack id spellNamed)
      (hchild : child ∈ shape.children) : Visits table root (grow shape id stack) child false

/-- Two members at one offset, of one width, and of types that are spelled the
same. -/
structure SpelledAlike (table : TypeTable) (opts : CanonicalOptions) (stack : List TypeId)
    (m m' : TypeMember) : Prop where
  bitOffset : opts.offset m.bitOffset = opts.offset m'.bitOffset
  bitfieldWidth : m.bitfieldWidth = m'.bitfieldWidth
  ty : ∀ c, Spells table opts stack m.ty false c ↔ Spells table opts stack m'.ty false c

/-- Members of one name are spelled alike in every union that is spelled, and
constants of one name have one value in every enum that is. -/
structure NamesTell (table : TypeTable) (root : TypeId) (opts : CanonicalOptions) : Prop where
  members : ∀ stack id spellNamed name members size, Visits table root stack id spellNamed →
    table.get id = some ⟨.union name members, size⟩ →
    SpelledOut (.union name members) stack id spellNamed →
    ∀ m ∈ members, ∀ m' ∈ members, m.name = m'.name →
      SpelledAlike table opts (id :: stack) m m'
  constants : ∀ stack id spellNamed name underlying members isBitmask repr size,
    Visits table root stack id spellNamed →
    table.get id = some ⟨.enum name underlying members isBitmask repr, size⟩ →
    SpelledOut (.enum name underlying members isBitmask repr) stack id spellNamed →
    ∀ m ∈ members, ∀ m' ∈ members, m.name = m'.name → m.value = m'.value

variable {table table' : TypeTable} {root : TypeId} {opts : CanonicalOptions}

/-! ### Names that tell are enough -/

theorem Permutes.get_eq (h : table.Permutes table') {id : TypeId} {value : TypeValue}
    (hget : table.get id = some value) :
    ∃ value', table'.get id = some value' ∧ value.Permutes value' := by
  have hrel := h id
  rw [hget] at hrel
  generalize hget' : table'.get id = entry' at hrel
  cases hrel with
  | some hvalue => exact ⟨_, rfl, hvalue⟩

theorem Permutes.get_record (h : table.Permutes table') {id : TypeId} {kind : RecordKind}
    {name : Option Text} {members : List TypeMember} {size : Option ℕ}
    (hget : table.get id = some ⟨recordShape kind name members, size⟩) :
    ∃ members', table'.get id = some ⟨recordShape kind name members', size⟩ ∧
      members.Perm members' ∧ (kind = .struct → members = members') := by
  obtain ⟨value', hget', hvalue⟩ := Permutes.get_eq h hget
  cases kind with
  | struct =>
      cases hvalue
      exact ⟨members, hget', .refl _, fun _ => rfl⟩
  | union =>
      cases hvalue with
      | same => exact ⟨members, hget', .refl _, fun _ => rfl⟩
      | union hmembers => exact ⟨_, hget', hmembers, nofun⟩

theorem constants_eq_of_perm {members members' : List EnumMember} (hperm : members.Perm members')
    (hvalue : ∀ m ∈ members, ∀ m' ∈ members, m.name = m'.name → m.value = m'.value) :
    constants members = constants members' := by
  refine sortByKey_eq_of_perm (hperm.map _) fun a ha b hb hkey => ?_
  obtain ⟨m, hm, rfl⟩ := List.mem_map.mp ha
  obtain ⟨m', hm', rfl⟩ := List.mem_map.mp hb
  exact Prod.ext hkey (hvalue m hm m' hm' hkey)

/-- Members that are spelled alike are spelled as one canonical member. -/
theorem SpelledAlike.eq {stack : List TypeId} {m m' : TypeMember}
    {c c' : CanonicalMember CanonicalType} (h : SpelledAlike table opts stack m m')
    (hname : m.name = m'.name)
    (hc : SpellsMember opts (fun i c => Spells table opts stack i false c) m c)
    (hc' : SpellsMember opts (fun i c => Spells table opts stack i false c) m' c') : c = c' := by
  obtain ⟨name, bitOffset, bitfieldWidth, ty⟩ := c
  obtain ⟨name', bitOffset', bitfieldWidth', ty'⟩ := c'
  obtain ⟨rfl, rfl, rfl, hty⟩ := hc
  obtain ⟨rfl, rfl, rfl, hty'⟩ := hc'
  have hty_eq : ty = ty' := ((h.ty ty).mp hty).unique hty'
  rw [hname, h.bitOffset, h.bitfieldWidth, hty_eq]

theorem spells_of_namesTell (hnames : NamesTell table root opts) (hperm : table.Permutes table')
    {stack : List TypeId} {id : TypeId} {spellNamed : Bool} {c : CanonicalType}
    (h : Spells table opts stack id spellNamed c) (hvisit : Visits table root stack id spellNamed) :
    Spells table' opts stack id spellNamed c := by
  revert hvisit
  -- Along the walk of the first table: the second one lists the same children at every entry.
  refine h.induct (P := fun stack id spellNamed c =>
    Visits table root stack id spellNamed → Spells table' opts stack id spellNamed c) ?_
  intro stack id spellNamed c h hvisit
  apply Spells.of_step
  cases h with
  | @leaf shape size c hget hleaf =>
      obtain ⟨value', hget', hvalue⟩ := Permutes.get_eq hperm hget
      cases hvalue with
      | same => exact .leaf hget' hleaf
      | union | enum => contradiction
  | @ptr inner size c hget hc =>
      obtain ⟨value', hget', ⟨⟩⟩ := Permutes.get_eq hperm hget
      exact .ptr hget' (hc.2 (hvisit.child hget trivial (List.mem_singleton_self inner)))
  | @array elem len size c hget hc =>
      obtain ⟨value', hget', ⟨⟩⟩ := Permutes.get_eq hperm hget
      exact .array hget' (hc.2 (hvisit.child hget trivial (List.mem_singleton_self elem)))
  | @typedef name underlying size c hget hc =>
      obtain ⟨value', hget', ⟨⟩⟩ := Permutes.get_eq hperm hget
      exact .typedef hget' (hc.2 (hvisit.child hget trivial (List.mem_singleton_self underlying)))
  | @function ret params varargs size r ps hget hr hps =>
      obtain ⟨value', hget', ⟨⟩⟩ := Permutes.get_eq hperm hget
      refine .function hget' (hr.2 (hvisit.child hget trivial List.mem_cons_self)) ?_
      obtain ⟨hlen, hzip⟩ := List.forall₂_iff_zip.mp hps
      refine List.forall₂_iff_zip.mpr ⟨hlen, fun {p c} hpc => (hzip hpc).2 ?_⟩
      exact hvisit.child hget trivial (List.mem_cons_of_mem _ (List.of_mem_zip hpc).1)
  | enumCut hget htag hroot =>
      obtain ⟨value', hget', hvalue⟩ := Permutes.get_eq hperm hget
      cases hvalue with
      | same => exact .enumCut hget' htag hroot
      | enum _ => exact .enumCut hget' htag hroot
  | enum hget hspell hc =>
      have hc := hc.2 (hvisit.child hget hspell (List.mem_singleton_self _))
      obtain ⟨value', hget', hvalue⟩ := Permutes.get_eq hperm hget
      cases hvalue with
      | same => exact .enum hget' hspell hc
      | enum hmembers =>
          rw [constants_eq_of_perm hmembers
            (hnames.constants _ _ _ _ _ _ _ _ _ hvisit hget hspell)]
          exact .enum hget' hspell hc
  | recordCut hget htag hroot =>
      obtain ⟨members', hget', -, -⟩ := Permutes.get_record hperm hget
      exact .recordCut hget' htag hroot
  | backRef hget hspell hdepth =>
      obtain ⟨members', hget', -, -⟩ := Permutes.get_record hperm hget
      exact .backRef hget' hspell hdepth
  | @record kind name members size ms hget hspell hfresh hms =>
      have hms' : List.Forall₂ (SpellsMember opts fun i c => Spells table' opts (id :: stack) i
          false c) members ms := by
        obtain ⟨hlen, hzip⟩ := List.forall₂_iff_zip.mp hms
        refine List.forall₂_iff_zip.mpr ⟨hlen, fun {m c} hmc => ?_⟩
        have hm := hzip hmc
        have hchild := List.mem_map_of_mem (f := TypeMember.ty) (List.of_mem_zip hmc).1
        refine { hm with ty := hm.ty.2 ?_ }
        cases kind with
        | struct => exact hvisit.child hget ⟨hspell, hfresh⟩ hchild
        | union => exact hvisit.child hget ⟨hspell, hfresh⟩ hchild
      -- The members of a structure keep their order; only a union's may be listed in another one.
      obtain ⟨members', hget', hmembers, hstruct⟩ := Permutes.get_record hperm hget
      cases kind with
      | struct =>
          obtain rfl := hstruct rfl
          exact .record hget' hspell hfresh hms'
      | union =>
          obtain ⟨ms', hms'', hmsPerm⟩ := List.perm_comp_forall₂ hmembers.symm hms'
          -- What shares a name in the sorted list is one and the same.
          have hsorted : sortByKey CanonicalMember.name ms =
              sortByKey CanonicalMember.name ms' := by
            refine sortByKey_eq_of_perm hmsPerm.symm fun a ha b hb hkey => ?_
            obtain ⟨hlen, hzip⟩ := List.forall₂_iff_zip.mp hms
            obtain ⟨m, hma⟩ := exists_mem_zip hlen ha
            obtain ⟨m', hmb⟩ := exists_mem_zip hlen hb
            have hname : m.name = m'.name := by
              rw [← (hzip hma).name, ← (hzip hmb).name, hkey]
            exact (hnames.members _ _ _ _ _ _ hvisit hget ⟨hspell, hfresh⟩ m
              (List.of_mem_zip hma).1 m' (List.of_mem_zip hmb).1 hname).eq hname
              ((hzip hma).imp fun _ _ h => h.1) ((hzip hmb).imp fun _ _ h => h.1)
          show SpellsStep _ _ _ _ _ _ (.aggregate _ _ (sortByKey _ ms) _)
          rw [hsorted]
          exact .record hget' hspell hfresh hms''

/-! ### Names have to tell -/

def listed : TypeShape → List TypeId
  | .union _ members => (sortByKey TypeMember.name members).map TypeMember.ty
  | shape => shape.children

theorem mem_listed {shape : TypeShape} {child : TypeId} :
    child ∈ listed shape ↔ child ∈ shape.children := by
  cases shape with
  | union name members => exact ((sortByKey_perm _ _).map _).mem_iff
  | _ => rfl

theorem not_spelledOut_of_tag {name : Option Text} {tag : Text} {spellNamed : Bool}
    (htag : realTag name = some tag) (hroot : spellNamed = false) :
    ¬ (realTag name = none ∨ spellNamed = true) := by
  simp [htag, hroot]

theorem mem_of_idxOf? {stack : List TypeId} {id : TypeId} {depth : ℕ}
    (h : stack.idxOf? id = some depth) : id ∈ stack := by
  by_contra hmem
  rw [List.idxOf?_eq_none_iff.mpr hmem] at h
  contradiction

/-- An entry that is taken apart is spelled child by child. -/
theorem SpellsStep.forall₂_children {R : List TypeId → TypeId → CanonicalType → Prop}
    {stack : List TypeId} {id : TypeId} {spellNamed : Bool} {c : CanonicalType}
    {shape : TypeShape} {size : Option ℕ} (h : SpellsStep table opts R stack id spellNamed c)
    (hget : table.get id = some ⟨shape, size⟩) (hout : SpelledOut shape stack id spellNamed) :
    List.Forall₂ (R (grow shape id stack)) (listed shape) c.children := by
  cases h with
  | leaf hget' hleaf =>
      cases hget.symm.trans hget'
      cases shape <;> cases hleaf <;> exact .nil
  | ptr hget' hc | array hget' hc | typedef hget' hc =>
      cases hget.symm.trans hget'
      exact .cons hc .nil
  | function hget' hr hps =>
      cases hget.symm.trans hget'
      exact .cons hr hps
  | enumCut hget' htag hroot =>
      cases hget.symm.trans hget'
      exact absurd hout (not_spelledOut_of_tag htag hroot)
  | enum hget' hspell hc =>
      cases hget.symm.trans hget'
      exact .cons hc .nil
  | @recordCut kind _ _ _ _ hget' htag hroot =>
      cases kind <;> cases hget.symm.trans hget' <;>
        exact absurd hout.1 (not_spelledOut_of_tag htag hroot)
  | @backRef kind name members size depth hget' hspell hdepth =>
      cases kind <;> cases hget.symm.trans hget' <;> exact absurd (mem_of_idxOf? hdepth) hout.2
  | @record kind name members size ms hget' hspell hfresh hms =>
      have hlisted := forall₂_arrange (fun _ _ hm => hm.name.symm) kind hms
      have htys : List.Forall₂ (R (id :: stack)) ((arrangeEntry kind members).map TypeMember.ty)
          ((arrange kind ms).map CanonicalMember.ty) := by
        rw [List.forall₂_map_left_iff, List.forall₂_map_right_iff]
        exact hlisted.imp fun _ _ hm => hm.ty
      cases kind <;> cases hget.symm.trans hget' <;> exact htys

/-- A union that is taken apart is spelled member by member. -/
theorem SpellsStep.union_inv {R : List TypeId → TypeId → CanonicalType → Prop}
    {stack : List TypeId} {id : TypeId} {spellNamed : Bool} {c : CanonicalType}
    {name : Option Text} {members : List TypeMember} {size : Option ℕ}
    (h : SpellsStep table opts R stack id spellNamed c)
    (hget : table.get id = some ⟨.union name members, size⟩)
    (hout : SpelledOut (.union name members) stack id spellNamed) :
    ∃ ms, List.Forall₂ (SpellsMember opts (R (id :: stack))) members ms ∧
      c = .aggregate (realTag name) .union (sortByKey CanonicalMember.name ms)
        (opts.size size) := by
  cases h with
  | leaf hget' hleaf =>
      cases hget.symm.trans hget'
      contradiction
  | ptr hget' | array hget' | typedef hget' | function hget' | enumCut hget' | enum hget' =>
      cases hget.symm.trans hget'
  | @recordCut kind _ _ _ _ hget' htag hroot =>
      cases kind <;> cases hget.symm.trans hget'
      exact absurd hout.1 (not_spelledOut_of_tag htag hroot)
  | @backRef kind _ _ _ _ hget' hspell hdepth =>
      cases kind <;> cases hget.symm.trans hget'
      exact absurd (mem_of_idxOf? hdepth) hout.2
  | @record kind _ _ _ ms hget' hspell hfresh hms =>
      cases kind <;> cases hget.symm.trans hget'
      exact ⟨ms, hms, rfl⟩

theorem SpellsStep.enum_inv {R : List TypeId → TypeId → CanonicalType → Prop}
    {stack : List TypeId} {id : TypeId} {spellNamed : Bool} {c : CanonicalType}
    {name : Option Text} {underlying : TypeId} {members : List EnumMember} {isBitmask : Bool}
    {repr : Option ValueRepr} {size : Option ℕ}
    (h : SpellsStep table opts R stack id spellNamed c)
    (hget : table.get id = some ⟨.enum name underlying members isBitmask repr, size⟩)
    (hout : SpelledOut (.enum name underlying members isBitmask repr) stack id spellNamed) :
    ∃ d, c = .enum (realTag name) d (constants members) (opts.size size) := by
  cases h with
  | leaf hget' hleaf =>
      cases hget.symm.trans hget'
      contradiction
  | ptr hget' | array hget' | typedef hget' | function hget' => cases hget.symm.trans hget'
  | enumCut hget' htag hroot =>
      cases hget.symm.trans hget'
      exact absurd hout (not_spelledOut_of_tag htag hroot)
  | enum hget' hspell hc =>
      cases hget.symm.trans hget'
      exact ⟨_, rfl⟩
  | @recordCut kind _ _ _ _ hget' | @backRef kind _ _ _ _ hget' | @record kind _ _ _ _ hget' =>
      cases kind <;> cases hget.symm.trans hget'

/-- Two entries have the same children in the same order: they are equal, or
enums that differ in their constants. -/
inductive SameParts : TypeShape → TypeShape → Prop
  | same (shape) : SameParts shape shape
  | enum {name underlying members members' isBitmask repr} :
      SameParts (.enum name underlying members isBitmask repr)
        (.enum name underlying members' isBitmask repr)

def SameAt (table table' : TypeTable) (id : TypeId) : Prop :=
  ∀ shape size, table.get id = some ⟨shape, size⟩ →
    ∃ shape', table'.get id = some ⟨shape', size⟩ ∧ SameParts shape shape'

theorem exists_of_mem_forall₂ {α β : Type} {R : α → β → Prop} {l : List α} {l' : List β}
    (h : List.Forall₂ R l l') {a : α} (ha : a ∈ l) : ∃ b, R a b := by
  induction h with
  | nil => simp at ha
  | cons hab _ ih =>
      rcases List.mem_cons.mp ha with rfl | ha
      · exact ⟨_, hab⟩
      · exact ih ha

/-- Where two tables spell the root the same, they spell the same whatever the
walk comes to through entries that have the same children in both. -/
theorem Visits.spells_both {stack : List TypeId} {id : TypeId} {spellNamed : Bool}
    (h : Visits table root stack id spellNamed)
    (hroot : ∃ c, Spells table opts [] root true c ∧ Spells table' opts [] root true c)
    (hplain : ∀ i shape size, table.get i = some ⟨shape, size⟩ → ¬ shape.IsRecord →
      SameAt table table' i)
    (hstack : ∀ i ∈ stack, SameAt table table' i) :
    ∃ c, Spells table opts stack id spellNamed c ∧ Spells table' opts stack id spellNamed c := by
  induction h with
  | root => exact hroot
  | @child stack id spellNamed shape size child h hget hout hchild ih =>
      obtain ⟨hsame, hbelow⟩ : SameAt table table' id ∧ ∀ i ∈ stack, SameAt table table' i := by
        by_cases hrecord : shape.IsRecord
        · have hgrow : grow shape id stack = id :: stack := by
            cases shape <;> first | rfl | exact hrecord.elim
          rw [hgrow] at hstack
          exact List.forall_mem_cons.mp hstack
        · have hgrow : grow shape id stack = stack := by
            cases shape <;> first | rfl | exact absurd trivial hrecord
          rw [hgrow] at hstack
          exact ⟨hplain id shape size hget hrecord, hstack⟩
      obtain ⟨c, hc, hc'⟩ := ih hbelow
      obtain ⟨shape', hget', hparts⟩ := hsame shape size hget
      have hparts_eq : SpelledOut shape' stack id spellNamed ∧ grow shape' id stack =
          grow shape id stack ∧ listed shape' = listed shape := by
        cases hparts with
        | same => exact ⟨hout, rfl, rfl⟩
        | enum => exact ⟨hout, rfl, rfl⟩
      obtain ⟨hout', hgrow, hlisted⟩ := hparts_eq
      have hforall := SpellsStep.forall₂_children hc.step hget hout
      have hforall' := SpellsStep.forall₂_children hc'.step hget' hout'
      rw [hgrow, hlisted] at hforall'
      exact exists_of_mem_forall₂ (forall₂_and hforall hforall') (mem_listed.mpr hchild)

/-- A step is one of any table with the same entry, if its children are spelled
there as well. -/
theorem SpellsStep.transport {R S : List TypeId → TypeId → CanonicalType → Prop}
    {stack : List TypeId} {id : TypeId} {spellNamed : Bool} {c : CanonicalType}
    (h : SpellsStep table opts R stack id spellNamed c) (hsame : table'.get id = table.get id)
    (hplain : ∀ i c, R stack i c → S stack i c)
    (hgrown : ∀ i c, R (id :: stack) i c → S (id :: stack) i c) :
    SpellsStep table' opts S stack id spellNamed c := by
  cases h with
  | leaf hget hleaf => exact .leaf (hsame.trans hget) hleaf
  | ptr hget hc => exact .ptr (hsame.trans hget) (hplain _ _ hc)
  | array hget hc => exact .array (hsame.trans hget) (hplain _ _ hc)
  | typedef hget hc => exact .typedef (hsame.trans hget) (hplain _ _ hc)
  | function hget hr hps =>
      exact .function (hsame.trans hget) (hplain _ _ hr) (hps.imp fun _ _ hp => hplain _ _ hp)
  | enumCut hget htag hroot => exact .enumCut (hsame.trans hget) htag hroot
  | enum hget hspell hc => exact .enum (hsame.trans hget) hspell (hplain _ _ hc)
  | recordCut hget htag hroot => exact .recordCut (hsame.trans hget) htag hroot
  | backRef hget hspell hdepth => exact .backRef (hsame.trans hget) hspell hdepth
  | record hget hspell hfresh hms =>
      exact .record (hsame.trans hget) hspell hfresh (hms.imp fun _ _ hm => hm.imp hgrown)

/-- A union that is open is not walked again, so its members do not matter. -/
theorem spells_of_open {u : TypeId} {name : Option Text} {members members' : List TypeMember}
    {size : Option ℕ} (hother : ∀ i ≠ u, table'.get i = table.get i)
    (hget : table.get u = some ⟨.union name members, size⟩)
    (hget' : table'.get u = some ⟨.union name members', size⟩) {stack : List TypeId} {id : TypeId}
    {spellNamed : Bool} {c : CanonicalType} (h : Spells table opts stack id spellNamed c)
    (hopen : u ∈ stack) : Spells table' opts stack id spellNamed c := by
  revert hopen
  refine h.induct (P := fun stack id spellNamed c =>
    u ∈ stack → Spells table' opts stack id spellNamed c) ?_
  intro stack id spellNamed c h hopen
  apply Spells.of_step
  by_cases hid : id = u
  · subst hid
    have hget' : table'.get id = some ⟨recordShape .union name members', size⟩ := hget'
    cases h with
    | @recordCut kind _ _ _ _ hget'' htag hroot =>
        cases kind <;> cases hget.symm.trans hget''
        exact .recordCut hget' htag hroot
    | @backRef kind _ _ _ _ hget'' hspell hdepth =>
        cases kind <;> cases hget.symm.trans hget''
        exact .backRef hget' hspell hdepth
    | record _ _ hfresh _ => exact absurd hopen hfresh
    | leaf hget'' hleaf =>
        cases hget.symm.trans hget''
        contradiction
    | ptr hget'' | array hget'' | typedef hget'' | function hget'' | enumCut hget''
    | enum hget'' => cases hget.symm.trans hget''
  · refine h.transport (hother id hid) (fun i c hc => hc.2 hopen) fun i c hc => hc.2 ?_
    exact List.mem_cons_of_mem _ hopen

theorem permutes_fill {later : TypeTable} {id : TypeId} {value value' : TypeValue}
    (hget : table.get id = some value) (hfill : table.fill id value' = some later)
    (hvalue : value.Permutes value') : table.Permutes later := by
  intro i
  by_cases hi : i = id
  · subst hi
    rw [hget, TypeTable.get_fill_self hfill]
    exact .some hvalue
  · rw [TypeTable.get_fill_of_ne hfill hi]
    cases table.get i with
    | none => exact .none
    | some value => exact .some (.same value)

theorem exists_fill {id : TypeId} {value : TypeValue} (hget : table.get id = some value)
    (value' : TypeValue) : ∃ later, table.fill id value' = some later := by
  have hlt := TypeTable.lt_len_of_get hget
  exact ⟨_, TypeTable.fill_eq_some_iff.mpr ⟨hlt, rfl⟩⟩

/-- Whichever member of a name is listed first, it is spelled as the first
canonical member of that name. -/
theorem spelled_as_first (hfree : OrderIndependent table root opts) {c₀ : CanonicalType}
    (hform : IsCanonicalForm table opts root c₀) {stack : List TypeId} {id : TypeId}
    {spellNamed : Bool} (hvisit : Visits table root stack id spellNamed) {name : Option Text}
    {members : List TypeMember} {size : Option ℕ}
    (hget : table.get id = some ⟨.union name members, size⟩)
    (hout : SpelledOut (.union name members) stack id spellNamed) {c : CanonicalType}
    (hc : Spells table opts stack id spellNamed c) {m : TypeMember} (hm : m ∈ members) :
    ∃ ms y rest, c = .aggregate (realTag name) .union ms (opts.size size) ∧
      ms.filter (CanonicalMember.name · = m.name) = y :: rest ∧
      SpellsMember opts (fun i c => Spells table opts (id :: stack) i false c) m y := by
  -- List the member first in the union, which does not change the form of the root.
  obtain ⟨before, after, hsplit⟩ := List.append_of_mem hm
  have hperm : members.Perm (m :: (before ++ after)) := by
    rw [hsplit]
    exact List.perm_middle
  obtain ⟨later, hfill⟩ := exists_fill hget ⟨.union name (m :: (before ++ after)), size⟩
  have hlater := permutes_fill hget hfill (.union hperm)
  have hget' := TypeTable.get_fill_self hfill
  have hother : ∀ i ≠ id, later.get i = table.get i := fun i hi =>
    TypeTable.get_fill_of_ne hfill hi
  have hsame : ∀ i ≠ id, SameAt table later i := fun i hi shape size hshape =>
    ⟨shape, (hother i hi).trans hshape, .same shape⟩
  obtain ⟨d, hd, hd'⟩ := hvisit.spells_both
    ⟨c₀, hform, (hfree later hlater c₀).mpr hform⟩
    (fun i shape size hshape hrecord => hsame i (by
      rintro rfl
      cases hget.symm.trans hshape
      exact hrecord trivial))
    (fun i hi => hsame i (by
      rintro rfl
      exact hout.2 hi))
  obtain rfl := hc.unique hd
  obtain ⟨ms, hms, rfl⟩ := SpellsStep.union_inv hd'.step hget' hout
  cases hms with
  | @cons _ y _ rest hy hrest =>
      refine ⟨_, y, rest.filter (CanonicalMember.name · = m.name), rfl, ?_, ?_⟩
      · rw [filter_sortByKey (k := m.name) (by simp),
          List.filter_cons_of_pos (by simpa using hy.name)]
      · refine hy.imp fun i c hc => ?_
        exact spells_of_open (fun i hi => (hother i hi).symm) hget' hget hc List.mem_cons_self

/-- Whichever constant of a name is listed first, it is the first canonical
constant of that name. -/
theorem constant_as_first (hfree : OrderIndependent table root opts) {c₀ : CanonicalType}
    (hform : IsCanonicalForm table opts root c₀) {stack : List TypeId} {id : TypeId}
    {spellNamed : Bool} (hvisit : Visits table root stack id spellNamed) {name : Option Text}
    {underlying : TypeId} {members : List EnumMember} {isBitmask : Bool}
    {repr : Option ValueRepr} {size : Option ℕ}
    (hget : table.get id = some ⟨.enum name underlying members isBitmask repr, size⟩)
    (hout : SpelledOut (.enum name underlying members isBitmask repr) stack id spellNamed)
    {m : EnumMember} (hm : m ∈ members) :
    ∃ rest, (constants members).filter (Prod.fst · = m.name) = (m.name, m.value) :: rest := by
  obtain ⟨before, after, hsplit⟩ := List.append_of_mem hm
  have hperm : members.Perm (m :: (before ++ after)) := by
    rw [hsplit]
    exact List.perm_middle
  obtain ⟨later, hfill⟩ :=
    exists_fill hget ⟨.enum name underlying (m :: (before ++ after)) isBitmask repr, size⟩
  have hlater := permutes_fill hget hfill (.enum hperm)
  have hget' := TypeTable.get_fill_self hfill
  have hsame : ∀ i, SameAt table later i := by
    intro i shape size' hshape
    by_cases hi : i = id
    · subst hi
      cases hget.symm.trans hshape
      exact ⟨_, hget', .enum⟩
    · exact ⟨shape, (TypeTable.get_fill_of_ne hfill hi).trans hshape, .same shape⟩
  obtain ⟨d, hd, hd'⟩ := hvisit.spells_both
    ⟨c₀, hform, (hfree later hlater c₀).mpr hform⟩ (fun i _ _ _ _ => hsame i) fun i _ => hsame i
  obtain ⟨e, rfl⟩ := SpellsStep.enum_inv hd.step hget hout
  obtain ⟨e', he'⟩ := SpellsStep.enum_inv hd'.step hget' hout
  obtain ⟨-, -, hconstants, -⟩ := CanonicalType.enum.inj he'
  rw [hconstants, constants, filter_sortByKey (k := m.name) (by simp), List.map_cons,
    List.filter_cons_of_pos (by simp)]
  exact ⟨_, rfl⟩

/-! ### When the order does not matter -/

/-- The order of unions and enums does not show in the canonical form exactly
when names tell their members and constants apart. -/
theorem orderIndependent_iff (hrange : table.HandlesInRange) (hcycles : table.CyclesMeetRecords)
    (hroot : root < table.len) (opts : CanonicalOptions) :
    OrderIndependent table root opts ↔ NamesTell table root opts := by
  obtain ⟨fuel, c₀, hfuel, -⟩ := canonicalize_terminates table hrange hcycles root hroot opts
  have hform : IsCanonicalForm table opts root c₀ := ⟨fuel, hfuel fuel le_rfl⟩
  constructor
  · intro hfree
    constructor
    · intro stack id spellNamed name members size hvisit hget hout m hm m' hm' hname
      -- Two members of one name can each be listed first among those that share it.
      have hsame : ∀ i, SameAt table table i := fun i shape size h => ⟨shape, h, .same shape⟩
      obtain ⟨c, hc, -⟩ := hvisit.spells_both ⟨c₀, hform, hform⟩ (fun i _ _ _ _ => hsame i)
        fun i _ => hsame i
      obtain ⟨ms, y, rest, rfl, hfilter, hy⟩ :=
        spelled_as_first hfree hform hvisit hget hout hc hm
      obtain ⟨ms', y', rest', hc', hfilter', hy'⟩ :=
        spelled_as_first hfree hform hvisit hget hout hc hm'
      obtain ⟨-, -, rfl, -⟩ := CanonicalType.aggregate.inj hc'
      rw [hname, hfilter'] at hfilter
      obtain ⟨rfl, -⟩ := List.cons.inj hfilter
      refine ⟨?_, ?_, fun d => ⟨fun hd => ?_, fun hd => ?_⟩⟩
      · rw [← hy.bitOffset, hy'.bitOffset]
      · rw [← hy.bitfieldWidth, hy'.bitfieldWidth]
      · rw [hd.unique hy.ty]
        exact hy'.ty
      · rw [hd.unique hy'.ty]
        exact hy.ty
    · intro stack id spellNamed name underlying members isBitmask repr size hvisit hget hout
        m hm m' hm' hname
      obtain ⟨rest, hfilter⟩ := constant_as_first hfree hform hvisit hget hout hm
      obtain ⟨rest', hfilter'⟩ := constant_as_first hfree hform hvisit hget hout hm'
      rw [hname, hfilter'] at hfilter
      exact (Prod.mk.inj (List.cons.inj hfilter).1).2.symm
  · intro hnames table' hperm c
    have hform' : IsCanonicalForm table' opts root c₀ := by
      have hspells : Spells table opts [] root true c₀ := hform
      exact spells_of_namesTell hnames hperm hspells .root
    constructor
    · intro hc
      have heq : c = c₀ := Spells.unique hc hform'
      rw [heq]
      exact hform
    · intro hc
      have heq : c = c₀ := Spells.unique hc hform
      rw [heq]
      exact hform'

def numberUnion (name name' : Text) : TypeTable where
  arena := [⟨.int 4 true, some 4⟩, ⟨.float 4, some 4⟩,
    ⟨.union (some ['U']) [⟨name, 0, 0, none, none⟩, ⟨name', 0, 1, none, none⟩], some 4⟩]
  dedup := []

theorem numberUnion_resolved (name name' : Text) :
    (numberUnion name name').HandlesInRange ∧ (numberUnion name name').CyclesMeetRecords := by
  constructor
  · rw [TypeTable.handlesInRange_iff]
    simp [numberUnion, TypeShape.children, TypeTable.len]
  · -- Scalars have no children, and a union is a record.
    refine TypeTable.cyclesMeetRecords_of_descending id ?_
    rintro i j ⟨value, hget, hplain, hj⟩
    obtain _ | _ | _ | i := i
    · cases hget
      simp [TypeShape.children] at hj
    · cases hget
      simp [TypeShape.children] at hj
    · cases hget
      exact absurd trivial hplain
    · cases hget

theorem orderIndependent_numberUnion : OrderIndependent (numberUnion ['i'] ['f']) 2 .strict := by
  obtain ⟨hrange, hcycles⟩ := numberUnion_resolved ['i'] ['f']
  refine (orderIndependent_iff hrange hcycles (by decide) .strict).mpr ⟨?_, ?_⟩
  · rintro stack id spellNamed name members size - hget - m hm m' hm' hname
    have heq : m = m' := by
      match id with
      | 2 =>
          cases hget
          simp only [List.mem_cons, List.not_mem_nil, or_false] at hm hm'
          rcases hm with rfl | rfl <;> rcases hm' with rfl | rfl <;>
            first | rfl | exact absurd hname (by decide)
      | 0 | 1 | i + 3 => cases hget
    rw [heq]
    exact ⟨rfl, rfl, fun _ => .rfl⟩
  · rintro stack id spellNamed name underlying members isBitmask repr size - hget
    match id with
    | 0 | 1 | 2 | i + 3 => cases hget

/-- Members without a name keep the order of the table. -/
theorem not_orderIndependent_numberUnion :
    (numberUnion [] []).HandlesInRange ∧ (numberUnion [] []).CyclesMeetRecords ∧
      ¬ OrderIndependent (numberUnion [] []) 2 .strict := by
  obtain ⟨hrange, hcycles⟩ := numberUnion_resolved [] []
  refine ⟨hrange, hcycles, fun hfree => ?_⟩
  obtain ⟨later, hfill⟩ : ∃ later, (numberUnion [] []).fill 2
      ⟨.union (some ['U']) [⟨[], 0, 1, none, none⟩, ⟨[], 0, 0, none, none⟩], some 4⟩ =
        some later := exists_fill rfl _
  have hperm := permutes_fill rfl hfill (.union (.swap _ _ _))
  obtain ⟨-, rfl⟩ := TypeTable.fill_eq_some_iff.mp hfill
  let i : CanonicalMember CanonicalType := ⟨[], some 0, none, .int (some 4) true⟩
  let f : CanonicalMember CanonicalType := ⟨[], some 0, none, .float (some 4)⟩
  have hswapped := (hfree _ hperm (.aggregate (some ['U']) .union [f, i] (some 4))).mp
    ⟨2, by decide⟩
  have hlisted : IsCanonicalForm (numberUnion [] []) .strict 2
      (.aggregate (some ['U']) .union [i, f] (some 4)) := ⟨2, by decide⟩
  have hsame := Spells.unique hswapped hlisted
  exact absurd hsame (by decide)

end Canonical

end Idakit.Types
