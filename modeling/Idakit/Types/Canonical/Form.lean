import Idakit.Types.Canonical.Walk

/-!
The shape of what the walk produces under the ABI-exact options. A root is
spelled out, never a cut or a back-reference; below it every tagged
aggregate is cut to its name, so the aggregates spelled there have no tag;
back-references lead to enclosing aggregates without a tag; union members
and enum constants stand in name order; and no width or offset is missing.
-/

namespace Idakit.Types

open Idakit.Library

/-- Every pointer entry reachable from the root has a size of its own that
fits the width of a canonical pointer. -/
def TypeTable.PointerWidths (table : TypeTable) (root : TypeId) : Prop :=
  ∀ id inner size, table.Reachable root id → table.get id = some ⟨.ptr inner, size⟩ →
    ∃ width < 256, size = some width

namespace Canonical

/-- A tag that a spelled aggregate may carry: a stable one at the root, none
below it. -/
def TagFits (spellNamed : Bool) (tag : Option Text) : Prop :=
  ∀ t ∈ tag, isSynthetic t = false ∧ spellNamed = true

/-- The shape of a canonical type inside aggregates with the tags `frames`,
innermost first; `spellNamed` is set at the root. -/
inductive Form : Bool → List (Option Text) → CanonicalType → Prop
  | void {spellNamed frames} : Form spellNamed frames .void
  | bool {spellNamed frames} : Form spellNamed frames .bool
  | int {spellNamed frames bytes signed} : Form spellNamed frames (.int (some bytes) signed)
  | float {spellNamed frames bytes} : Form spellNamed frames (.float (some bytes))
  | ptr {spellNamed frames pointee width} (hc : Form false frames pointee)
      (hwidth : width < 256) : Form spellNamed frames (.ptr pointee (some width))
  | array {spellNamed frames elem len} (hc : Form false frames elem) :
      Form spellNamed frames (.array elem len)
  | named {frames tag kind} (hreal : isSynthetic tag = false) :
      Form false frames (.named tag kind)
  | aggregate {spellNamed frames tag kind members size} (htag : TagFits spellNamed tag)
      (hsorted : arrange kind members = members)
      (hoffset : ∀ m ∈ members, m.bitOffset.isSome)
      (hms : ∀ m ∈ members, Form false (tag :: frames) m.ty) :
      Form spellNamed frames (.aggregate tag kind members size)
  | enum {spellNamed frames tag underlying members size} (htag : TagFits spellNamed tag)
      (hsorted : SortedByKey Prod.fst members) (hc : Form false frames underlying) :
      Form spellNamed frames (.enum tag underlying members size)
  | function {spellNamed frames ret params varargs} (hr : Form false frames ret)
      (hps : ∀ p ∈ params, Form false frames p) :
      Form spellNamed frames (.function ret params varargs)
  | typedef {spellNamed frames name underlying} (hc : Form false frames underlying) :
      Form spellNamed frames (.typedef name underlying)
  | opaqueNamed {spellNamed frames name} : Form spellNamed frames (.opaqueNamed name)
  | backRef {frames} {n : ℕ+} (hframe : frames[n.natPred]? = some none) :
      Form false frames (.backRef n)

theorem isSynthetic_of_realTag {name : Option Text} {tag : Text}
    (h : realTag name = some tag) : isSynthetic tag = false := by
  have hfilter := (Option.filter_eq_some_iff.mp h).2
  rwa [Bool.not_eq_true'] at hfilter

/-- A stable tag is its own stable tag. -/
theorem TagFits.realTag_eq {spellNamed : Bool} {tag : Option Text}
    (h : TagFits spellNamed tag) : realTag tag = tag := by
  cases tag with
  | none => rfl
  | some t => simp [realTag, (h t rfl).1]

theorem TagFits.spell {spellNamed : Bool} {tag : Option Text} (h : TagFits spellNamed tag) :
    realTag tag = none ∨ spellNamed = true := by
  cases tag with
  | none => exact .inl rfl
  | some t => exact .inr (h t rfl).2

theorem tagFits_realTag {spellNamed : Bool} {name : Option Text}
    (hspell : realTag name = none ∨ spellNamed = true) : TagFits spellNamed (realTag name) := by
  intro t ht
  refine ⟨isSynthetic_of_realTag ht, hspell.resolve_left ?_⟩
  rw [ht]
  exact Option.some_ne_none t

/-- An arranged list of members is in its place. -/
theorem arrange_arrange (kind : RecordKind) (members : List (CanonicalMember CanonicalType)) :
    arrange kind (arrange kind members) = arrange kind members := by
  cases kind with
  | struct => rfl
  | union => exact (sortByKey_sorted _ _).sortByKey_eq

theorem mem_arrange {kind : RecordKind} {members : List (CanonicalMember CanonicalType)}
    {m : CanonicalMember CanonicalType} : m ∈ arrange kind members ↔ m ∈ members := by
  cases kind with
  | struct => exact .rfl
  | union => exact mem_sortByKey

def IsFrame (table : TypeTable) (id : TypeId) (tag : Option Text) : Prop :=
  ∃ kind name members size,
    table.get id = some ⟨recordShape kind name members, size⟩ ∧ realTag name = tag

theorem IsFrame.realTag_eq {table : TypeTable} {id : TypeId} {tag name : Option Text}
    {kind : RecordKind} {members : List TypeMember} {size : Option ℕ}
    (h : IsFrame table id tag)
    (hget : table.get id = some ⟨recordShape kind name members, size⟩) :
    tag = realTag name := by
  obtain ⟨kind', name', members', size', hget', rfl⟩ := h
  rw [hget] at hget'
  cases kind <;> cases kind' <;> cases hget' <;> rfl

/-- What is spelled has the shape of a canonical form. The stack is empty at
the root, so a back-reference is only ever made below it, to a record that
no tag cuts. -/
theorem Spells.form {table : TypeTable} {root : TypeId} (hwidths : table.PointerWidths root)
    {stack : List TypeId} {id : TypeId} {spellNamed : Bool} {c : CanonicalType}
    (h : Spells table .strict stack id spellNamed c) :
    table.Reachable root id → (spellNamed = true → stack = []) →
      ∀ frames, List.Forall₂ (IsFrame table) stack frames → Form spellNamed frames c := by
  -- Along the walk, `frames` being the tags of the records that it has open.
  refine h.induct (P := fun stack id spellNamed c =>
    table.Reachable root id → (spellNamed = true → stack = []) →
      ∀ frames, List.Forall₂ (IsFrame table) stack frames → Form spellNamed frames c) ?_
  intro stack id spellNamed c h hreach hroot frames hframes
  have hbelow : false = true → stack = [] := fun h => nomatch h
  cases h with
  | @leaf shape size c hget hleaf =>
      cases shape <;> cases hleaf <;> constructor
  | @ptr inner size c hget hc =>
      have hedge := hreach.tail ⟨_, hget, List.mem_singleton_self inner⟩
      obtain ⟨width, hlt, rfl⟩ := hwidths id inner size hreach hget
      have hw : CanonicalOptions.strict.ptrWidth (some width) = some width := if_pos hlt
      rw [hw]
      exact .ptr (hc.2 hedge hbelow frames hframes) hlt
  | @array elem len size c hget hc =>
      have hedge := hreach.tail ⟨_, hget, List.mem_singleton_self elem⟩
      exact .array (hc.2 hedge hbelow frames hframes)
  | @typedef name underlying size c hget hc =>
      have hedge := hreach.tail ⟨_, hget, List.mem_singleton_self underlying⟩
      exact .typedef (hc.2 hedge hbelow frames hframes)
  | @function ret params varargs size r ps hget hr hps =>
      have hedge := hreach.tail ⟨_, hget, List.mem_cons_self⟩
      refine .function (hr.2 hedge hbelow frames hframes) fun c hc => ?_
      obtain ⟨hlen, hps⟩ := List.forall₂_iff_zip.mp hps
      obtain ⟨p, hp⟩ := exists_mem_zip hlen hc
      have hedge := hreach.tail
        ⟨_, hget, List.mem_cons_of_mem ret (List.of_mem_zip hp).1⟩
      exact (hps hp).2 hedge hbelow frames hframes
  | enumCut hget htag hroot' =>
      subst hroot'
      exact .named (isSynthetic_of_realTag htag)
  | @enum name underlying members isBitmask repr size c hget hspell hc =>
      have hedge := hreach.tail ⟨_, hget, List.mem_singleton_self underlying⟩
      exact .enum (tagFits_realTag hspell) (sortByKey_sorted _ _)
        (hc.2 hedge hbelow frames hframes)
  | recordCut hget htag hroot' =>
      subst hroot'
      exact .named (isSynthetic_of_realTag htag)
  | @backRef kind name members size depth hget hspell hdepth =>
      obtain ⟨hlt, hid, -⟩ := List.idxOf?_eq_some_iff.mp hdepth
      -- At the root nothing is open yet, so what closes a cycle is not the root.
      have hfalse : spellNamed = false := by
        by_contra htrue
        rw [hroot (by simpa using htrue)] at hlt
        exact absurd hlt (Nat.not_lt_zero _)
      subst hfalse
      have hlt' : depth < frames.length := hframes.length_eq ▸ hlt
      have hframe := hframes.get hlt hlt'
      rw [List.get_eq_getElem, List.get_eq_getElem, hid] at hframe
      apply Form.backRef
      rw [Nat.natPred_succPNat, List.getElem?_eq_getElem hlt', hframe.realTag_eq hget,
        hspell.resolve_right Bool.false_ne_true]
  | @record kind name members size ms hget hspell hfresh hms =>
      obtain ⟨hlen, hms⟩ := List.forall₂_iff_zip.mp hms
      have hmember : ∀ cm ∈ ms, ∃ m ∈ members, SpellsMember .strict
          (fun i c => Spells table .strict (id :: stack) i false c ∧
            (table.Reachable root i → (false = true → id :: stack = []) →
              ∀ frames, List.Forall₂ (IsFrame table) (id :: stack) frames →
                Form false frames c)) m cm := by
        intro cm hcm
        obtain ⟨m, hm⟩ := exists_mem_zip hlen hcm
        exact ⟨m, (List.of_mem_zip hm).1, hms hm⟩
      refine .aggregate (tagFits_realTag hspell) (arrange_arrange kind ms) ?_ ?_
      · intro cm hcm
        obtain ⟨m, -, hm⟩ := hmember cm (mem_arrange.mp hcm)
        rw [hm.bitOffset]
        rfl
      · intro cm hcm
        obtain ⟨m, hmem, hm⟩ := hmember cm (mem_arrange.mp hcm)
        have hchild : m.ty ∈ (recordShape kind name members).children := by
          rw [children_recordShape]
          exact List.mem_map_of_mem hmem
        exact hm.ty.2 (hreach.tail ⟨_, hget, hchild⟩) (fun h => nomatch h) _
          (.cons ⟨kind, name, members, size, hget, rfl⟩ hframes)

end Canonical

end Idakit.Types
