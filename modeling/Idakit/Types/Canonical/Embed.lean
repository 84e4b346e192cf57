import Idakit.Types.Canonical.Form
import Idakit.Types.Interning

/-!
Rebuilding a table from a canonical form. Back-references are resolved
through a stack of the handles reserved for the enclosing aggregates, the
mirror of the walk's own stack; a cut becomes an entry with the tag and no
body. Canonicalizing the rebuilt table gives the form back.

An entry reserved for an aggregate is filled only after its members are
built, so what the walk finds behind it is known for the finished table
only: the statements about a part of the form speak of every later table in
which the entries built so far are still there, the open ones excepted.
-/

namespace Idakit.Types.Canonical

open Idakit.Library

def embedCanonicalNamedStub (tag : Text) (kind : AggregateKind) (table : TypeTable) :
    TypeId × TypeTable :=
  match kind with
  | .struct => table.intern ⟨.struct (some tag) [], none⟩
  | .union => table.intern ⟨.union (some tag) [], none⟩
  | .enum =>
      let (underlying, table) := table.intern ⟨.int 4 false, some 4⟩
      table.intern ⟨.enum (some tag) underlying [] false none, none⟩

mutual

/-- Rebuild the entries of a canonical type. The head of the stack is the
innermost open aggregate; a width or offset that is missing panics, and so
does a back-reference past the stack. -/
def embedCanonical (c : CanonicalType) (stack : List TypeId) (table : TypeTable) :
    Option (TypeId × TypeTable) :=
  match c with
  | .void => some (table.intern ⟨.void, none⟩)
  | .bool => some (table.intern ⟨.bool, some 1⟩)
  | .int bytes signed => do
      let bytes ← bytes
      return table.intern ⟨.int bytes signed, some bytes⟩
  | .float bytes => do
      let bytes ← bytes
      return table.intern ⟨.float bytes, some bytes⟩
  | .ptr pointee width => do
      let (inner, table) ← embedCanonical pointee stack table
      let width ← width
      return table.intern ⟨.ptr inner, some width⟩
  | .array elem len => do
      let (inner, table) ← embedCanonical elem stack table
      return table.intern ⟨.array inner len, none⟩
  | .named tag kind => some (embedCanonicalNamedStub tag kind table)
  | .aggregate tag kind members size => do
      let (id, table) := table.allocPlaceholder
      let (members, table) ← embedMembers members (id :: stack) table
      let table ← table.fill id ⟨recordShape kind tag members, size⟩
      return (id, table)
  | .enum tag underlying members size => do
      let (underlying, table) ← embedCanonical underlying stack table
      return table.intern
        ⟨.enum tag underlying (members.map fun m => ⟨m.1, m.2⟩) false none, size⟩
  | .function ret params varargs => do
      let (ret, table) ← embedCanonical ret stack table
      let (params, table) ← embedParams params stack table
      return table.intern ⟨.function ret params varargs, none⟩
  | .typedef name underlying => do
      let (underlying, table) ← embedCanonical underlying stack table
      return table.intern ⟨.typedef name underlying, none⟩
  | .opaqueNamed name => some (table.intern ⟨.opaqueNamed name, none⟩)
  | .backRef n => do
      let id ← stack[n.natPred]?
      return (id, table)

def embedMembers (members : List (CanonicalMember CanonicalType)) (stack : List TypeId)
    (table : TypeTable) : Option (List TypeMember × TypeTable) :=
  match members with
  | [] => some ([], table)
  | ⟨name, bitOffset, bitfieldWidth, ty⟩ :: members => do
      let bitOffset ← bitOffset
      let (ty, table) ← embedCanonical ty stack table
      let (members, table) ← embedMembers members stack table
      return (⟨name, bitOffset, ty, bitfieldWidth, none⟩ :: members, table)

def embedParams (params : List CanonicalType) (stack : List TypeId) (table : TypeTable) :
    Option (List TypeId × TypeTable) :=
  match params with
  | [] => some ([], table)
  | param :: params => do
      let (param, table) ← embedCanonical param stack table
      let (params, table) ← embedParams params stack table
      return (param :: params, table)

end

attribute [grind =] embedCanonical embedMembers embedParams

/-! ### Later tables -/

/-- The entries of `table` that are not open are still there in `final`. -/
def Settled (stack : List TypeId) (table final : TypeTable) : Prop :=
  ∀ i < table.len, i ∉ stack → final.get i = table.get i

theorem Settled.of_grows {stack : List TypeId} {table later final : TypeTable}
    (h : Settled stack later final) (hgrows : table.Grows later) : Settled stack table final :=
  fun i hi hclosed => (h i (hi.trans_le hgrows.len_le) hclosed).trans (hgrows.get_eq i hi)

structure Builds (stack : List TypeId) (table later : TypeTable) : Prop where
  sound : later.Sound stack
  grows : table.Grows later

theorem Builds.trans {stack : List TypeId} {table later last : TypeTable}
    (h : Builds stack table later) (h' : Builds stack later last) : Builds stack table last :=
  ⟨h'.sound, h.grows.trans h'.grows⟩

/-- An interned value is found under its handle in every later table. -/
theorem builds_intern {stack : List TypeId} {table : TypeTable} (h : table.Sound stack)
    (value : TypeValue) :
    Builds stack table (table.intern value).2 ∧ ∀ final,
      Settled stack (table.intern value).2 final → final.get (table.intern value).1 = some value := by
  obtain ⟨hsound, hgrows, hget, hclosed⟩ := h.intern value
  exact ⟨⟨hsound, hgrows⟩, fun final hfinal =>
    (hfinal _ (TypeTable.lt_len_of_get hget) hclosed).trans hget⟩

/-- The handles of the open aggregates are distinct, and a later table holds
records with the tags `frames` under them. -/
structure Frames (stack : List TypeId) (frames : List (Option Text)) (final : TypeTable) :
    Prop where
  nodup : stack.Nodup
  records : List.Forall₂ (IsFrame final) stack frames

/-- Rebuilding `c` succeeds, and in every later table the walk spells `c`
from the rebuilt entry. -/
def Embeds (frames : List (Option Text)) (spellNamed : Bool) (c : CanonicalType) : Prop :=
  ∀ stack table, stack.length = frames.length → table.Sound stack →
    ∃ id later, embedCanonical c stack table = some (id, later) ∧ Builds stack table later ∧
      ∀ final, Settled stack later final → Frames stack frames final →
        Spells final .strict stack id spellNamed c

section

variable {frames : List (Option Text)} {spellNamed : Bool} {c d : CanonicalType}

/-- A type that is rebuilt as one interned entry. -/
theorem Embeds.leaf (value : TypeValue)
    (hcode : ∀ stack table, embedCanonical d stack table = some (table.intern value))
    (hspell : ∀ final stack id, final.get id = some value →
      Spells final .strict stack id spellNamed d) : Embeds frames spellNamed d := by
  intro stack table hlen hsound
  obtain ⟨hbuilds, hget⟩ := builds_intern hsound value
  exact ⟨_, _, hcode stack table, hbuilds, fun final hfinal _ =>
    hspell final stack _ (hget final hfinal)⟩

/-- A type that is rebuilt as one entry over the entry of its one child. -/
theorem Embeds.wrap (hc : Embeds frames false c) (value : TypeId → TypeValue)
    (hcode : ∀ stack table, embedCanonical d stack table =
      (embedCanonical c stack table).map fun r => r.2.intern (value r.1))
    (hspell : ∀ final stack id inner, final.get id = some (value inner) →
      Spells final .strict stack inner false c → Spells final .strict stack id spellNamed d) :
    Embeds frames spellNamed d := by
  intro stack table hlen hsound
  obtain ⟨inner, middle, hinner, hbuilds, hspells⟩ := hc stack table hlen hsound
  obtain ⟨hbuilds', hget⟩ := builds_intern hbuilds.sound (value inner)
  refine ⟨(middle.intern (value inner)).1, _, ?_, hbuilds.trans hbuilds',
    fun final hfinal hframes => ?_⟩
  · rw [hcode, hinner]
    rfl
  · exact hspell final stack _ inner (hget final hfinal)
      (hspells final (hfinal.of_grows hbuilds'.grows) hframes)

theorem embeds_ptr {width : ℕ} (hc : Embeds frames false c) (hwidth : width < 256) :
    Embeds frames spellNamed (.ptr c (some width)) := by
  refine hc.wrap (fun inner => ⟨.ptr inner, some width⟩) ?_ ?_
  · intro stack table
    rw [embedCanonical]
    cases embedCanonical c stack table <;> rfl
  · intro final stack id inner hget hspells
    have hw : CanonicalOptions.strict.ptrWidth (some width) = some width := if_pos hwidth
    rw [← hw]
    exact .of_step (.ptr hget hspells)

theorem embeds_array {len : ℕ} (hc : Embeds frames false c) :
    Embeds frames spellNamed (.array c len) := by
  refine hc.wrap (fun inner => ⟨.array inner len, none⟩) ?_ ?_
  · intro stack table
    rw [embedCanonical]
    cases embedCanonical c stack table <;> rfl
  · intro final stack id inner hget hspells
    exact .of_step (.array hget hspells)

theorem embeds_typedef {name : Text} (hc : Embeds frames false c) :
    Embeds frames spellNamed (.typedef name c) := by
  refine hc.wrap (fun inner => ⟨.typedef name inner, none⟩) ?_ ?_
  · intro stack table
    rw [embedCanonical]
    cases embedCanonical c stack table <;> rfl
  · intro final stack id inner hget hspells
    exact .of_step (.typedef hget hspells)

/-- Constants in name order are what sorting them again gives. -/
theorem constants_of_sorted {members : List (Text × ℕ)} (h : SortedByKey Prod.fst members) :
    constants (members.map fun m => ⟨m.1, m.2⟩) = members := by
  rw [constants, List.map_map]
  simpa [Function.comp_def] using h.sortByKey_eq

theorem embeds_enum {tag : Option Text} {members : List (Text × ℕ)} {size : Option ℕ}
    (hc : Embeds frames false c) (htag : TagFits spellNamed tag)
    (hsorted : SortedByKey Prod.fst members) :
    Embeds frames spellNamed (.enum tag c members size) := by
  refine hc.wrap
    (fun inner => ⟨.enum tag inner (members.map fun m => ⟨m.1, m.2⟩) false none, size⟩) ?_ ?_
  · intro stack table
    rw [embedCanonical]
    cases embedCanonical c stack table <;> rfl
  · intro final stack id inner hget hspells
    have hstep := Spells.of_step (.enum hget htag.spell hspells)
    rwa [htag.realTag_eq, constants_of_sorted hsorted] at hstep

/-- A cut is cut again, whatever its entry holds. -/
theorem embeds_named {tag : Text} {kind : AggregateKind} (hreal : isSynthetic tag = false) :
    Embeds frames false (.named tag kind) := by
  have htag : realTag (some tag) = some tag := by simp [realTag, hreal]
  cases kind with
  | struct =>
      exact .leaf ⟨recordShape .struct (some tag) [], none⟩ (fun _ _ => rfl)
        fun _ _ _ hget => .of_step (.recordCut hget htag rfl)
  | union =>
      exact .leaf ⟨recordShape .union (some tag) [], none⟩ (fun _ _ => rfl)
        fun _ _ _ hget => .of_step (.recordCut hget htag rfl)
  | enum =>
      intro stack table hlen hsound
      obtain ⟨hbuilds, -⟩ := builds_intern hsound ⟨.int 4 false, some 4⟩
      obtain ⟨hbuilds', hget⟩ := builds_intern hbuilds.sound
        ⟨.enum (some tag) (table.intern ⟨.int 4 false, some 4⟩).1 [] false none, none⟩
      exact ⟨_, _, rfl, hbuilds.trans hbuilds', fun final hfinal _ =>
        .of_step (.enumCut (hget final hfinal) htag rfl)⟩

/-- A back-reference finds its own frame on the walk's stack. -/
theorem embeds_backRef {n : ℕ+} (hframe : frames[n.natPred]? = some none) :
    Embeds frames false (.backRef n) := by
  intro stack table hlen hsound
  have hlt : n.natPred < stack.length := by
    rw [hlen]
    exact (List.getElem?_eq_some_iff.mp hframe).1
  refine ⟨stack[n.natPred], table, ?_, ⟨hsound, .refl table⟩, fun final _ hframes => ?_⟩
  · rw [embedCanonical, List.getElem?_eq_getElem hlt]
    rfl
  · have hlt' : n.natPred < frames.length := hlen ▸ hlt
    obtain ⟨kind, name, members, size, hget, hname⟩ := hframes.records.get hlt hlt'
    have hdepth : stack.idxOf? stack[n.natPred] = some n.natPred := by
      rw [List.idxOf?_eq_some_iff]
      exact ⟨hlt, rfl, fun j hj heq => hj.ne ((hframes.nodup.getElem_inj_iff).mp heq)⟩
    have hnone : realTag name = none := by
      rw [hname]
      rw [List.getElem?_eq_getElem hlt'] at hframe
      exact Option.some.inj hframe
    have hback : Spells final .strict stack stack[n.natPred] false
        (.backRef n.natPred.succPNat) := .of_step (.backRef hget (.inl hnone) hdepth)
    rwa [PNat.succPNat_natPred] at hback

theorem embeds_params {params : List CanonicalType}
    (hps : ∀ p ∈ params, Embeds frames false p) (stack : List TypeId) (table : TypeTable)
    (hlen : stack.length = frames.length) (hsound : table.Sound stack) :
    ∃ ids later, embedParams params stack table = some (ids, later) ∧
      Builds stack table later ∧ ∀ final, Settled stack later final →
        Frames stack frames final →
        List.Forall₂ (fun id p => Spells final .strict stack id false p) ids params := by
  induction params generalizing table with
  | nil => exact ⟨[], table, rfl, ⟨hsound, .refl table⟩, fun _ _ _ => .nil⟩
  | cons p params ih =>
      obtain ⟨id, middle, hp, hbuilds, hspells⟩ := hps p (by simp) stack table hlen hsound
      obtain ⟨ids, later, hparams, hbuilds', hspells'⟩ :=
        ih (fun p hp => hps p (List.mem_cons_of_mem _ hp)) middle hbuilds.sound
      refine ⟨id :: ids, later, ?_, hbuilds.trans hbuilds', fun final hfinal hframes => ?_⟩
      · rw [embedParams, hp]
        simp [hparams]
      · exact .cons (hspells final (hfinal.of_grows hbuilds'.grows) hframes)
          (hspells' final hfinal hframes)

theorem embeds_members {members : List (CanonicalMember CanonicalType)}
    (hoffset : ∀ m ∈ members, m.bitOffset.isSome)
    (hms : ∀ m ∈ members, Embeds frames false m.ty) (stack : List TypeId) (table : TypeTable)
    (hlen : stack.length = frames.length) (hsound : table.Sound stack) :
    ∃ entries later, embedMembers members stack table = some (entries, later) ∧
      Builds stack table later ∧ ∀ final, Settled stack later final →
        Frames stack frames final →
        List.Forall₂ (SpellsMember .strict fun id c => Spells final .strict stack id false c)
          entries members := by
  induction members generalizing table with
  | nil => exact ⟨[], table, rfl, ⟨hsound, .refl table⟩, fun _ _ _ => .nil⟩
  | cons m members ih =>
      obtain ⟨id, middle, hm, hbuilds, hspells⟩ := hms m (by simp) stack table hlen hsound
      obtain ⟨entries, later, hmembers, hbuilds', hspells'⟩ :=
        ih (fun m hm => hoffset m (List.mem_cons_of_mem _ hm))
          (fun m hm => hms m (List.mem_cons_of_mem _ hm)) middle hbuilds.sound
      obtain ⟨offset, hsome⟩ := Option.isSome_iff_exists.mp (hoffset m (by simp))
      obtain ⟨name, bitOffset, width, ty⟩ := m
      subst hsome
      refine ⟨⟨name, offset, id, width, none⟩ :: entries, later, ?_, hbuilds.trans hbuilds',
        fun final hfinal hframes => ?_⟩
      · rw [embedMembers]
        simp [hm, hmembers]
      · refine .cons ⟨rfl, rfl, rfl, ?_⟩ (hspells' final hfinal hframes)
        exact hspells final (hfinal.of_grows hbuilds'.grows) hframes

theorem embeds_function {params : List CanonicalType} {varargs : Bool}
    (hr : Embeds frames false c) (hps : ∀ p ∈ params, Embeds frames false p) :
    Embeds frames spellNamed (.function c params varargs) := by
  intro stack table hlen hsound
  obtain ⟨ret, middle, hret, hbuilds, hspells⟩ := hr stack table hlen hsound
  obtain ⟨ids, later, hparams, hbuilds', hspells'⟩ :=
    embeds_params hps stack middle hlen hbuilds.sound
  obtain ⟨hbuilds'', hget⟩ := builds_intern hbuilds'.sound ⟨.function ret ids varargs, none⟩
  refine ⟨(later.intern ⟨.function ret ids varargs, none⟩).1, _, ?_,
    (hbuilds.trans hbuilds').trans hbuilds'', fun final hfinal hframes => ?_⟩
  · rw [embedCanonical, hret]
    simp [hparams]
  · have hlater := hfinal.of_grows hbuilds''.grows
    exact .of_step (.function (hget final hfinal)
      (hspells final (hlater.of_grows hbuilds'.grows) hframes) (hspells' final hlater hframes))

/-- An aggregate's entry is reserved before its members are built and filled
after; nothing built in between is filled along. -/
theorem embeds_aggregate {tag : Option Text} {kind : RecordKind}
    {members : List (CanonicalMember CanonicalType)} {size : Option ℕ}
    (htag : TagFits spellNamed tag) (hsorted : arrange kind members = members)
    (hoffset : ∀ m ∈ members, m.bitOffset.isSome)
    (hms : ∀ m ∈ members, Embeds (tag :: frames) false m.ty) :
    Embeds frames spellNamed (.aggregate tag kind members size) := by
  intro stack table hlen hsound
  have hopened : table.len ∉ stack := fun hmem => lt_irrefl _ (hsound.opened_lt _ hmem)
  -- The members are rebuilt under a placeholder, which closes the cycles to the aggregate.
  obtain ⟨entries, middle, hmembers, hbuilds, hspells⟩ :=
    embeds_members hoffset hms (table.len :: stack) table.allocPlaceholder.2
      (by simp [hlen]) (hsound.alloc _)
  have hgrows : table.Grows middle := (TypeTable.grows_alloc _).trans hbuilds.grows
  have hlt : table.len < middle.len := hbuilds.sound.opened_lt _ List.mem_cons_self
  obtain ⟨later, hfill⟩ : ∃ later,
      middle.fill table.len ⟨recordShape kind tag entries, size⟩ = some later :=
    ⟨_, if_pos hlt⟩
  have hget := TypeTable.get_fill_self hfill
  have hsound' : later.Sound stack :=
    (hbuilds.sound.fill List.mem_cons_self hfill).mono (List.subset_cons_self _ _)
  have hgrows' : table.Grows later := by
    constructor
    · rw [TypeTable.fill_len hfill]
      exact hgrows.len_le
    · intro i hi
      rw [TypeTable.get_fill_of_ne hfill hi.ne]
      exact hgrows.get_eq i hi
  refine ⟨table.len, later, ?_, ⟨hsound', hgrows'⟩, fun final hfinal hframes => ?_⟩
  · have halloc : table.allocPlaceholder = (table.len, table.allocPlaceholder.2) := rfl
    rw [embedCanonical, halloc]
    simp [hmembers, hfill]
  · have hid : final.get table.len = some ⟨recordShape kind tag entries, size⟩ :=
      (hfinal _ (TypeTable.lt_len_of_get hget) hopened).trans hget
    have hsettled : Settled (table.len :: stack) middle final := by
      intro i hi hclosed
      rw [List.mem_cons, not_or] at hclosed
      rw [hfinal i (by rwa [TypeTable.fill_len hfill]) hclosed.2]
      exact TypeTable.get_fill_of_ne hfill hclosed.1
    have hframes' : Frames (table.len :: stack) (tag :: frames) final :=
      ⟨List.nodup_cons.mpr ⟨hopened, hframes.nodup⟩,
        .cons ⟨kind, tag, entries, size, hid, htag.realTag_eq⟩ hframes.records⟩
    have hrecord : Spells final .strict stack table.len spellNamed
        (.aggregate (realTag tag) kind (arrange kind members) size) :=
      .of_step (.record hid htag.spell hopened (hspells final hsettled hframes'))
    rwa [htag.realTag_eq, hsorted] at hrecord

end

/-- Every type of a canonical form's shape is rebuilt so that it is spelled
again. -/
theorem Form.embeds {spellNamed : Bool} {frames : List (Option Text)} {c : CanonicalType}
    (h : Form spellNamed frames c) : Embeds frames spellNamed c := by
  induction h with
  | void =>
      exact .leaf ⟨.void, none⟩ (fun _ _ => rfl) fun _ _ _ hget => .of_step (.leaf hget rfl)
  | bool =>
      exact .leaf ⟨.bool, some 1⟩ (fun _ _ => rfl) fun _ _ _ hget => .of_step (.leaf hget rfl)
  | @int _ _ bytes signed =>
      exact .leaf ⟨.int bytes signed, some bytes⟩ (fun _ _ => rfl)
        fun _ _ _ hget => .of_step (.leaf hget rfl)
  | @float _ _ bytes =>
      exact .leaf ⟨.float bytes, some bytes⟩ (fun _ _ => rfl)
        fun _ _ _ hget => .of_step (.leaf hget rfl)
  | @opaqueNamed _ _ name =>
      exact .leaf ⟨.opaqueNamed name, none⟩ (fun _ _ => rfl)
        fun _ _ _ hget => .of_step (.leaf hget rfl)
  | ptr _ hwidth ih => exact embeds_ptr ih hwidth
  | array _ ih => exact embeds_array ih
  | named hreal => exact embeds_named hreal
  | aggregate htag hsorted hoffset _ ih => exact embeds_aggregate htag hsorted hoffset ih
  | enum htag hsorted _ ih => exact embeds_enum ih htag hsorted
  | function _ _ ihr ihp => exact embeds_function ihr ihp
  | typedef _ ih => exact embeds_typedef ih
  | backRef hframe => exact embeds_backRef hframe

/-- Canonical forms are fixed points: the table rebuilt from a canonical form
has it as its canonical form. -/
theorem canonicalize_embedCanonical (table : TypeTable) (root : TypeId) (fuel : ℕ)
    (c : CanonicalType) (hwidths : table.PointerWidths root)
    (hc : canonicalize fuel table root .strict = some c) :
    ∃ root' table', embedCanonical c [] .new = some (root', table') ∧
      ∃ fuel', ∀ fuel'' ≥ fuel', canonicalize fuel'' table' root' .strict = some c := by
  have hspells : Spells table .strict [] root true c := ⟨fuel, hc⟩
  have hform : Form true [] c := hspells.form hwidths .refl (fun _ => rfl) [] .nil
  obtain ⟨root', table', hembed, -, hfinal⟩ := hform.embeds [] .new rfl TypeTable.sound_new
  obtain ⟨fuel', hfuel⟩ := hfinal table' (fun _ _ _ => rfl) ⟨List.nodup_nil, .nil⟩
  refine ⟨root', table', hembed, fuel', fun fuel'' hle => ?_⟩
  exact canon_fuelMono table' .strict hle (a := (root', [], true)) hfuel

/-- The unnamed list node is rebuilt from its canonical form. -/
theorem canonicalize_embedCanonical_unnamedNode :
    let c := CanonicalType.aggregate none .struct
      [⟨"next".toList, some 0, none, .ptr (.backRef 1) (some 8)⟩] (some 8)
    ∃ root' table', embedCanonical c [] .new = some (root', table') ∧
      ∃ fuel', ∀ fuel'' ≥ fuel', canonicalize fuel'' table' root' .strict = some c := by
  refine canonicalize_embedCanonical unnamedNode 0 3 _ ?_ (by decide)
  intro id inner size _ hget
  match id with
  | 0 => cases hget
  | 1 =>
      cases hget
      exact ⟨8, by decide, rfl⟩
  | id + 2 => cases hget

end Idakit.Types.Canonical
