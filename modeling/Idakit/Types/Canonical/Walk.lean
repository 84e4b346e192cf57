import Idakit.Library.Fuel
import Idakit.Types.Canonical.Model

/-!
What one level of the canonicalizing walk can do, said once. `SpellsStep`
lists the nine ways an entry is spelled, over an arbitrary account `R` of
how its children are; `spellsStep_of_canonWith` and `canonWith_of_spellsStep`
say that the code's level does exactly these. Every fact about a whole walk is
then an induction on fuel whose step is a case analysis of `SpellsStep`.
-/

namespace Idakit.Types.Canonical

open Idakit.Library

def leafForm (opts : CanonicalOptions) : TypeShape → Option CanonicalType
  | .void => some .void
  | .bool => some .bool
  | .int bytes signed => some (.int (opts.width bytes) signed)
  | .float bytes => some (.float (opts.width bytes))
  | .opaqueNamed name => some (.opaqueNamed name)
  | .unknown => some (.opaqueNamed "<unfilled>".toList)
  | _ => none

def recordShape : RecordKind → Option Text → List TypeMember → TypeShape
  | .struct => .struct
  | .union => .union

theorem children_recordShape (kind : RecordKind) (name : Option Text)
    (members : List TypeMember) :
    (recordShape kind name members).children = members.map TypeMember.ty := by
  cases kind <;> rfl

structure SpellsMember (opts : CanonicalOptions) (R : TypeId → CanonicalType → Prop)
    (m : TypeMember) (c : CanonicalMember CanonicalType) : Prop where
  name : c.name = m.name
  bitOffset : c.bitOffset = opts.offset m.bitOffset
  bitfieldWidth : c.bitfieldWidth = m.bitfieldWidth
  ty : R m.ty c.ty

inductive SpellsStep (table : TypeTable) (opts : CanonicalOptions)
    (R : List TypeId → TypeId → CanonicalType → Prop) (stack : List TypeId) (id : TypeId)
    (spellNamed : Bool) : CanonicalType → Prop
  | leaf {shape size c} (hget : table.get id = some ⟨shape, size⟩)
      (hleaf : leafForm opts shape = some c) : SpellsStep table opts R stack id spellNamed c
  | ptr {inner size c} (hget : table.get id = some ⟨.ptr inner, size⟩)
      (hc : R stack inner c) :
      SpellsStep table opts R stack id spellNamed (.ptr c (opts.ptrWidth size))
  | array {elem len size c} (hget : table.get id = some ⟨.array elem len, size⟩)
      (hc : R stack elem c) : SpellsStep table opts R stack id spellNamed (.array c len)
  | typedef {name underlying size c}
      (hget : table.get id = some ⟨.typedef name underlying, size⟩)
      (hc : R stack underlying c) :
      SpellsStep table opts R stack id spellNamed (.typedef name c)
  | function {ret params varargs size r ps}
      (hget : table.get id = some ⟨.function ret params varargs, size⟩)
      (hr : R stack ret r) (hps : List.Forall₂ (R stack) params ps) :
      SpellsStep table opts R stack id spellNamed (.function r ps varargs)
  | enumCut {name underlying members isBitmask repr size tag}
      (hget : table.get id = some ⟨.enum name underlying members isBitmask repr, size⟩)
      (htag : realTag name = some tag) (hroot : spellNamed = false) :
      SpellsStep table opts R stack id spellNamed (.named tag .enum)
  | enum {name underlying members isBitmask repr size c}
      (hget : table.get id = some ⟨.enum name underlying members isBitmask repr, size⟩)
      (hspell : realTag name = none ∨ spellNamed = true) (hc : R stack underlying c) :
      SpellsStep table opts R stack id spellNamed
        (.enum (realTag name) c (constants members) (opts.size size))
  | recordCut {kind name members size tag}
      (hget : table.get id = some ⟨recordShape kind name members, size⟩)
      (htag : realTag name = some tag) (hroot : spellNamed = false) :
      SpellsStep table opts R stack id spellNamed (.named tag kind.toAggregate)
  | backRef {kind name members size depth}
      (hget : table.get id = some ⟨recordShape kind name members, size⟩)
      (hspell : realTag name = none ∨ spellNamed = true)
      (hdepth : stack.idxOf? id = some depth) :
      SpellsStep table opts R stack id spellNamed (.backRef depth.succPNat)
  | record {kind name members size ms}
      (hget : table.get id = some ⟨recordShape kind name members, size⟩)
      (hspell : realTag name = none ∨ spellNamed = true) (hfresh : id ∉ stack)
      (hms : List.Forall₂ (SpellsMember opts (R (id :: stack))) members ms) :
      SpellsStep table opts R stack id spellNamed
        (.aggregate (realTag name) kind (arrange kind ms) (opts.size size))

theorem nominalCut_eq_some_iff {name : Option Text} {kind : AggregateKind}
    {spellNamed : Bool} {c : CanonicalType} :
    nominalCut name kind spellNamed = some c ↔
      ∃ tag, realTag name = some tag ∧ spellNamed = false ∧ c = .named tag kind := by
  unfold nominalCut
  cases realTag name <;> cases spellNamed <;> simp [eq_comm]

theorem nominalCut_eq_none_iff {name : Option Text} {kind : AggregateKind}
    {spellNamed : Bool} :
    nominalCut name kind spellNamed = none ↔ realTag name = none ∨ spellNamed = true := by
  unfold nominalCut
  cases realTag name <;> cases spellNamed <;> simp

variable {table : TypeTable} {opts : CanonicalOptions}
  {recur : TypeId → List TypeId → Option CanonicalType} {stack : List TypeId}
  {id : TypeId} {spellNamed : Bool} {c : CanonicalType}

theorem canonMember_eq_some_iff {m : TypeMember} {cm : CanonicalMember CanonicalType} :
    canonMember recur opts stack m = some cm ↔
      SpellsMember opts (fun id c => recur id stack = some c) m cm := by
  obtain ⟨name, bitOffset, bitfieldWidth, ty⟩ := cm
  simp only [canonMember, Option.pure_def, Option.bind_eq_bind, Option.bind_eq_some_iff,
    Option.some.injEq, CanonicalMember.mk.injEq]
  constructor
  · rintro ⟨_, hty, rfl, rfl, rfl, rfl⟩
    exact ⟨rfl, rfl, rfl, hty⟩
  · rintro ⟨rfl, rfl, rfl, hty⟩
    exact ⟨_, hty, rfl, rfl, rfl, rfl⟩

/-- The members' traversal of `aggregate` spells them one by one. -/
theorem members_mapM_eq_some_iff {members : List TypeMember}
    {ms : List (CanonicalMember CanonicalType)} :
    members.mapM (canonMember recur opts stack) = some ms ↔
      List.Forall₂ (SpellsMember opts fun id c => recur id stack = some c) members ms := by
  simp only [mapM_eq_some_iff, canonMember_eq_some_iff]

/-- What `aggregate` does at a record entry: it cuts, closes a cycle, or
spells the body under the stack grown by the entry. -/
theorem aggregate_eq_some_iff {kind : RecordKind} {name : Option Text}
    {members : List TypeMember} {size : Option ℕ} :
    aggregate recur opts id kind name members size stack spellNamed = some c ↔
      (∃ tag, realTag name = some tag ∧ spellNamed = false ∧
        c = .named tag kind.toAggregate) ∨
      ((realTag name = none ∨ spellNamed = true) ∧
        ((∃ depth, stack.idxOf? id = some depth ∧ c = .backRef depth.succPNat) ∨
          (id ∉ stack ∧ ∃ ms,
            List.Forall₂ (SpellsMember opts fun i c => recur i (id :: stack) = some c)
              members ms ∧
            c = .aggregate (realTag name) kind (arrange kind ms) (opts.size size)))) := by
  unfold aggregate
  split
  next cut hcut =>
    have hspell : ¬(realTag name = none ∨ spellNamed = true) := by
      rw [← @nominalCut_eq_none_iff _ kind.toAggregate, hcut]
      simp
    rw [or_iff_left fun h => hspell h.1, ← nominalCut_eq_some_iff, hcut]
  next hcut =>
    have hspell := nominalCut_eq_none_iff.mp hcut
    have hno : ¬∃ tag, realTag name = some tag ∧ spellNamed = false ∧
        c = .named tag kind.toAggregate := by
      rw [← nominalCut_eq_some_iff, hcut]
      simp
    rw [or_iff_right hno, and_iff_right hspell]
    split
    next depth hdepth =>
      have hmem : id ∈ stack := by
        by_contra hmem
        rw [List.idxOf?_eq_none_iff.mpr hmem] at hdepth
        contradiction
      simp [hdepth, hmem, eq_comm]
    next hfresh =>
      have hmem := List.idxOf?_eq_none_iff.mp hfresh
      rw [or_iff_right (by simp [hfresh]), and_iff_right hmem]
      constructor
      · intro h
        obtain ⟨ms, hms, hc⟩ := Option.bind_eq_some_iff.mp h
        exact ⟨ms, members_mapM_eq_some_iff.mp hms, (Option.some.inj hc).symm⟩
      · rintro ⟨ms, hms, rfl⟩
        exact Option.bind_eq_some_iff.mpr ⟨ms, members_mapM_eq_some_iff.mpr hms, rfl⟩

/-- The record entries of `SpellsStep` are those of `aggregate`. -/
theorem spellsStep_of_aggregate {kind : RecordKind} {name : Option Text}
    {members : List TypeMember} {size : Option ℕ}
    (hget : table.get id = some ⟨recordShape kind name members, size⟩)
    (h : aggregate recur opts id kind name members size stack spellNamed = some c) :
    SpellsStep table opts (fun stack id c => recur id stack = some c) stack id spellNamed c := by
  rcases aggregate_eq_some_iff.mp h with ⟨tag, htag, hroot, rfl⟩ | ⟨hspell, h⟩
  · exact .recordCut hget htag hroot
  · rcases h with ⟨depth, hdepth, rfl⟩ | ⟨hfresh, ms, hms, rfl⟩
    · exact .backRef hget hspell hdepth
    · exact .record hget hspell hfresh hms

/-- A level of the code's walk that answers is a step of `SpellsStep`. -/
theorem spellsStep_of_canonWith (h : canonWith table opts recur id stack spellNamed = some c) :
    SpellsStep table opts (fun stack id c => recur id stack = some c) stack id spellNamed c := by
  obtain ⟨⟨shape, size⟩, hget, h⟩ := Option.bind_eq_some_iff.mp h
  cases shape with
  | void => exact .leaf hget h
  | bool => exact .leaf hget h
  | int bytes signed => exact .leaf hget h
  | float bytes => exact .leaf hget h
  | opaqueNamed name => exact .leaf hget h
  | unknown => exact .leaf hget h
  | ptr inner =>
      obtain ⟨c, hc, h⟩ := Option.bind_eq_some_iff.mp h
      cases h
      exact .ptr hget hc
  | array elem len =>
      obtain ⟨c, hc, h⟩ := Option.bind_eq_some_iff.mp h
      cases h
      exact .array hget hc
  | struct name members => exact @spellsStep_of_aggregate _ _ _ _ _ _ _ .struct _ _ _ hget h
  | union name members => exact @spellsStep_of_aggregate _ _ _ _ _ _ _ .union _ _ _ hget h
  | enum name underlying members isBitmask repr =>
      cases hcut : nominalCut name .enum spellNamed with
      | some cut =>
          simp only [hcut] at h
          cases h
          obtain ⟨tag, htag, hroot, rfl⟩ := nominalCut_eq_some_iff.mp hcut
          exact .enumCut hget htag hroot
      | none =>
          simp only [hcut] at h
          obtain ⟨c, hc, h⟩ := Option.bind_eq_some_iff.mp h
          cases h
          exact .enum hget (nominalCut_eq_none_iff.mp hcut) hc
  | function ret params varargs =>
      obtain ⟨r, hr, h⟩ := Option.bind_eq_some_iff.mp h
      obtain ⟨ps, hps, h⟩ := Option.bind_eq_some_iff.mp h
      cases h
      exact .function hget hr (mapM_eq_some_iff.mp hps)
  | typedef name underlying =>
      obtain ⟨c, hc, h⟩ := Option.bind_eq_some_iff.mp h
      cases h
      exact .typedef hget hc

/-- A level of the walk at a record entry is `aggregate`. -/
theorem canonWith_record {kind : RecordKind} {name : Option Text}
    {members : List TypeMember} {size : Option ℕ}
    (hget : table.get id = some ⟨recordShape kind name members, size⟩) :
    canonWith table opts recur id stack spellNamed =
      aggregate recur opts id kind name members size stack spellNamed := by
  rw [canonWith, hget]
  cases kind <;> rfl

/-- Every step of `SpellsStep` is what the code's walk answers. -/
theorem canonWith_of_spellsStep
    (h : SpellsStep table opts (fun stack id c => recur id stack = some c) stack id
      spellNamed c) :
    canonWith table opts recur id stack spellNamed = some c := by
  cases h with
  | leaf hget hleaf =>
      rw [canonWith, hget]
      rename_i shape size
      cases shape <;> first | exact hleaf | simp [leafForm] at hleaf
  | ptr hget hc | array hget hc | typedef hget hc =>
      refine Option.bind_eq_some_iff.mpr ⟨_, hget, ?_⟩
      exact Option.bind_eq_some_iff.mpr ⟨_, hc, rfl⟩
  | function hget hr hps =>
      refine Option.bind_eq_some_iff.mpr ⟨_, hget, ?_⟩
      refine Option.bind_eq_some_iff.mpr ⟨_, hr, ?_⟩
      exact Option.bind_eq_some_iff.mpr ⟨_, mapM_eq_some_iff.mpr hps, rfl⟩
  | enumCut hget htag hroot =>
      have hcut := (@nominalCut_eq_some_iff _ .enum _ _).mpr ⟨_, htag, hroot, rfl⟩
      rw [canonWith, hget]
      simp [hcut]
  | enum hget hspell hc =>
      have hcut := (@nominalCut_eq_none_iff _ .enum _).mpr hspell
      rw [canonWith, hget]
      simp [hcut, hc]
  | recordCut hget htag hroot =>
      rw [canonWith_record hget, aggregate_eq_some_iff]
      exact .inl ⟨_, htag, hroot, rfl⟩
  | backRef hget hspell hdepth =>
      rw [canonWith_record hget, aggregate_eq_some_iff]
      exact .inr ⟨hspell, .inl ⟨_, hdepth, rfl⟩⟩
  | record hget hspell hfresh hms =>
      rw [canonWith_record hget, aggregate_eq_some_iff]
      exact .inr ⟨hspell, .inr ⟨hfresh, _, hms, rfl⟩⟩

theorem SpellsMember.imp {R S : TypeId → CanonicalType → Prop} {m : TypeMember}
    {c : CanonicalMember CanonicalType} (h : SpellsMember opts R m c)
    (hRS : ∀ id c, R id c → S id c) : SpellsMember opts S m c :=
  { h with ty := hRS _ _ h.ty }

/-- A wider account of the children gives a wider account of the entry. -/
theorem SpellsStep.imp {R S : List TypeId → TypeId → CanonicalType → Prop}
    (h : SpellsStep table opts R stack id spellNamed c)
    (hRS : ∀ stack id c, R stack id c → S stack id c) :
    SpellsStep table opts S stack id spellNamed c := by
  cases h with
  | leaf hget hleaf => exact .leaf hget hleaf
  | ptr hget hc => exact .ptr hget (hRS _ _ _ hc)
  | array hget hc => exact .array hget (hRS _ _ _ hc)
  | typedef hget hc => exact .typedef hget (hRS _ _ _ hc)
  | function hget hr hps =>
      exact .function hget (hRS _ _ _ hr) (hps.imp fun _ _ hp => hRS _ _ _ hp)
  | enumCut hget htag hroot => exact .enumCut hget htag hroot
  | enum hget hspell hc => exact .enum hget hspell (hRS _ _ _ hc)
  | recordCut hget htag hroot => exact .recordCut hget htag hroot
  | backRef hget hspell hdepth => exact .backRef hget hspell hdepth
  | record hget hspell hfresh hms =>
      exact .record hget hspell hfresh (hms.imp fun _ _ hm => hm.imp fun _ _ => hRS _ _ _)

/-! ### Whole walks -/

/-- The entry `id` is spelled as `c` under the open aggregates `stack`: the
code's walk ends with that answer. -/
def Spells (table : TypeTable) (opts : CanonicalOptions) (stack : List TypeId)
    (id : TypeId) (spellNamed : Bool) (c : CanonicalType) : Prop :=
  ∃ fuel, canon table opts fuel id stack spellNamed = some c

/-- More fuel never changes an answer. -/
theorem canon_fuelMono (table : TypeTable) (opts : CanonicalOptions) :
    FuelMono fun fuel (a : TypeId × List TypeId × Bool) =>
      canon table opts fuel a.1 a.2.1 a.2.2 := by
  apply FuelMono.of_succ
  intro fuel
  induction fuel with
  | zero => intro a c h; cases h
  | succ fuel ih =>
      rintro ⟨id, stack, spellNamed⟩ c h
      apply canonWith_of_spellsStep
      exact (spellsStep_of_canonWith h).imp fun stack id c hc => ih (id, stack, false) c hc

theorem Spells.unique {c' : CanonicalType} (h : Spells table opts stack id spellNamed c)
    (h' : Spells table opts stack id spellNamed c') : c = c' := by
  obtain ⟨n, hn⟩ := h
  obtain ⟨m, hm⟩ := h'
  exact (canon_fuelMono table opts).unique (a := (id, stack, spellNamed)) hn hm

/-- A list of entries all of which are spelled is spelled at one fuel. -/
theorem exists_fuel_forall₂ {ids : List TypeId} {cs : List CanonicalType}
    (h : List.Forall₂ (fun id c => Spells table opts stack id false c) ids cs) :
    ∃ fuel, List.Forall₂ (fun id c => canon table opts fuel id stack false = some c) ids cs :=
  FuelMono.exists_forall₂ (f := fun fuel id => canon table opts fuel id stack false)
    (fun _ _ hnm id _ h => canon_fuelMono table opts hnm (a := (id, stack, false)) h) h

/-- A step whose children are spelled is spelled. The children of one entry
end at fuels of their own; the largest serves them all. -/
theorem Spells.of_step
    (h : SpellsStep table opts (fun stack id c => Spells table opts stack id false c) stack id
      spellNamed c) :
    Spells table opts stack id spellNamed c := by
  suffices ∃ fuel, SpellsStep table opts
      (fun stack id c => canon table opts fuel id stack false = some c) stack id spellNamed c by
    obtain ⟨fuel, hstep⟩ := this
    exact ⟨fuel + 1, canonWith_of_spellsStep hstep⟩
  cases h with
  | leaf hget hleaf => exact ⟨0, .leaf hget hleaf⟩
  | ptr hget hc =>
      obtain ⟨fuel, hc⟩ := hc
      exact ⟨fuel, .ptr hget hc⟩
  | array hget hc =>
      obtain ⟨fuel, hc⟩ := hc
      exact ⟨fuel, .array hget hc⟩
  | typedef hget hc =>
      obtain ⟨fuel, hc⟩ := hc
      exact ⟨fuel, .typedef hget hc⟩
  | function hget hr hps =>
      obtain ⟨fuel, hall⟩ := exists_fuel_forall₂ (.cons hr hps)
      cases hall with
      | cons hr hps => exact ⟨fuel, .function hget hr hps⟩
  | enumCut hget htag hroot => exact ⟨0, .enumCut hget htag hroot⟩
  | enum hget hspell hc =>
      obtain ⟨fuel, hc⟩ := hc
      exact ⟨fuel, .enum hget hspell hc⟩
  | recordCut hget htag hroot => exact ⟨0, .recordCut hget htag hroot⟩
  | backRef hget hspell hdepth => exact ⟨0, .backRef hget hspell hdepth⟩
  | @record kind name members size ms hget hspell hfresh hms =>
      have htys : List.Forall₂ (fun i c => Spells table opts (id :: stack) i false c)
          (members.map TypeMember.ty) (ms.map CanonicalMember.ty) := by
        rw [List.forall₂_map_left_iff, List.forall₂_map_right_iff]
        exact hms.imp fun _ _ hm => hm.ty
      obtain ⟨fuel, hfuel⟩ := exists_fuel_forall₂ htys
      rw [List.forall₂_map_left_iff, List.forall₂_map_right_iff] at hfuel
      refine ⟨fuel, .record hget hspell hfresh ?_⟩
      exact (forall₂_and hms hfuel).imp fun _ _ hm => { hm.1 with ty := hm.2 }

/-- A walk that answers, answers by a step whose children are spelled. -/
theorem Spells.step (h : Spells table opts stack id spellNamed c) :
    SpellsStep table opts (fun stack id c => Spells table opts stack id false c) stack id
      spellNamed c := by
  obtain ⟨_ | fuel, h⟩ := h
  · cases h
  · exact (spellsStep_of_canonWith h).imp fun stack id c hc => ⟨fuel, hc⟩

/-- Induction over a whole walk: what every step establishes from its
children holds of every spelled entry. -/
theorem Spells.induct {P : List TypeId → TypeId → Bool → CanonicalType → Prop}
    (hstep : ∀ stack id spellNamed c,
      SpellsStep table opts
        (fun stack id c => Spells table opts stack id false c ∧ P stack id false c)
        stack id spellNamed c → P stack id spellNamed c)
    (h : Spells table opts stack id spellNamed c) : P stack id spellNamed c := by
  obtain ⟨fuel, h⟩ := h
  induction fuel generalizing stack id spellNamed c with
  | zero => cases h
  | succ fuel ih =>
      apply hstep
      exact (spellsStep_of_canonWith h).imp fun stack id c hc => ⟨⟨fuel, hc⟩, ih hc⟩

end Idakit.Types.Canonical
