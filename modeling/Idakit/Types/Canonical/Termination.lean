import Idakit.Library.FiniteGraph
import Idakit.Types.Canonical.Walk

/-!
The walk comes to an end on every table whose cycles all pass through a
struct or union, and closes cycles correctly.

Two things bound the walk together: between two records it follows edges
that lie on no cycle, and every record it enters joins the stack of open
aggregates, which has no room for an entry twice. A back-reference is an
index into that stack, so it names the enclosing aggregate spelled from
the very entry the walk came back to.
-/

namespace Idakit.Types

/-- A child edge out of an entry that is neither a struct nor a union. -/
def TypeTable.PlainEdge (table : TypeTable) (id child : TypeId) : Prop :=
  ∃ value, table.get id = some value ∧ ¬value.shape.IsRecord ∧ child ∈ value.shape.children

/-- Every cycle of handles passes through a struct or union: there is no
cycle of edges that all leave other entries. -/
def TypeTable.CyclesMeetRecords (table : TypeTable) : Prop :=
  ∀ id, ¬Relation.TransGen table.PlainEdge id id

/-- Plain edges that descend along a measure lie on no cycle. -/
theorem TypeTable.cyclesMeetRecords_of_descending {table : TypeTable} (rank : TypeId → ℕ)
    (h : ∀ i j, table.PlainEdge i j → rank j < rank i) : table.CyclesMeetRecords := by
  intro i hi
  have hlt : ∀ j, Relation.TransGen table.PlainEdge i j → rank j < rank i := by
    intro j hij
    induction hij with
    | single hij => exact h _ _ hij
    | tail _ hjk ih => exact (h _ _ hjk).trans ih
  exact lt_irrefl _ (hlt i hi)

namespace Canonical

open Idakit.Library

/-- A record shape is one of the two record shapes. -/
theorem eq_recordShape_of_isRecord {shape : TypeShape} (h : shape.IsRecord) :
    ∃ kind name members, shape = recordShape kind name members := by
  cases shape with
  | struct name members => exact ⟨.struct, name, members, rfl⟩
  | union name members => exact ⟨.union, name, members, rfl⟩
  | _ => cases h

/-! ### Progress -/

variable {table : TypeTable} {opts : CanonicalOptions}
  {R : List TypeId → TypeId → CanonicalType → Prop} {stack : List TypeId} {id : TypeId}
  {spellNamed : Bool}

/-- An entry that is not a record can be spelled once its children are. -/
theorem exists_step_of_plain {value : TypeValue} (hget : table.get id = some value)
    (hplain : ¬value.shape.IsRecord)
    (hchildren : ∀ child ∈ value.shape.children, ∃ c, R stack child c) :
    ∃ c, SpellsStep table opts R stack id spellNamed c := by
  obtain ⟨shape, size⟩ := value
  cases shape with
  | struct name members => exact absurd trivial hplain
  | union name members => exact absurd trivial hplain
  | ptr inner =>
      obtain ⟨c, hc⟩ := hchildren inner (List.mem_singleton_self _)
      exact ⟨_, .ptr hget hc⟩
  | array elem len =>
      obtain ⟨c, hc⟩ := hchildren elem (List.mem_singleton_self _)
      exact ⟨_, .array hget hc⟩
  | typedef name underlying =>
      obtain ⟨c, hc⟩ := hchildren underlying (List.mem_singleton_self _)
      exact ⟨_, .typedef hget hc⟩
  | enum name underlying members isBitmask repr =>
      cases hcut : nominalCut name .enum spellNamed with
      | some cut =>
          obtain ⟨tag, htag, hroot, -⟩ := nominalCut_eq_some_iff.mp hcut
          exact ⟨_, .enumCut hget htag hroot⟩
      | none =>
          obtain ⟨c, hc⟩ := hchildren underlying (List.mem_singleton_self _)
          exact ⟨_, .enum hget (nominalCut_eq_none_iff.mp hcut) hc⟩
  | function ret params varargs =>
      obtain ⟨r, hr⟩ := hchildren ret List.mem_cons_self
      obtain ⟨ps, hps⟩ := exists_forall₂ fun p hp => hchildren p (List.mem_cons_of_mem _ hp)
      exact ⟨_, .function hget hr hps⟩
  | void => exact ⟨_, .leaf hget rfl⟩
  | bool => exact ⟨_, .leaf hget rfl⟩
  | int bytes signed => exact ⟨_, .leaf hget rfl⟩
  | float bytes => exact ⟨_, .leaf hget rfl⟩
  | opaqueNamed name => exact ⟨_, .leaf hget rfl⟩
  | unknown => exact ⟨_, .leaf hget rfl⟩

/-- A record can be spelled once its members' types are, under the stack
that it joins. If it is on the stack already, nothing is asked. -/
theorem exists_step_of_record {kind : RecordKind} {name : Option Text}
    {members : List TypeMember} {size : Option ℕ}
    (hget : table.get id = some ⟨recordShape kind name members, size⟩)
    (hmembers : id ∉ stack → ∀ m ∈ members, ∃ c, R (id :: stack) m.ty c) :
    ∃ c, SpellsStep table opts R stack id spellNamed c := by
  cases hcut : nominalCut name kind.toAggregate spellNamed with
  | some cut =>
      obtain ⟨tag, htag, hroot, -⟩ := nominalCut_eq_some_iff.mp hcut
      exact ⟨_, .recordCut hget htag hroot⟩
  | none =>
      have hspell := nominalCut_eq_none_iff.mp hcut
      cases hdepth : stack.idxOf? id with
      | some depth => exact ⟨_, .backRef hget hspell hdepth⟩
      | none =>
          have hfresh := List.idxOf?_eq_none_iff.mp hdepth
          have hmember : ∀ m ∈ members, ∃ cm, SpellsMember opts (R (id :: stack)) m cm := by
            intro m hm
            obtain ⟨c, hc⟩ := hmembers hfresh m hm
            exact ⟨⟨m.name, opts.offset m.bitOffset, m.bitfieldWidth, c⟩, rfl, rfl, rfl, hc⟩
          obtain ⟨ms, hms⟩ := exists_forall₂ hmember
          exact ⟨_, .record hget hspell hfresh hms⟩

/-- Every entry is spelled under every stack of distinct entries. The outer
induction is on the room left on the stack, which shrinks at every record
entered; the inner one descends the edges between records. -/
theorem exists_spells (hrange : table.HandlesInRange) (hcycles : table.CyclesMeetRecords)
    (room : ℕ) :
    ∀ stack : List TypeId, stack.Nodup → (∀ i ∈ stack, i < table.len) →
      table.len - stack.length = room → ∀ id < table.len, ∀ spellNamed,
        ∃ c, Spells table opts stack id spellNamed c := by
  have hwf : WellFounded fun child id => table.PlainEdge id child := by
    refine wellFounded_of_bounded_acyclic table.len ?_ hcycles
    rintro i j ⟨value, hget, -, hj⟩
    exact hrange i value hget j hj
  -- Opening a record takes room off the stack; between two of them plain edges are acyclic.
  induction room using Nat.strong_induction_on with
  | _ room ihroom =>
      intro stack hnodup hstack hroom id
      induction id using hwf.induction with
      | _ id ihplain =>
          intro hid spellNamed
          obtain ⟨value, hget⟩ := TypeTable.get_isSome_iff.mpr hid
          suffices ∃ c, SpellsStep table opts
              (fun stack id c => Spells table opts stack id false c) stack id spellNamed c by
            obtain ⟨c, hc⟩ := this
            exact ⟨c, .of_step hc⟩
          by_cases hrecord : value.shape.IsRecord
          · obtain ⟨shape, size⟩ := value
            obtain ⟨kind, name, members, rfl⟩ := eq_recordShape_of_isRecord hrecord
            refine exists_step_of_record hget fun hfresh m hm => ?_
            have hnodup' := List.nodup_cons.mpr ⟨hfresh, hnodup⟩
            have hstack' : ∀ i ∈ id :: stack, i < table.len :=
              List.forall_mem_cons.mpr ⟨hid, hstack⟩
            have hlen := length_le_of_nodup_of_lt hnodup' hstack'
            have hmrange : m.ty < table.len := by
              refine hrange id _ hget m.ty ?_
              rw [children_recordShape]
              exact List.mem_map_of_mem hm
            refine ihroom _ ?_ (id :: stack) hnodup' hstack' rfl m.ty hmrange false
            rw [List.length_cons] at hlen ⊢
            omega
          · refine exists_step_of_plain hget hrecord fun child hchild => ?_
            exact ihplain child ⟨value, hget, hrecord, hchild⟩
              (hrange id value hget child hchild) false

/-! ### Where a back-reference points -/

/-- Where a canonical type came from: `CameFrom table frames id c` says that
`c` spells the entry `id` inside the aggregates spelled from `frames`,
innermost first. A back-reference has the entry of its own frame: the
`n`-th counting outward. -/
inductive CameFrom (table : TypeTable) : List TypeId → TypeId → CanonicalType → Prop
  | leaf {frames id shape size opts c} (hget : table.get id = some ⟨shape, size⟩)
      (hleaf : leafForm opts shape = some c) : CameFrom table frames id c
  | ptr {frames id inner size c width} (hget : table.get id = some ⟨.ptr inner, size⟩)
      (hc : CameFrom table frames inner c) : CameFrom table frames id (.ptr c width)
  | array {frames id elem len size c} (hget : table.get id = some ⟨.array elem len, size⟩)
      (hc : CameFrom table frames elem c) : CameFrom table frames id (.array c len)
  | typedef {frames id name underlying size c}
      (hget : table.get id = some ⟨.typedef name underlying, size⟩)
      (hc : CameFrom table frames underlying c) :
      CameFrom table frames id (.typedef name c)
  | function {frames id ret params varargs size r ps}
      (hget : table.get id = some ⟨.function ret params varargs, size⟩)
      (hr : CameFrom table frames ret r) (hlen : params.length = ps.length)
      (hps : ∀ p c, (p, c) ∈ params.zip ps → CameFrom table frames p c) :
      CameFrom table frames id (.function r ps varargs)
  | enum {frames id name underlying members isBitmask repr size c tag cs csize}
      (hget : table.get id = some ⟨.enum name underlying members isBitmask repr, size⟩)
      (hc : CameFrom table frames underlying c) :
      CameFrom table frames id (.enum tag c cs csize)
  | enumCut {frames id name underlying members isBitmask repr size tag}
      (hget : table.get id = some ⟨.enum name underlying members isBitmask repr, size⟩)
      (htag : realTag name = some tag) : CameFrom table frames id (.named tag .enum)
  | recordCut {frames id kind name members size tag}
      (hget : table.get id = some ⟨recordShape kind name members, size⟩)
      (htag : realTag name = some tag) :
      CameFrom table frames id (.named tag kind.toAggregate)
  | record {frames id kind name members size tag csize} {listed : List TypeMember}
      {ms : List (CanonicalMember CanonicalType)}
      (hget : table.get id = some ⟨recordShape kind name members, size⟩)
      (hfresh : id ∉ frames) (hlisted : listed.Perm members)
      (hnames : listed.map TypeMember.name = ms.map CanonicalMember.name)
      (hms : ∀ m cm, (m, cm) ∈ listed.zip ms → CameFrom table (id :: frames) m.ty cm.ty) :
      CameFrom table frames id (.aggregate tag kind ms csize)
  | backRef {frames id} {n : ℕ+} (hframe : frames[n.natPred]? = some id) :
      CameFrom table frames id (.backRef n)

mutual

/-- Every back-reference is at most as deep as the aggregates around it,
`depth` of them outside the type itself. -/
def WellScoped (depth : ℕ) : CanonicalType → Prop
  | .backRef n => (n : ℕ) ≤ depth
  | .ptr pointee _ => WellScoped depth pointee
  | .array elem _ => WellScoped depth elem
  | .aggregate _ _ members _ => MembersWellScoped (depth + 1) members
  | .enum _ underlying _ _ => WellScoped depth underlying
  | .typedef _ underlying => WellScoped depth underlying
  | .function ret params _ => WellScoped depth ret ∧ ParamsWellScoped depth params
  | .void | .bool | .int _ _ | .float _ | .named _ _ | .opaqueNamed _ => True

def MembersWellScoped (depth : ℕ) : List (CanonicalMember CanonicalType) → Prop
  | [] => True
  | ⟨_, _, _, ty⟩ :: ms => WellScoped depth ty ∧ MembersWellScoped depth ms

def ParamsWellScoped (depth : ℕ) : List CanonicalType → Prop
  | [] => True
  | t :: ts => WellScoped depth t ∧ ParamsWellScoped depth ts

end

theorem membersWellScoped_iff {depth : ℕ} {ms : List (CanonicalMember CanonicalType)} :
    MembersWellScoped depth ms ↔ ∀ m ∈ ms, WellScoped depth m.ty := by
  induction ms with
  | nil => simp [MembersWellScoped]
  | cons m ms ih =>
      obtain ⟨name, bitOffset, width, ty⟩ := m
      simp [MembersWellScoped, ih]

theorem paramsWellScoped_iff {depth : ℕ} {ts : List CanonicalType} :
    ParamsWellScoped depth ts ↔ ∀ t ∈ ts, WellScoped depth t := by
  induction ts with
  | nil => simp [ParamsWellScoped]
  | cons t ts ih => simp [ParamsWellScoped, ih]

def arrangeEntry (kind : RecordKind) (members : List TypeMember) : List TypeMember :=
  match kind with
  | .union => sortByKey TypeMember.name members
  | .struct => members

theorem arrangeEntry_perm (kind : RecordKind) (members : List TypeMember) :
    (arrangeEntry kind members).Perm members := by
  cases kind with
  | struct => exact .refl _
  | union => exact sortByKey_perm _ _

/-- Arranging a record's spelled members arranges its entry's along. -/
theorem forall₂_arrange {Q : TypeMember → CanonicalMember CanonicalType → Prop}
    (hname : ∀ m cm, Q m cm → m.name = cm.name) (kind : RecordKind)
    {members : List TypeMember} {ms : List (CanonicalMember CanonicalType)}
    (h : List.Forall₂ Q members ms) :
    List.Forall₂ Q (arrangeEntry kind members) (arrange kind ms) := by
  cases kind with
  | struct => exact h
  | union => exact forall₂_sortByKey hname h

theorem Spells.cameFrom {c : CanonicalType} (h : Spells table opts stack id spellNamed c) :
    CameFrom table stack id c := by
  refine h.induct (P := fun stack id _ c => CameFrom table stack id c) ?_
  intro stack id spellNamed c h
  cases h with
  | leaf hget hleaf => exact .leaf hget hleaf
  | ptr hget hc => exact .ptr hget hc.2
  | array hget hc => exact .array hget hc.2
  | typedef hget hc => exact .typedef hget hc.2
  | function hget hr hps =>
      obtain ⟨hlen, hps⟩ := List.forall₂_iff_zip.mp hps
      exact .function hget hr.2 hlen fun p c hp => (hps hp).2
  | enumCut hget htag hroot => exact .enumCut hget htag
  | enum hget hspell hc => exact .enum hget hc.2
  | recordCut hget htag hroot => exact .recordCut hget htag
  | @backRef kind name members size depth hget hspell hdepth =>
      obtain ⟨hlt, hid, -⟩ := List.idxOf?_eq_some_iff.mp hdepth
      apply CameFrom.backRef
      rw [Nat.natPred_succPNat, List.getElem?_eq_getElem hlt, hid]
  | @record kind name members size ms hget hspell hfresh hms =>
      have hlisted := forall₂_arrange (fun _ _ hm => hm.name.symm) kind hms
      have hnames : (arrangeEntry kind members).map TypeMember.name =
          (arrange kind ms).map CanonicalMember.name := by
        rw [← List.forall₂_eq_eq_eq, List.forall₂_map_left_iff, List.forall₂_map_right_iff]
        exact hlisted.imp fun _ _ hm => hm.name.symm
      refine .record hget hfresh (arrangeEntry_perm kind members) hnames ?_
      intro m cm hm
      exact ((List.forall₂_iff_zip.mp hlisted).2 hm).ty.2

/-- A back-reference that resolves is well scoped. -/
theorem CameFrom.wellScoped {frames : List TypeId} {c : CanonicalType}
    (h : CameFrom table frames id c) : WellScoped frames.length c := by
  induction h with
  | @leaf frames id shape size opts c hget hleaf =>
      cases shape <;> cases hleaf <;> trivial
  | ptr hget hc ih => exact ih
  | array hget hc ih => exact ih
  | typedef hget hc ih => exact ih
  | @function frames id ret params varargs size r ps hget hr hlen hps ihr ihps =>
      refine ⟨ihr, paramsWellScoped_iff.mpr fun c hc => ?_⟩
      obtain ⟨p, hp⟩ := exists_mem_zip hlen hc
      exact ihps p c hp
  | enum hget hc ih => exact ih
  | enumCut hget htag => trivial
  | recordCut hget htag => trivial
  | @record frames id kind name members size tag csize listed ms hget hfresh hlisted hnames
      hms ih =>
      refine membersWellScoped_iff.mpr fun cm hcm => ?_
      have hlen : listed.length = ms.length := by simpa using congrArg List.length hnames
      obtain ⟨m, hm⟩ := exists_mem_zip hlen hcm
      exact ih m cm hm
  | @backRef frames id n hframe =>
      have hlt : n.natPred < frames.length := (List.getElem?_eq_some_iff.mp hframe).1
      have hn : n.natPred + 1 = n := PNat.natPred_add_one n
      rw [WellScoped]
      omega

/-- On every table whose cycles pass through a struct or union the walk ends,
with one form at every larger fuel; each back-reference of it is at least 1
and at most the number of aggregates spelled around it, and names, counting
outward, the aggregate spelled from the entry it came back to. -/
theorem canonicalize_terminates (table : TypeTable) (hrange : table.HandlesInRange)
    (hcycles : table.CyclesMeetRecords) (root : TypeId) (hroot : root < table.len)
    (opts : CanonicalOptions) :
    ∃ fuel c, (∀ fuel' ≥ fuel, canonicalize fuel' table root opts = some c) ∧
      WellScoped 0 c ∧ CameFrom table [] root c := by
  obtain ⟨c, hc⟩ : ∃ c, Spells table opts [] root true c :=
    exists_spells hrange hcycles _ [] List.nodup_nil (by simp) rfl root hroot true
  have hfrom := hc.cameFrom
  obtain ⟨fuel, hfuel⟩ := hc
  refine ⟨fuel, c, fun fuel' hle => ?_, hfrom.wellScoped, hfrom⟩
  exact canon_fuelMono table opts hle (a := (root, [], true)) hfuel

/-- The walk of the unnamed list node ends, closing its cycle. -/
theorem canonicalize_terminates_unnamedNode :
    ∃ fuel c, (∀ fuel' ≥ fuel, canonicalize fuel' unnamedNode 0 .strict = some c) ∧
      WellScoped 0 c ∧ CameFrom unnamedNode [] 0 c := by
  have hrange : unnamedNode.HandlesInRange := TypeTable.handlesInRange_iff.mpr (by decide)
  refine canonicalize_terminates unnamedNode hrange ?_ 0 (by decide) .strict
  refine TypeTable.cyclesMeetRecords_of_descending id fun i j hij => ?_
  obtain ⟨value, hget, hplain, hj⟩ := hij
  match i with
  | 0 =>
      cases hget
      exact absurd trivial hplain
  | 1 =>
      cases hget
      rw [List.mem_singleton.mp hj]
      exact Nat.zero_lt_one
  | i + 2 => cases hget

end Canonical

end Idakit.Types
