import Idakit.Library.Transition
import Idakit.Types.Interning

/-!
What a type table owes to the handles it has given out. A handle that came
from interning keeps its value, a placeholder is filled in place and never
shared, and no handle is given out twice: equal values get one handle, and
only they do.

An allocation past the last handle of 32 bits panics.
-/

namespace Idakit.Types

open Idakit.Library

inductive TableOp
  | intern (value : TypeValue)
  | allocPlaceholder
  | fill (id : TypeId) (value : TypeValue)

/-- A table with the handles it has given out: those of interned values, the
latest first, and those of placeholders. -/
structure TableHistory where
  table : TypeTable
  interned : List (TypeValue × TypeId)
  reserved : List TypeId
  deriving DecidableEq

namespace TableHistory

def new : TableHistory := ⟨.new, [], []⟩

def HasRoom (table : TypeTable) : Prop := table.len < 2 ^ 32

instance (table : TypeTable) : Decidable (HasRoom table) := inferInstanceAs (Decidable (_ < _))

/-- One operation; none where it panics. Only placeholders are filled. -/
def step (h : TableHistory) : TableOp → Option TableHistory
  | .intern value =>
      if (h.table.dedup.lookup value).isSome ∨ HasRoom h.table then
        let (id, table) := h.table.intern value
        some { h with table, interned := (value, id) :: h.interned }
      else none
  | .allocPlaceholder =>
      if HasRoom h.table then
        let (id, table) := h.table.allocPlaceholder
        some { h with table, reserved := id :: h.reserved }
      else none
  | .fill id value =>
      if id ∈ h.reserved then (h.table.fill id value).map fun table => { h with table } else none

/-- The dedup map agrees with the arena, and handles with what they were given
out for: an interned value each, the same for the same value, or a placeholder
each. -/
structure Agrees (h : TableHistory) : Prop where
  dedup : ∀ value id, (value, id) ∈ h.table.dedup → h.table.get id = some value
  denotes : ∀ value id, (value, id) ∈ h.interned → h.table.get id = some value
  shared : ∀ value id value' id', (value, id) ∈ h.interned → (value', id') ∈ h.interned →
    (id = id' ↔ value = value')
  reserved : h.reserved.Nodup ∧ ∀ value id, (value, id) ∈ h.interned → id ∉ h.reserved
  narrow : (∀ id ∈ h.reserved, id < 2 ^ 32) ∧
    ∀ value id, (value, id) ∈ h.interned → id < 2 ^ 32
  fills : ∀ id ∈ h.reserved, ∀ value, (h.step (.fill id value)).isSome

/-! ### What every operation keeps -/

/-- The dedup map has one entry for a value, and an entry for every value that
was interned; no handle is past the arena. -/
structure Invariant (h : TableHistory) : Prop where
  sound : h.table.Sound h.reserved
  keys : (h.table.dedup.map Prod.fst).Nodup
  listed : ∀ value id, (value, id) ∈ h.interned → h.table.dedup.lookup value = some id
  nodup : h.reserved.Nodup
  room : h.table.len ≤ 2 ^ 32

theorem lookup_of_mem {dedup : List (TypeValue × TypeId)} (h : (dedup.map Prod.fst).Nodup)
    {value : TypeValue} {id : TypeId} (hmem : (value, id) ∈ dedup) :
    dedup.lookup value = some id := by
  induction dedup with
  | nil => simp at hmem
  | cons entry dedup ih =>
      rw [List.map_cons, List.nodup_cons] at h
      rcases List.mem_cons.mp hmem with rfl | hmem
      · simp
      · have hne : (value == entry.1) = false := by
          rw [beq_eq_false_iff_ne]
          rintro rfl
          exact h.1 (List.mem_map.mpr ⟨_, hmem, rfl⟩)
        rw [List.lookup_cons, hne]
        exact ih h.2 hmem

theorem not_mem_keys {dedup : List (TypeValue × TypeId)} {value : TypeValue}
    (h : dedup.lookup value = none) : value ∉ dedup.map Prod.fst := by
  intro hmem
  obtain ⟨entry, hentry, rfl⟩ := List.mem_map.mp hmem
  have hnone := List.lookup_eq_none_iff.mp h entry hentry
  simp at hnone

theorem invariant_new : Invariant new where
  sound := TypeTable.sound_new
  keys := List.nodup_nil
  listed := by simp [new]
  nodup := List.nodup_nil
  room := Nat.zero_le _

theorem Invariant.intern {h : TableHistory} (hinv : Invariant h) (value : TypeValue)
    (hroom : (h.table.dedup.lookup value).isSome ∨ HasRoom h.table) :
    Invariant { h with
      table := (h.table.intern value).2
      interned := (value, (h.table.intern value).1) :: h.interned } := by
  obtain ⟨hsound, -, -, -⟩ := hinv.sound.intern value
  rcases hlookup : h.table.dedup.lookup value with _ | id
  · -- The value is new: its entry goes to the end, and in front of the map.
    have hintern : h.table.intern value = (h.table.len,
        { (h.table.alloc value).2 with dedup := (value, h.table.len) :: h.table.dedup }) := by
      rw [TypeTable.intern, hlookup]
      rfl
    have hlt : HasRoom h.table := hroom.resolve_left (by simp [hlookup])
    rw [hintern] at hsound ⊢
    refine ⟨hsound, ?_, fun value' id hmem => ?_, hinv.nodup, ?_⟩
    · exact List.nodup_cons.mpr ⟨not_mem_keys hlookup, hinv.keys⟩
    · rcases List.mem_cons.mp hmem with heq | hmem
      · obtain ⟨rfl, rfl⟩ := Prod.mk.inj heq
        simp
      · have hold := hinv.listed value' id hmem
        have hne : (value' == value) = false := by
          rw [beq_eq_false_iff_ne]
          rintro rfl
          rw [hlookup] at hold
          contradiction
        rw [List.lookup_cons, hne]
        exact hold
    · show (h.table.alloc value).2.len ≤ 2 ^ 32
      rw [TypeTable.alloc_len]
      exact hlt
  · have hintern : h.table.intern value = (id, h.table) := by
      rw [TypeTable.intern, hlookup]
    rw [hintern] at hsound ⊢
    refine ⟨hsound, hinv.keys, fun value' id' hmem => ?_, hinv.nodup, hinv.room⟩
    rcases List.mem_cons.mp hmem with heq | hmem
    · obtain ⟨rfl, rfl⟩ := Prod.mk.inj heq
      exact hlookup
    · exact hinv.listed value' id' hmem

theorem Invariant.allocPlaceholder {h : TableHistory} (hinv : Invariant h)
    (hroom : HasRoom h.table) :
    Invariant { h with
      table := h.table.allocPlaceholder.2
      reserved := h.table.allocPlaceholder.1 :: h.reserved } where
  sound := hinv.sound.alloc _
  keys := hinv.keys
  listed := hinv.listed
  nodup := by
    refine List.nodup_cons.mpr ⟨fun hmem => ?_, hinv.nodup⟩
    exact absurd (hinv.sound.opened_lt _ hmem) (lt_irrefl _)
  room := by
    show (h.table.alloc _).2.len ≤ 2 ^ 32
    rw [TypeTable.alloc_len]
    exact hroom

theorem Invariant.fill {h : TableHistory} (hinv : Invariant h) {id : TypeId} {value : TypeValue}
    {later : TypeTable} (hid : id ∈ h.reserved) (hfill : h.table.fill id value = some later) :
    Invariant { h with table := later } := by
  have hsound := hinv.sound.fill hid hfill
  have hlen := TypeTable.fill_len hfill
  obtain ⟨-, hlater⟩ := TypeTable.fill_eq_some_iff.mp hfill
  have hdedup : later.dedup = h.table.dedup := by rw [hlater]
  refine ⟨hsound, ?_, ?_, hinv.nodup, ?_⟩
  · rw [hdedup]
    exact hinv.keys
  · rw [hdedup]
    exact hinv.listed
  · rw [hlen]
    exact hinv.room

theorem Invariant.step {h h' : TableHistory} {op : TableOp} (hinv : Invariant h)
    (hstep : h.step op = some h') : Invariant h' := by
  cases op with
  | intern value =>
      rw [TableHistory.step] at hstep
      split at hstep
      · next hroom =>
          obtain rfl := Option.some.inj hstep
          exact hinv.intern value hroom
      · contradiction
  | allocPlaceholder =>
      rw [TableHistory.step] at hstep
      split at hstep
      · next hroom =>
          obtain rfl := Option.some.inj hstep
          exact hinv.allocPlaceholder hroom
      · contradiction
  | fill id value =>
      rw [TableHistory.step] at hstep
      split at hstep
      · next hid =>
          obtain ⟨later, hfill, rfl⟩ := Option.map_eq_some_iff.mp hstep
          exact hinv.fill hid hfill
      · contradiction

theorem Invariant.agrees {h : TableHistory} (hinv : Invariant h) : Agrees h := by
  have hget : ∀ value id, (value, id) ∈ h.interned → h.table.get id = some value ∧ id ∉ h.reserved :=
    fun value id hmem => hinv.sound.shared value id (hinv.listed value id hmem)
  refine ⟨?_, fun value id hmem => (hget value id hmem).1, ?_,
    ⟨hinv.nodup, fun value id hmem => (hget value id hmem).2⟩, ⟨?_, ?_⟩, ?_⟩
  · intro value id hmem
    exact (hinv.sound.shared value id (lookup_of_mem hinv.keys hmem)).1
  · intro value id value' id' hmem hmem'
    constructor
    · rintro rfl
      exact Option.some.inj ((hget value id hmem).1.symm.trans (hget value' id hmem').1)
    · rintro rfl
      exact Option.some.inj ((hinv.listed value id hmem).symm.trans (hinv.listed value id' hmem'))
  · exact fun id hid => (hinv.sound.opened_lt id hid).trans_le hinv.room
  · exact fun value id hmem => (TypeTable.lt_len_of_get (hget value id hmem).1).trans_le hinv.room
  · intro id hid value
    have hlt := hinv.sound.opened_lt id hid
    simp [TableHistory.step, hid, TypeTable.fill, hlt]

/-- After every step of every sequence of operations. -/
theorem agrees_of_reaches {h : TableHistory} (hreach : Reaches step new h) : Agrees h :=
  (hreach.invariant (fun _ _ _ hinv hstep => Invariant.step hinv hstep) invariant_new).agrees

def filledTwin : List TableOp :=
  [.intern ⟨.int 4 true, some 4⟩, .allocPlaceholder, .fill 1 ⟨.int 4 true, some 4⟩,
    .intern ⟨.int 4 true, some 4⟩]

theorem agrees_filledTwin :
    Agrees ⟨⟨[⟨.int 4 true, some 4⟩, ⟨.int 4 true, some 4⟩], [(⟨.int 4 true, some 4⟩, 0)]⟩,
      [(⟨.int 4 true, some 4⟩, 0), (⟨.int 4 true, some 4⟩, 0)], [1]⟩ :=
  agrees_of_reaches ⟨filledTwin, by decide⟩

end TableHistory

end Idakit.Types
