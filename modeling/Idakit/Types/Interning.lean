import Idakit.Types.Table

/-!
What building a table keeps. Handles in `opened` are placeholders that may
still be filled; every other entry is settled, and the dedup map leads only
to settled entries that hold the value they are shared under. Tables under
construction only grow: an entry, once there, stays as it is until it is
filled.
-/

namespace Idakit.Types.TypeTable

/-- A table under construction whose handles in `opened` may still be
filled. -/
structure Sound (opened : List TypeId) (table : TypeTable) : Prop where
  opened_lt : ∀ i ∈ opened, i < table.len
  shared : ∀ value i, table.dedup.lookup value = some i → table.get i = some value ∧ i ∉ opened

structure Grows (table later : TypeTable) : Prop where
  len_le : table.len ≤ later.len
  get_eq : ∀ i < table.len, later.get i = table.get i

theorem Grows.refl (table : TypeTable) : Grows table table :=
  ⟨le_rfl, fun _ _ => rfl⟩

theorem Grows.trans {table later last : TypeTable} (h : Grows table later)
    (h' : Grows later last) : Grows table last :=
  ⟨h.len_le.trans h'.len_le, fun i hi =>
    (h'.get_eq i (hi.trans_le h.len_le)).trans (h.get_eq i hi)⟩

theorem sound_new : Sound [] new :=
  ⟨by simp, by simp [new]⟩

variable {opened : List TypeId} {table : TypeTable}

/-- Handles no longer to be filled may be forgotten. -/
theorem Sound.mono {fewer : List TypeId} (h : Sound opened table) (hsub : fewer ⊆ opened) :
    Sound fewer table :=
  ⟨fun i hi => h.opened_lt i (hsub hi),
    fun value i hi => ⟨(h.shared value i hi).1, fun hmem => (h.shared value i hi).2 (hsub hmem)⟩⟩

/-! ### Allocation -/

theorem alloc_len (data : TypeValue) : (table.alloc data).2.len = table.len + 1 := by
  simp [alloc, len]

theorem get_alloc_self (data : TypeValue) : (table.alloc data).2.get table.len = some data := by
  simp [alloc, get, len]

theorem get_alloc_of_lt (data : TypeValue) {i : TypeId} (hi : i < table.len) :
    (table.alloc data).2.get i = table.get i :=
  List.getElem?_append_left hi

theorem grows_alloc (data : TypeValue) : Grows table (table.alloc data).2 := by
  refine ⟨?_, fun i hi => get_alloc_of_lt data hi⟩
  rw [alloc_len]
  exact Nat.le_succ _

/-- The handle just allocated may be left open. -/
theorem Sound.alloc (h : Sound opened table) (data : TypeValue) :
    Sound (table.len :: opened) (table.alloc data).2 := by
  constructor
  · intro i hi
    rw [alloc_len]
    rcases List.mem_cons.mp hi with rfl | hi
    · exact Nat.lt_succ_self _
    · exact Nat.lt_succ_of_lt (h.opened_lt i hi)
  · intro value i hi
    obtain ⟨hget, hclosed⟩ := h.shared value i hi
    have hlt := lt_len_of_get hget
    refine ⟨(get_alloc_of_lt data hlt).trans hget, ?_⟩
    rw [List.mem_cons, not_or]
    exact ⟨hlt.ne, hclosed⟩

/-! ### Interning -/

/-- Interning leaves a settled entry with the value, and nothing else
different. -/
theorem Sound.intern (h : Sound opened table) (data : TypeValue) :
    Sound opened (table.intern data).2 ∧ Grows table (table.intern data).2 ∧
      (table.intern data).2.get (table.intern data).1 = some data ∧
      (table.intern data).1 ∉ opened := by
  unfold TypeTable.intern
  split
  next id hid =>
    obtain ⟨hget, hclosed⟩ := h.shared data id hid
    exact ⟨h, .refl table, hget, hclosed⟩
  next hnew =>
    have hfresh : table.len ∉ opened := fun hmem => lt_irrefl _ (h.opened_lt _ hmem)
    have halloc := h.alloc data
    have hgrows : Grows table (table.alloc data).2 := grows_alloc data
    refine ⟨⟨?_, ?_⟩, ⟨hgrows.len_le, hgrows.get_eq⟩, get_alloc_self data, hfresh⟩
    · exact fun i hi => halloc.opened_lt i (List.mem_cons_of_mem _ hi)
    · intro value i hi
      by_cases hvalue : value = data
      · subst hvalue
        obtain rfl : table.len = i := by simpa [TypeTable.alloc] using hi
        exact ⟨get_alloc_self value, hfresh⟩
      · have hold : table.dedup.lookup value = some i := by
          simpa [List.lookup_cons, TypeTable.alloc, beq_eq_false_iff_ne.mpr hvalue] using hi
        obtain ⟨hget, hclosed⟩ := halloc.shared value i hold
        exact ⟨hget, fun hmem => hclosed (List.mem_cons_of_mem _ hmem)⟩

/-- Interning finds the value in the dedup map or appends it. -/
theorem intern_cases (table : TypeTable) (data : TypeValue) :
    (∃ id, table.dedup.lookup data = some id ∧ table.intern data = (id, table)) ∨
      ∃ dedup, (∀ value id, dedup.lookup value = some id →
          table.dedup.lookup value = some id ∨ id = table.len) ∧
        table.intern data = (table.len, { (table.alloc data).2 with dedup }) := by
  unfold intern
  cases hfound : table.dedup.lookup data with
  | some id => exact .inl ⟨id, rfl, rfl⟩
  | none =>
      refine .inr ⟨(data, table.len) :: table.dedup, fun value id hid => ?_, rfl⟩
      rw [List.lookup_cons] at hid
      split at hid
      · exact .inr (Option.some.inj hid).symm
      · exact .inl hid

/-! ### Filling -/

theorem fill_eq_some_iff {later : TypeTable} {id : TypeId} {data : TypeValue} :
    table.fill id data = some later ↔
      id < table.len ∧ later = { table with arena := table.arena.set id data } := by
  unfold fill
  split <;> simp_all [eq_comm]

theorem fill_len {later : TypeTable} {id : TypeId} {data : TypeValue}
    (hfill : table.fill id data = some later) : later.len = table.len := by
  obtain ⟨-, rfl⟩ := fill_eq_some_iff.mp hfill
  simp [len]

theorem get_fill_self {later : TypeTable} {id : TypeId} {data : TypeValue}
    (hfill : table.fill id data = some later) : later.get id = some data := by
  obtain ⟨hlt, rfl⟩ := fill_eq_some_iff.mp hfill
  exact List.getElem?_set_self hlt

theorem get_fill_of_ne {later : TypeTable} {id i : TypeId} {data : TypeValue}
    (hfill : table.fill id data = some later) (hne : i ≠ id) : later.get i = table.get i := by
  obtain ⟨-, rfl⟩ := fill_eq_some_iff.mp hfill
  exact List.getElem?_set_ne hne.symm

/-- Filling an open handle touches no shared entry. -/
theorem Sound.fill (h : Sound opened table) {later : TypeTable} {id : TypeId}
    {data : TypeValue} (hid : id ∈ opened) (hfill : table.fill id data = some later) :
    Sound opened later := by
  have hlen := fill_len hfill
  constructor
  · intro i hi
    rw [hlen]
    exact h.opened_lt i hi
  · intro value i hi
    obtain ⟨-, rfl⟩ := fill_eq_some_iff.mp hfill
    obtain ⟨hget, hclosed⟩ := h.shared value i hi
    have hne : i ≠ id := by
      rintro rfl
      exact hclosed hid
    exact ⟨(get_fill_of_ne hfill hne).trans hget, hclosed⟩

end Idakit.Types.TypeTable
