import Idakit.Types.Builder

/-!
The sizes of typedefs, and what a run of callbacks leaves alone. A typedef
copies its target's size when it is filled, and the target may be a placeholder
then, whose size is still unknown. Where only what is pending is filled,
whatever is pending is a placeholder.
-/

namespace Idakit.Types

namespace TypeTable

/-- The entry at the end of the chain of aliases from a handle. -/
inductive FinallyAliases (table : TypeTable) : TypeId → TypeId → Prop
  | entry {id value} (hget : table.get id = some value)
      (h : value.shape.isTypedef = false) : FinallyAliases table id id
  | through {id name underlying size final}
      (hget : table.get id = some ⟨.typedef name underlying, size⟩)
      (h : FinallyAliases table underlying final) : FinallyAliases table id final

/-- Every typedef has the size of the entry that it finally aliases. -/
def TypedefSizes (table : TypeTable) : Prop :=
  ∀ id name underlying size final value,
    table.get id = some ⟨.typedef name underlying, size⟩ →
      table.FinallyAliases id final → table.get final = some value → size = value.size

variable {table : TypeTable} {data value : TypeValue} {id : TypeId}

theorem get_alloc_cases (h : (table.alloc data).2.get id = some value) :
    table.get id = some value ∨ value = data := by
  have hlt := lt_len_of_get h
  rw [alloc_len] at hlt
  rcases Nat.lt_succ_iff_lt_or_eq.mp hlt with hlt | rfl
  · rw [get_alloc_of_lt data hlt] at h
    exact .inl h
  · rw [get_alloc_self] at h
    exact .inr (Option.some.inj h).symm

theorem get_intern_cases (h : (table.intern data).2.get id = some value) :
    table.get id = some value ∨ value = data := by
  rcases table.intern_cases data with ⟨i, -, heq⟩ | ⟨dedup, -, heq⟩
  · rw [heq] at h
    exact .inl h
  · rw [heq] at h
    exact get_alloc_cases h

theorem get_intern_of_get (data : TypeValue) (h : table.get id = some value) :
    (table.intern data).2.get id = some value := by
  have halloc := (get_alloc_of_lt data (lt_len_of_get h)).trans h
  rcases table.intern_cases data with ⟨i, -, heq⟩ | ⟨dedup, -, heq⟩
  · rw [heq]
    exact h
  · rw [heq]
    exact halloc

end TypeTable

namespace TypeBuilder

/-- A fill is of a handle whose body is owed. -/
def FillsPending (b : TypeBuilder) (c : SinkCall) : Prop :=
  ∀ id data, b.fills c = some (id, data) → id ∈ b.pending.map Prod.fst

variable {b b' : TypeBuilder} {c : SinkCall} {handle : Option TypeId}

/-- A typedef is filled with the size that its target has. -/
theorem size_of_fills {id underlying : TypeId} {name : Text} {size : Option ℕ}
    (h : b.fills c = some (id, ⟨.typedef name underlying, size⟩)) :
    ∃ value, b.table.get underlying = some value ∧ value.size = size := by
  cases c with
  | fillStruct id' isUnion => cases isUnion <;> cases h
  | fillTypedef id' underlying' =>
      obtain ⟨size', hsize, heq⟩ := Option.map_eq_some_iff.mp h
      cases heq
      obtain ⟨value, hget, hvalue⟩ := Option.map_eq_some_iff.mp hsize
      exact ⟨value, hget, hvalue⟩
  | _ => cases h

/-- A callback other than a fill leaves every entry. -/
theorem get_of_step_some {id i : TypeId} {value : TypeValue} (h : Step b c (some id) b')
    (hget : b.table.get i = some value) : b'.table.get i = some value := by
  cases h with
  | share => exact TypeTable.get_intern_of_get _ hget
  | find => exact hget
  | reserve => exact (TypeTable.get_alloc_of_lt _ (TypeTable.lt_len_of_get hget)).trans hget

/-! ### Handles filled once -/

def HoldsPlaceholders (b : TypeBuilder) : Prop :=
  ∀ id ∈ b.pending.map Prod.fst, b.table.get id = some ⟨.unknown, none⟩

theorem holdsPlaceholders_new : HoldsPlaceholders new := by
  simp [HoldsPlaceholders, new]

theorem holdsPlaceholders_call (h : b.HoldsPlaceholders)
    (hcall : b.call c = some (handle, b')) : b'.HoldsPlaceholders := by
  have hstep := step_of_call hcall
  intro id hid
  cases handle with
  | some new =>
      have hold {i : TypeId} {value : TypeValue} (hget : b.table.get i = some value) :
          b'.table.get i = some value := get_of_step_some hstep hget
      cases hstep with
      | share => exact hold (h id hid)
      | find => exact h id hid
      | reserve hnames =>
          rw [reserve, List.map_cons, List.mem_cons] at hid
          rcases hid with rfl | hid
          · exact TypeTable.get_alloc_self _
          · obtain ⟨p, hp, rfl⟩ := List.mem_map.mp hid
            exact hold (h _ (List.mem_map_of_mem (List.mem_filter.mp hp).1))
  | none =>
      cases hstep with
      | @fill filled data table hfills hfilled =>
          obtain ⟨p, hp, rfl⟩ := List.mem_map.mp hid
          obtain ⟨hp, hne⟩ := List.mem_filter.mp hp
          exact (TypeTable.get_fill_of_ne hfilled (bne_iff_ne.mp hne)).trans
            (h _ (List.mem_map_of_mem hp))

end TypeBuilder

end Idakit.Types
