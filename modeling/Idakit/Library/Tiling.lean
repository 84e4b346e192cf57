import Mathlib.Data.Set.Operations
import Mathlib.Order.Lattice

/-!
Ranges cut into tiles. Every place of a range lies in one tile, and a tile
reaches from its head to its finish. What begins at the start of the range, and
goes on from finish to finish, stands at every head.
-/

namespace Idakit.Library

variable {α : Type} [LinearOrder α]

/-- The tiles from their heads to their finishes cut up a range. -/
structure Tiles (heads : Set α) (finish : α → α) (start stop : α) : Prop where
  wide : ∀ head ∈ heads, head < finish head
  within : ∀ head ∈ heads, start ≤ head ∧ finish head ≤ stop
  covers : ∀ a, start ≤ a → a < stop → ∃! head, head ∈ heads ∧ head ≤ a ∧ a < finish head

namespace Tiles

variable {heads : Set α} {finish : α → α} {start stop : α}

/-- No head lies inside of a tile. -/
theorem eq_of_mem (h : Tiles heads finish start stop) {head a : α} (hhead : head ∈ heads)
    (ha : a ∈ heads) (hle : head ≤ a) (hlt : a < finish head) : a = head := by
  obtain ⟨hstart, -⟩ := h.within a ha
  have hstop : a < stop := lt_of_lt_of_le hlt (h.within head hhead).2
  exact (h.covers a hstart hstop).unique ⟨ha, le_refl a, h.wide a ha⟩ ⟨hhead, hle, hlt⟩

theorem start_mem (h : Tiles heads finish start stop) (hlt : start < stop) : start ∈ heads := by
  obtain ⟨head, ⟨hhead, hle, -⟩, -⟩ := h.covers start (le_refl start) hlt
  have heq : head = start := le_antisymm hle (h.within head hhead).1
  rwa [heq] at hhead

/-- A tile begins where one ends. -/
theorem finish_mem (h : Tiles heads finish start stop) {head : α} (hhead : head ∈ heads)
    (hlt : finish head < stop) : finish head ∈ heads := by
  have hwide := h.wide head hhead
  have hstart : start ≤ finish head := le_trans (h.within head hhead).1 (le_of_lt hwide)
  obtain ⟨next, ⟨hnext, hle, hbehind⟩, -⟩ := h.covers (finish head) hstart hlt
  suffices heq : next = finish head by rwa [heq] at hnext
  refine le_antisymm hle (le_of_not_gt fun hfront => ?_)
  -- The two tiles would share the later one of their heads.
  obtain hcmp | hcmp := le_total head next
  · have := h.eq_of_mem hhead hnext hcmp hfront
    subst this
    exact lt_irrefl _ hbehind
  · have := h.eq_of_mem hnext hhead hcmp (lt_trans hwide hbehind)
    subst this
    exact lt_irrefl _ hbehind

end Tiles

end Idakit.Library
