import Mathlib.Data.Fintype.EquivFin
import Mathlib.Data.Finset.Card
import Mathlib.Order.WellFounded
import Mathlib.Data.List.Nodup

/-!
Graphs on the naturals whose edges stay below a bound. Without cycles such a graph can be
descended well-foundedly, and a path without repetition is no longer than
the bound.
-/

namespace Idakit.Library

/-- A graph whose edges lead to numbers below a bound, and which has no cycle,
is well-founded along its edges. -/
theorem wellFounded_of_bounded_acyclic {E : ℕ → ℕ → Prop} (bound : ℕ)
    (htgt : ∀ i j, E i j → j < bound)
    (hacyclic : ∀ i, ¬Relation.TransGen E i i) : WellFounded fun j i => E i j := by
  let R : Fin bound → Fin bound → Prop := fun j i => Relation.TransGen E i j
  have : IsTrans (Fin bound) R := ⟨fun _ _ _ hij hjk => hjk.trans hij⟩
  have : Std.Irrefl R := ⟨fun i => hacyclic i⟩
  have hwf : WellFounded R := Finite.wellFounded_of_trans_of_irrefl R
  have hacc (i : Fin bound) : Acc (fun j i => E i j) i.val := by
    induction i using hwf.induction with
    | _ i ih =>
        constructor
        intro j hij
        exact ih ⟨j, htgt _ _ hij⟩ (.single hij)
  constructor
  intro i
  constructor
  intro j hij
  exact hacc ⟨j, htgt _ _ hij⟩

/-- A list of distinct numbers below a bound is no longer than the bound. -/
theorem length_le_of_nodup_of_lt {l : List ℕ} {bound : ℕ} (hnodup : l.Nodup)
    (hlt : ∀ i ∈ l, i < bound) : l.length ≤ bound := by
  have hsub : l ⊆ List.range bound := fun i hi => List.mem_range.mpr (hlt i hi)
  simpa using (hnodup.subperm hsub).length_le

end Idakit.Library
