import Mathlib.Data.List.Forall2
import Mathlib.Order.FixedPoints

/-!
Unfolding one graph in another. The nodes `τ` are given by their children;
that a place `ι` holds a node is judged by what is found there and by the
places of the children. A place unfolds to a node when all of it does, however
deep and however the children come round again: the largest relation that
passes this judgement at every pair.
-/

namespace Idakit.Library

variable {τ ι : Type}

/-- Nodes with children, and what it is for a place to hold a node over the
places of its children. -/
structure Presentation (τ ι : Type) where
  children : τ → List τ
  holds : τ → ι → List ι → Prop

namespace Presentation

variable {P Q : Presentation τ ι}

/-- One level of an unfolding, over the relation `R` for the children. -/
def Level (P : Presentation τ ι) (R : τ → ι → Prop) (t : τ) (i : ι) : Prop :=
  ∃ places, P.holds t i places ∧ List.Forall₂ R (P.children t) places

theorem Level.mono {R S : τ → ι → Prop} (h : ∀ t i, R t i → S t i) {t : τ} {i : ι}
    (hlevel : P.Level R t i) : P.Level S t i := by
  obtain ⟨places, hholds, hchildren⟩ := hlevel
  exact ⟨places, hholds, hchildren.imp h⟩

def Unfolds (P : Presentation τ ι) : τ → ι → Prop :=
  OrderHom.gfp ⟨P.Level, fun _ _ h _ _ => Level.mono h⟩

theorem unfolds_iff {t : τ} {i : ι} : P.Unfolds t i ↔ P.Level P.Unfolds t i := by
  have hfixed : P.Level P.Unfolds = P.Unfolds :=
    OrderHom.map_gfp ⟨P.Level, fun _ _ h _ _ => Level.mono h⟩
  exact iff_of_eq (congrFun (congrFun hfixed t) i).symm

/-- A relation that passes at every pair is inside the unfolding. -/
theorem unfolds_of {R : τ → ι → Prop} (h : ∀ t i, R t i → P.Level R t i) {t : τ} {i : ι}
    (hR : R t i) : P.Unfolds t i :=
  OrderHom.le_gfp ⟨P.Level, fun _ _ h _ _ => Level.mono h⟩ (fun t i => h t i) t i hR

/-- Where a second presentation has the children of the first and every place
of the first holds in it too, unfoldings carry over. -/
theorem Unfolds.of_le (hchildren : Q.children = P.children)
    (hholds : ∀ t i places, P.holds t i places → Q.holds t i places) {t : τ} {i : ι}
    (h : P.Unfolds t i) : Q.Unfolds t i := by
  refine unfolds_of (fun t i h => ?_) h
  obtain ⟨places, hplaces, hall⟩ := unfolds_iff.mp h
  exact ⟨places, hholds t i places hplaces, hchildren ▸ hall⟩

end Presentation

/-- Related lists give every entry of the first a partner. -/
theorem exists_related {α β : Type} {R : α → β → Prop} {l : List α} {l' : List β}
    (h : List.Forall₂ R l l') {a : α} (ha : a ∈ l) : ∃ b ∈ l', R a b := by
  induction h with
  | nil => cases ha
  | cons hab _ ih =>
      rcases List.mem_cons.mp ha with rfl | ha
      · exact ⟨_, List.mem_cons_self, hab⟩
      · obtain ⟨b, hb, hR⟩ := ih ha
        exact ⟨b, List.mem_cons_of_mem _ hb, hR⟩

end Idakit.Library
