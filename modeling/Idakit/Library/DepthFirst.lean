import Mathlib.Data.List.Basic
import Mathlib.Data.Nat.Notation

/-!
Depth-first search over any graph, with the path that it came by. Every node is
entered once, with the nodes that were open then: those that were entered but
whose successors had not all been visited. The depth is bounded by the fuel;
what follows holds of any.
-/

namespace Idakit.Library

variable {α : Type*} [DecidableEq α] (next : α → List α)

/-- Visit a node while others are open. Nodes are listed in the order in which
they are entered, each with the nodes then open. -/
def visitNode : ℕ → List α → List (α × List α) → α → List (α × List α)
  | 0, _, entered, _ => entered
  | fuel + 1, opened, entered, a =>
      if a ∈ entered.map Prod.fst then entered
      else (next a).foldl (visitNode fuel (a :: opened)) (entered ++ [(a, opened)])

def visitNodes (fuel : ℕ) (opened : List α) (entered : List (α × List α)) (l : List α) :
    List (α × List α) :=
  l.foldl (visitNode next fuel opened) entered

variable {next} {fuel : ℕ} {opened : List α} {entered : List (α × List α)} {a : α} {l l' : List α}

theorem visitNodes_append :
    visitNodes next fuel opened entered (l ++ l') =
      visitNodes next fuel opened (visitNodes next fuel opened entered l) l' :=
  List.foldl_append

/-- A node entered before is not entered again. -/
theorem visitNodes_seen (h : a ∈ entered.map Prod.fst) :
    visitNodes next fuel opened entered [a] = entered := by
  cases fuel with
  | zero => rfl
  | succ fuel => exact if_pos h

/-- A new node is entered, and then what it leads to. -/
theorem visitNodes_new (h : a ∉ entered.map Prod.fst) :
    visitNodes next (fuel + 1) opened entered [a] =
      visitNodes next fuel (a :: opened) (entered ++ [(a, opened)]) (next a) :=
  if_neg h

/-- What is kept when a new node is entered is kept by visits in turn. -/
theorem visitNodes_induction {P : List (α × List α) → Prop} (hentered : P entered)
    (henter : ∀ entered opened a, a ∉ entered.map Prod.fst → P entered →
      P (entered ++ [(a, opened)])) :
    P (visitNodes next fuel opened entered l) := by
  have hfold {fuel : ℕ} {opened l : List α} (hvisit : ∀ entered a, P entered →
      P (visitNode next fuel opened entered a)) {entered : List (α × List α)} (h : P entered) :
      P (visitNodes next fuel opened entered l) := by
    induction l generalizing entered with
    | nil => exact h
    | cons a l ih => exact ih (hvisit entered a h)
  have hvisit (fuel : ℕ) (opened : List α) (entered : List (α × List α)) (a : α)
      (h : P entered) : P (visitNode next fuel opened entered a) := by
    induction fuel generalizing opened entered a with
    | zero => exact h
    | succ fuel ih =>
        rw [visitNode]
        split
        · exact h
        next hnew => exact hfold (ih _) (henter entered opened a hnew h)
  exact hfold (hvisit fuel opened) hentered

theorem subset_visitNodes : entered ⊆ visitNodes next fuel opened entered l := by
  refine visitNodes_induction (P := fun later => entered ⊆ later) (List.Subset.refl _) ?_
  exact fun _ _ _ _ h => List.subset_append_of_subset_left _ h

end Idakit.Library
