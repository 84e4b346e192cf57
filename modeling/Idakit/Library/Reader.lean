import Mathlib.Data.List.Basic
import Mathlib.Data.Nat.Notation

/-!
Reading items from a stream until it has no more. A reader either gives an
item and what is left of the stream, which is shorter, or says how reading
ends: after a last item, with an error, by a panic, or by waiting for symbols
that have not been written yet.
-/

namespace Idakit.Library

variable {σ α β ε : Type}

inductive Ending (σ ε : Type)
  /-- No more items; what is left of the stream. -/
  | done (rest : List σ)
  | error (e : ε)
  | panicked
  /-- The stream is still open, and what is in it is not a whole item. -/
  | blocked

inductive Read (σ ε α : Type)
  | item (a : α) (rest : List σ)
  | ended (e : Ending σ ε)

def Read.bind (r : Read σ ε α) (f : α → List σ → Read σ ε β) : Read σ ε β :=
  match r with
  | .item a rest => f a rest
  | .ended e => .ended e

theorem Read.bind_eq_item_iff {r : Read σ ε α} {f : α → List σ → Read σ ε β} {b : β}
    {rest : List σ} :
    r.bind f = .item b rest ↔ ∃ a middle, r = .item a middle ∧ f a middle = .item b rest := by
  cases r with
  | item a middle =>
      refine ⟨fun h => ⟨a, middle, rfl, h⟩, ?_⟩
      rintro ⟨a', middle', h, hf⟩
      cases h
      exact hf
  | ended e =>
      refine ⟨fun h => (nomatch h), ?_⟩
      rintro ⟨a, middle, h, -⟩
      cases h

/-- A way to read items, each of which takes up some of the stream. -/
structure Reader (σ ε α : Type) where
  read : List σ → Read σ ε α
  shrinks : ∀ {input a rest}, read input = .item a rest → rest.length < input.length

namespace Reader

variable (r : Reader σ ε α)

/-- The items of a stream, and how reading them ends. -/
def all (input : List σ) : List α × Ending σ ε :=
  match h : r.read input with
  | .item a rest =>
      have := r.shrinks h
      (a :: (all rest).1, (all rest).2)
  | .ended e => ([], e)
termination_by input.length

variable {r} {input rest : List σ} {a : α} {e : Ending σ ε}

theorem all_of_item (h : r.read input = .item a rest) :
    r.all input = (a :: (r.all rest).1, (r.all rest).2) := by
  rw [all]
  split
  · next a' rest' h' =>
      rw [h] at h'
      cases h'
      rfl
  · next e' h' =>
      rw [h] at h'
      cases h'

theorem all_of_ended (h : r.read input = .ended e) : r.all input = ([], e) := by
  rw [all]
  split
  · next a' rest' h' =>
      rw [h] at h'
      cases h'
  · next e' h' =>
      rw [h] at h'
      cases h'
      rfl

/-- If each written item is read back in front of anything, a list of them is
read back in front of anything. -/
theorem all_flatMap_append {write : β → List σ} {item : β → α} {items : List β}
    (hread : ∀ b ∈ items, ∀ rest, r.read (write b ++ rest) = .item (item b) rest)
    (rest : List σ) :
    r.all (items.flatMap write ++ rest) = (items.map item ++ (r.all rest).1, (r.all rest).2) := by
  induction items with
  | nil => rfl
  | cons b items ih =>
      rw [List.flatMap_cons, List.append_assoc, all_of_item (hread b List.mem_cons_self _),
        ih fun b' hb' => hread b' (List.mem_cons_of_mem b hb')]
      rfl

theorem all_flatMap {write : β → List σ} {item : β → α} {items : List β}
    (hread : ∀ b ∈ items, ∀ rest, r.read (write b ++ rest) = .item (item b) rest)
    (hnil : r.read [] = .ended e) :
    r.all (items.flatMap write) = (items.map item, e) := by
  have hall := all_flatMap_append hread []
  rw [all_of_ended hnil, List.append_nil, List.append_nil] at hall
  exact hall

end Reader

end Idakit.Library
