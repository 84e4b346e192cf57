import Mathlib.Data.List.Forall2
import Mathlib.Data.Nat.Notation

/-!
Partial traversals and fuel. A recursion whose end is not structural is
given fuel and answers `none` when the fuel runs out; more fuel never
changes an answer. Where one level of such a recursion walks a list, the
walks of the entries end at fuels of their own, and the largest of them
serves the whole list.
-/

namespace Idakit.Library

variable {α β γ : Type*}

/-- A traversal of a list in `Option` has a result exactly when every entry
has one, and the results stand in the order of the entries. -/
theorem mapM_eq_some_iff {f : α → Option β} {l : List α} {l' : List β} :
    l.mapM f = some l' ↔ List.Forall₂ (fun a b => f a = some b) l l' := by
  induction l generalizing l' with
  | nil => simp [eq_comm]
  | cons a l ih =>
      simp only [List.mapM_cons, Option.pure_def, Option.bind_eq_bind,
        Option.bind_eq_some_iff, Option.some.injEq, List.forall₂_cons_left_iff, ih]
      constructor
      · rintro ⟨b, hb, bs, hbs, rfl⟩
        exact ⟨b, bs, hb, hbs, rfl⟩
      · rintro ⟨b, bs, hb, hbs, rfl⟩
        exact ⟨b, hb, bs, hbs, rfl⟩

/-- Traversals that agree on the entries of a list agree on the list. -/
theorem mapM_congr {f g : α → Option β} {l : List α} (h : ∀ a ∈ l, f a = g a) :
    l.mapM f = l.mapM g := by
  induction l with
  | nil => rfl
  | cons a l ih =>
      rw [List.mapM_cons, List.mapM_cons, h a (by simp), ih fun a ha => h a (by simp [ha])]

/-- A map over the results of a traversal is part of the traversal. -/
theorem mapM_map_result (f : α → Option β) (g : β → γ) (l : List α) :
    (l.mapM f).map (List.map g) = l.mapM fun a => (f a).map g := by
  induction l with
  | nil => rfl
  | cons a l ih =>
      rw [List.mapM_cons, List.mapM_cons, ← ih]
      cases f a <;> cases l.mapM f <;> rfl

/-- A family of partial functions that more fuel only extends. -/
def FuelMono (f : ℕ → α → Option β) : Prop :=
  ∀ ⦃n m : ℕ⦄, n ≤ m → ∀ ⦃a b⦄, f n a = some b → f m a = some b

/-- Extension by one unit of fuel is enough. -/
theorem FuelMono.of_succ {f : ℕ → α → Option β}
    (h : ∀ n a b, f n a = some b → f (n + 1) a = some b) : FuelMono f := by
  intro n m hnm
  induction hnm with
  | refl => exact fun _ _ h => h
  | step _ ih => exact fun a b hab => h _ a b (ih hab)

/-- Two fuels that answer give the same answer. -/
theorem FuelMono.unique {f : ℕ → α → Option β} (hf : FuelMono f) {n m : ℕ} {a : α}
    {b b' : β} (hn : f n a = some b) (hm : f m a = some b') : b = b' := by
  have h := hf (Nat.le_max_left n m) hn
  rw [hf (Nat.le_max_right n m) hm] at h
  exact (Option.some.inj h).symm

/-- One fuel serves a whole list whose entries all have answers. -/
theorem FuelMono.exists_forall₂ {f : ℕ → α → Option β} (hf : FuelMono f) {l : List α}
    {l' : List β} (h : List.Forall₂ (fun a b => ∃ n, f n a = some b) l l') :
    ∃ n, List.Forall₂ (fun a b => f n a = some b) l l' := by
  induction h with
  | nil => exact ⟨0, .nil⟩
  | cons hab _ ih =>
      obtain ⟨n, hn⟩ := hab
      obtain ⟨m, hm⟩ := ih
      refine ⟨max n m, .cons (hf (Nat.le_max_left n m) hn) (hm.imp fun a b hab => ?_)⟩
      exact hf (Nat.le_max_right n m) hab

/-- Two relations between the entries of lists hold together. -/
theorem forall₂_and {R S : α → β → Prop} {l : List α} {l' : List β}
    (hR : List.Forall₂ R l l') (hS : List.Forall₂ S l l') :
    List.Forall₂ (fun a b => R a b ∧ S a b) l l' := by
  induction hR with
  | nil => exact .nil
  | cons hab _ ih =>
      cases hS with
      | cons hab' hS => exact .cons ⟨hab, hab'⟩ (ih hS)

/-- Entries that each have a related partner make a related list. -/
theorem exists_forall₂ {R : α → β → Prop} {l : List α} (h : ∀ a ∈ l, ∃ b, R a b) :
    ∃ l', List.Forall₂ R l l' := by
  induction l with
  | nil => exact ⟨[], .nil⟩
  | cons a l ih =>
      obtain ⟨b, hb⟩ := h a (by simp)
      obtain ⟨l', hl'⟩ := ih fun a ha => h a (by simp [ha])
      exact ⟨b :: l', .cons hb hl'⟩

/-- Every entry of the second of two lists of one length has its partner. -/
theorem exists_mem_zip {l : List α} {l' : List β} (hlen : l.length = l'.length) {b : β}
    (hb : b ∈ l') : ∃ a, (a, b) ∈ l.zip l' := by
  rw [← List.map_snd_zip (Nat.le_of_eq hlen.symm)] at hb
  obtain ⟨⟨a, b⟩, hab, rfl⟩ := List.mem_map.mp hb
  exact ⟨a, hab⟩

end Idakit.Library
