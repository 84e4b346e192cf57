import Mathlib.Data.List.Basic
import Mathlib.Data.Nat.Notation

/-!
What an iterator yields until it is exhausted. An iterator that finds the
lowest place from where it is, and goes on one past it, yields every place of
its range once, in ascending order.
-/

namespace Idakit.Library

variable {σ α : Type}

inductive Yields (next : σ → Option α × σ) : σ → List α → Prop
  | done {s : σ} (h : (next s).1 = none) : Yields next s []
  | item {s : σ} {a : α} {as : List α} (h : (next s).1 = some a)
      (rest : Yields next (next s).2 as) : Yields next s (a :: as)

section

variable {next : σ → Option α × σ} {s : σ} {as bs : List α}

/-- An iterator yields one list at most. -/
theorem Yields.unique (h : Yields next s as) (h' : Yields next s bs) : as = bs := by
  induction h generalizing bs with
  | done hnone =>
      cases h' with
      | done _ => rfl
      | item hsome _ =>
          rw [hnone] at hsome
          contradiction
  | item hsome _ ih =>
      cases h' with
      | done hnone =>
          rw [hnone] at hsome
          contradiction
      | item hsome' rest =>
          rw [hsome] at hsome'
          rw [Option.some.inj hsome', ih rest]

/-- Places that an iterator leaves in the same way yield the same. -/
theorem Yields.congr {s' : σ} (h : Yields next s' as) (heq : next s = next s') :
    Yields next s as := by
  cases h with
  | done hnone => exact .done (heq ▸ hnone)
  | item hsome rest => exact .item (heq ▸ hsome) (heq ▸ rest)

/-- Behind some items the rest is still to come. -/
theorem Yields.drop (h : Yields next s as) (n : ℕ) (hn : n ≤ as.length) :
    ∃ s', Yields next s' (as.drop n) := by
  induction n generalizing s as with
  | zero => exact ⟨s, h⟩
  | succ n ih =>
      cases h with
      | done hnone => simp at hn
      | item hsome rest => exact ih rest (by simpa using hn)

/-- One step of a scan from a place to the end of its range: it finds the
lowest place there is and stands behind it, or there is none. -/
def Scans (next : σ → Option α × σ) (place : α → ℕ) (p : ℕ → Prop) (stop : ℕ)
    (stands : σ → ℕ → Prop) : Prop :=
  ∀ s here, stands s here →
    ((next s).1 = none ∧ ∀ n, here ≤ n → n < stop → ¬ p n) ∨
    ∃ a, (next s).1 = some a ∧ here ≤ place a ∧ place a < stop ∧ p (place a) ∧
      (∀ n, here ≤ n → n < place a → ¬ p n) ∧ stands (next s).2 (place a + 1)

/-- A scan comes to an end, and yields the places of its range in order. -/
theorem Scans.exists_yields {place : α → ℕ} {p : ℕ → Prop} {stop : ℕ} {stands : σ → ℕ → Prop}
    (hscan : Scans next place p stop stands) {here : ℕ} (hs : stands s here) :
    ∃ as, Yields next s as ∧ as.Pairwise (fun a b => place a < place b) ∧
      (∀ a ∈ as, here ≤ place a) ∧
      ∀ n, (∃ a ∈ as, place a = n) ↔ here ≤ n ∧ n < stop ∧ p n := by
  induction hgap : stop - here using Nat.strongRecOn generalizing s here with
  | ind gap ih =>
  obtain ⟨hnone, hempty⟩ | ⟨a, hsome, hle, hlt, hp, hlow, hnext⟩ := hscan s here hs
  · refine ⟨[], .done hnone, .nil, by simp, fun n => ⟨by simp, ?_⟩⟩
    rintro ⟨hhere, hstop, hn⟩
    exact absurd hn (hempty n hhere hstop)
  · obtain ⟨as, hyields, hsorted, hfrom, hmem⟩ :=
      ih (stop - (place a + 1)) (by omega) hnext rfl
    refine ⟨a :: as, .item hsome hyields, ?_, ?_, fun n => ?_⟩
    · exact List.pairwise_cons.mpr ⟨fun b hb => hfrom b hb, hsorted⟩
    · intro b hb
      rcases List.mem_cons.mp hb with rfl | hb
      · exact hle
      · have := hfrom b hb
        omega
    · rw [List.exists_mem_cons_iff, hmem]
      constructor
      · rintro (rfl | ⟨hbehind, hstop, hn⟩)
        · exact ⟨hle, hlt, hp⟩
        · exact ⟨by omega, hstop, hn⟩
      · rintro ⟨hhere, hstop, hn⟩
        -- What lies in front of the lowest place is none.
        by_cases hfront : n < place a
        · exact absurd hn (hlow n hhere hfront)
        · by_cases heq : place a = n
          · exact .inl heq
          · exact .inr ⟨by omega, hstop, hn⟩

end

end Idakit.Library
