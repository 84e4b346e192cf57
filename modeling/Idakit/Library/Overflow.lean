import Mathlib.Data.Int.ModEq
import Mathlib.Data.Nat.Notation

/-!
Signed arithmetic of 64 bits, compiled with checks for overflow, where an
overflow panics, or without, where it wraps around. A sum that is taken along
a list goes without an overflow if every sum on the way is in range.
-/

namespace Idakit.Library

def FitsI64 (n : ℤ) : Prop := -2 ^ 63 ≤ n ∧ n < 2 ^ 63

instance (n : ℤ) : Decidable (FitsI64 n) := inferInstanceAs (Decidable (_ ∧ _))

def asI64 (n : ℤ) : ℤ := n.bmod (2 ^ 64)

/-- The result of an operation whose exact result is `n`; `none` for a
panic. -/
def arith (checks : Bool) (n : ℤ) : Option ℤ :=
  if FitsI64 n then some n else if checks then none else some (asI64 n)

theorem asI64_modEq (n : ℤ) : asI64 n ≡ n [ZMOD 2 ^ 64] := Int.bmod_emod

/-- Integers in range are told apart by their low bits. -/
theorem eq_of_modEq {m n : ℤ} (h : m ≡ n [ZMOD 2 ^ 64]) (hm : FitsI64 m) (hn : FitsI64 n) :
    m = n := by
  unfold FitsI64 at hm hn
  unfold Int.ModEq at h
  omega

theorem arith_true_eq_some_iff {n m : ℤ} : arith true n = some m ↔ FitsI64 n ∧ m = n := by
  unfold arith
  split
  · next h => simp [h, eq_comm]
  · next h => simp [h]

/-- Where the checked operation does not panic, the unchecked one agrees. -/
theorem arith_of_true {checks : Bool} {n m : ℤ} (h : arith true n = some m) :
    arith checks n = some m := by
  obtain ⟨hfits, rfl⟩ := arith_true_eq_some_iff.mp h
  exact if_pos hfits

variable {α : Type}

/-- A sum along a list succeeds if and only if every sum on the way does. -/
theorem foldlM_add_eq_some_iff {step : ℤ → α → Option ℤ} {p : α → Prop} {delta : α → ℤ}
    (hstep : ∀ sum a sum', step sum a = some sum' ↔
      p a ∧ FitsI64 (sum + delta a) ∧ sum' = sum + delta a) {l : List α} {sum sum' : ℤ} :
    l.foldlM step sum = some sum' ↔
      (∀ before a after, l = before ++ a :: after →
        p a ∧ FitsI64 (sum + (before.map delta).sum + delta a)) ∧
        sum' = sum + (l.map delta).sum := by
  induction l generalizing sum with
  | nil => simp [eq_comm]
  | cons a l ih =>
      rw [List.foldlM_cons]
      change (step sum a).bind _ = _ ↔ _
      simp only [Option.bind_eq_some_iff, hstep]
      constructor
      · rintro ⟨_, ⟨ha, hfits, rfl⟩, h⟩
        obtain ⟨hrest, rfl⟩ := ih.mp h
        refine ⟨fun before b after heq => ?_, by simp [Int.add_assoc]⟩
        cases before with
        | nil =>
            cases heq
            exact ⟨ha, by simpa using hfits⟩
        | cons c before =>
            cases heq
            have hb := hrest before b after rfl
            rwa [Int.add_assoc sum, ← List.sum_cons, ← List.map_cons] at hb
      · rintro ⟨hall, rfl⟩
        obtain ⟨ha, hfits⟩ := hall [] a l rfl
        refine ⟨_, ⟨ha, by simpa using hfits, rfl⟩, ih.mpr ⟨fun before b after heq => ?_, ?_⟩⟩
        · have hb := hall (a :: before) b after (by rw [heq]; rfl)
          rwa [List.map_cons, List.sum_cons, ← Int.add_assoc] at hb
        · simp [Int.add_assoc]

end Idakit.Library
