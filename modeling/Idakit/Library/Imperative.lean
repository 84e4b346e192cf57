import Mathlib.Data.List.Basic
import Mathlib.Data.Nat.Notation

/-!
Statements that change a state, as those of a C function: they may return
from the function they stand in, access an object outside of its bounds, or
be loops that do not come to an end.

The rules are those of a weakest precondition: of a state from which a
statement ends as it should. An access outside of the bounds and a loop that
has no end are never as it should be.
-/

namespace Idakit.Library

inductive Left (σ ρ α : Type)
  | normally (a : α) (s : σ)
  /-- By a return from the function. -/
  | returned (r : ρ) (s : σ)
  /-- By an access outside of the bounds of an object. -/
  | faulted
  /-- Not within the iterations that its loops are given. -/
  | unfinished

def Stmt (σ ρ α : Type) : Type := σ → Left σ ρ α

namespace Stmt

variable {σ ρ α β : Type}

protected def bind (m : Stmt σ ρ α) (f : α → Stmt σ ρ β) : Stmt σ ρ β := fun s =>
  match m s with
  | .normally a s => f a s
  | .returned r s => .returned r s
  | .faulted => .faulted
  | .unfinished => .unfinished

instance : Monad (Stmt σ ρ) where
  pure a := fun s => .normally a s
  bind := Stmt.bind

instance : MonadStateOf σ (Stmt σ ρ) where
  get := fun s => .normally s s
  set s := fun _ => .normally ⟨⟩ s
  modifyGet f := fun s => .normally (f s).1 (f s).2

def ret (r : ρ) : Stmt σ ρ α := fun s => .returned r s

def access (o : Option α) : Stmt σ ρ α := fun s =>
  match o with
  | some a => .normally a s
  | none => .faulted

/-! ### Loops -/

/-- The iterations from `i` on of a loop that counts, `k` of them at most. -/
def forFrom (cond : σ → Bool) (body : ℕ → α → Stmt σ ρ α) : ℕ → ℕ → α → Stmt σ ρ α
  | 0, _, a => pure a
  | k + 1, i, a => fun s =>
      if cond s then (body i a >>= forFrom cond body k (i + 1)) s else .normally a s

/-- A loop that counts up to `n`, as long as a condition holds. -/
def forUpTo (n : ℕ) (cond : σ → Bool) (a : α) (body : ℕ → α → Stmt σ ρ α) : Stmt σ ρ α :=
  forFrom cond body n 0 a

/-- A loop that is given a number of tests of its condition. -/
def whileLoop (cond : σ → Bool) (body : Stmt σ ρ Unit) : ℕ → Stmt σ ρ Unit
  | 0 => fun _ => .unfinished
  | fuel + 1 => fun s =>
      if cond s then (body >>= fun _ => whileLoop cond body fuel) s else .normally ⟨⟩ s

/-! ### Weakest preconditions -/

/-- From `s` the statement is left normally with `Q`, or by a return with
`R`. -/
def wp (m : Stmt σ ρ α) (Q : α → σ → Prop) (R : ρ → σ → Prop) (s : σ) : Prop :=
  match m s with
  | .normally a s => Q a s
  | .returned r s => R r s
  | .faulted => False
  | .unfinished => False

variable {m : Stmt σ ρ α} {f : α → Stmt σ ρ β} {Q Q' : α → σ → Prop} {R : ρ → σ → Prop} {s : σ}

theorem wp_mono (h : m.wp Q R s) (hQ : ∀ a s', Q a s' → Q' a s') : m.wp Q' R s := by
  unfold wp at *
  split at h
  · exact hQ _ _ h
  · exact h
  · exact h
  · exact h

theorem wp_weaken_ret {R' : ρ → σ → Prop} (h : m.wp Q R s) (hR : ∀ r s', R r s' → R' r s') :
    m.wp Q R' s := by
  unfold wp at *
  split at h
  · exact h
  · exact hR _ _ h
  · exact h
  · exact h

/-- Two specifications of one statement. -/
theorem wp_and {R' : ρ → σ → Prop} (h : m.wp Q R s) (h' : m.wp Q' R' s) :
    m.wp (fun a s' => Q a s' ∧ Q' a s') (fun r s' => R r s' ∧ R' r s') s := by
  unfold wp at *
  split at h <;> simp_all

@[simp] theorem wp_pure (a : α) : (pure a : Stmt σ ρ α).wp Q R s ↔ Q a s := Iff.rfl

@[simp] theorem wp_bind {Q : β → σ → Prop} :
    (m >>= f).wp Q R s ↔ m.wp (fun a s' => (f a).wp Q R s') R s := by
  show (m.bind f).wp Q R s ↔ _
  unfold wp Stmt.bind
  cases m s <;> rfl

@[simp] theorem wp_get {Q : σ → σ → Prop} : (get : Stmt σ ρ σ).wp Q R s ↔ Q s s := Iff.rfl

@[simp] theorem wp_set {s' : σ} {Q : PUnit → σ → Prop} :
    (set s' : Stmt σ ρ PUnit).wp Q R s ↔ Q ⟨⟩ s' := Iff.rfl

@[simp] theorem wp_ret {r : ρ} : (ret r : Stmt σ ρ α).wp Q R s ↔ R r s := Iff.rfl

@[simp] theorem wp_access {o : Option α} :
    (access o : Stmt σ ρ α).wp Q R s ↔ ∃ a, o = some a ∧ Q a s := by
  cases o with
  | none => simp [wp, access]
  | some a => simp [wp, access]

theorem wp_ite {p : Prop} [Decidable p] {m m' : Stmt σ ρ α} :
    (if p then m else m').wp Q R s ↔ (p → m.wp Q R s) ∧ (¬p → m'.wp Q R s) := by
  split
  · next h => simp [h]
  · next h => simp [h]

theorem wp_of_eq {m m' : Stmt σ ρ α} (h : m s = m' s) : m.wp Q R s ↔ m'.wp Q R s := by
  unfold wp
  rw [h]

/-- A first statement of which a specification is known. -/
theorem wp_bind_of {Q : β → σ → Prop} (h : m.wp Q' R s)
    (hf : ∀ a s', Q' a s' → (f a).wp Q R s') : (m >>= f).wp Q R s :=
  wp_bind.mpr (wp_mono h hf)

/-- An invariant that the iterations carry on. -/
theorem wp_forUpTo {n : ℕ} {cond : σ → Bool} {a : α} {body : ℕ → α → Stmt σ ρ α}
    (I : ℕ → α → σ → Prop) (hstart : I 0 a s)
    (hbody : ∀ i a s, i < n → I i a s → cond s → (body i a).wp (I (i + 1)) R s) :
    (forUpTo n cond a body).wp (fun a s' => ∃ i ≤ n, I i a s' ∧ (i = n ∨ cond s' = false)) R s := by
  have hfrom : ∀ k i a s, i + k = n → I i a s → (forFrom cond body k i a).wp
      (fun a s' => ∃ i ≤ n, I i a s' ∧ (i = n ∨ cond s' = false)) R s := by
    intro k
    induction k with
    | zero =>
        intro i a s hi ha
        exact ⟨i, by omega, ha, Or.inl hi⟩
    | succ k ih =>
        intro i a s hi ha
        by_cases hcond : cond s = true
        · have heq : forFrom cond body (k + 1) i a s =
              (body i a >>= forFrom cond body k (i + 1)) s := if_pos hcond
          apply (wp_of_eq heq).mpr
          refine wp_bind_of (hbody i a s (by omega) ha hcond) fun a s ha => ?_
          exact ih (i + 1) a s (by omega) ha
        · have heq : forFrom cond body (k + 1) i a s = (pure a : Stmt σ ρ α) s := if_neg hcond
          apply (wp_of_eq heq).mpr
          exact ⟨i, by omega, ha, Or.inr (by simpa using hcond)⟩
  exact hfrom n 0 a s (by omega) hstart

/-- An invariant that the iterations keep, and a measure that they lower. -/
theorem wp_whileLoop {cond : σ → Bool} {body : Stmt σ ρ Unit} {fuel : ℕ} (I : σ → Prop)
    (μ : σ → ℕ) (hstart : I s) (hfuel : μ s < fuel)
    (hbody : ∀ s, I s → cond s → body.wp (fun _ s' => I s' ∧ μ s' < μ s) R s) :
    (whileLoop cond body fuel).wp (fun _ s' => I s' ∧ cond s' = false) R s := by
  induction fuel generalizing s with
  | zero => omega
  | succ fuel ih =>
      by_cases hcond : cond s = true
      · have heq : whileLoop cond body (fuel + 1) s =
            (body >>= fun _ => whileLoop cond body fuel) s := if_pos hcond
        apply (wp_of_eq heq).mpr
        refine wp_bind_of (hbody s hstart hcond) fun _ s' hs' => ?_
        exact ih hs'.1 (by omega)
      · have heq : whileLoop cond body (fuel + 1) s = (pure ⟨⟩ : Stmt σ ρ Unit) s := if_neg hcond
        apply (wp_of_eq heq).mpr
        exact ⟨hstart, by simpa using hcond⟩

/-- More iterations change nothing where a loop has come to its end. -/
theorem whileLoop_fuel {cond : σ → Bool} {body : Stmt σ ρ Unit} {fuel fuel' : ℕ}
    (hle : fuel ≤ fuel') (h : whileLoop cond body fuel s ≠ .unfinished) :
    whileLoop cond body fuel' s = whileLoop cond body fuel s := by
  induction fuel generalizing fuel' s with
  | zero => exact absurd rfl h
  | succ fuel ih =>
      obtain ⟨fuel', rfl⟩ : ∃ n, fuel' = n + 1 := ⟨fuel' - 1, by omega⟩
      by_cases hcond : cond s = true
      · have heq (n : ℕ) : whileLoop cond body (n + 1) s =
            body.bind (fun _ => whileLoop cond body n) s := if_pos hcond
        rw [heq] at h ⊢
        rw [heq]
        unfold Stmt.bind at h ⊢
        cases hbody : body s with
        | normally a s' =>
            rw [hbody] at h
            exact ih (by omega) h
        | returned r s' => rfl
        | faulted => rfl
        | unfinished => rfl
      · have heq (n : ℕ) : whileLoop cond body (n + 1) s = .normally ⟨⟩ s := if_neg hcond
        rw [heq, heq]

theorem ne_unfinished_of_wp (h : m.wp Q R s) : m s ≠ .unfinished := by
  intro heq
  unfold wp at h
  rw [heq] at h
  exact h

/-- What `wp` says of a function that only leaves by a return. -/
theorem wp_false_iff : m.wp (fun _ _ => False) R s ↔ ∃ r s', m s = .returned r s' ∧ R r s' := by
  unfold wp
  cases m s <;> simp

end Stmt

end Idakit.Library
