import Mathlib.Algebra.BigOperators.Group.List.Basic
import Mathlib.Data.Nat.Notation

/-!
Systems that take one step after the other. A step is a partial function of
the state and of an action, which says who moves and what the surroundings
answer; a run is a list of actions. Invariants of one step are invariants of
every run, and a measure bounds the runs that the surroundings leave in peace.

Threads are entries of a list, and a step replaces one of them.
-/

namespace Idakit.Library

variable {σ α : Type}

/-- The state after a list of actions, if every one of them can be taken. -/
def runSteps (step : σ → α → Option σ) : σ → List α → Option σ
  | s, [] => some s
  | s, a :: as => (step s a).bind fun s' => runSteps step s' as

def Reaches (step : σ → α → Option σ) (s s' : σ) : Prop :=
  ∃ as, runSteps step s as = some s'

section

variable {step : σ → α → Option σ} {s s' s'' : σ} {a : α} {as bs : List α}

@[simp] theorem runSteps_nil : runSteps step s [] = some s := rfl

theorem runSteps_cons_eq_some_iff :
    runSteps step s (a :: as) = some s'' ↔
      ∃ s', step s a = some s' ∧ runSteps step s' as = some s'' :=
  Option.bind_eq_some_iff

theorem runSteps_append :
    runSteps step s (as ++ bs) = (runSteps step s as).bind fun s' => runSteps step s' bs := by
  induction as generalizing s with
  | nil => rfl
  | cons a as ih =>
      show (step s a).bind _ = ((step s a).bind _).bind _
      rw [Option.bind_assoc]
      congr 1
      funext s'
      exact ih

theorem Reaches.refl (s : σ) : Reaches step s s := ⟨[], rfl⟩

theorem Reaches.trans (h : Reaches step s s') (h' : Reaches step s' s'') :
    Reaches step s s'' := by
  obtain ⟨as, has⟩ := h
  obtain ⟨bs, hbs⟩ := h'
  refine ⟨as ++ bs, ?_⟩
  rw [runSteps_append, has]
  exact hbs

theorem Reaches.head (h : step s a = some s') (h' : Reaches step s' s'') :
    Reaches step s s'' := by
  obtain ⟨as, has⟩ := h'
  exact ⟨a :: as, runSteps_cons_eq_some_iff.mpr ⟨s', h, has⟩⟩

/-- What every step that a condition allows preserves, every such run does. -/
theorem runSteps_invariant_of (meets : σ → α → Prop) {I : σ → Prop}
    (hstep : ∀ s a s', I s → meets s a → step s a = some s' → I s')
    (hs : I s) (hmeets : ∀ as' a as'' s', as = as' ++ a :: as'' →
      runSteps step s as' = some s' → meets s' a)
    (hrun : runSteps step s as = some s') : I s' := by
  induction as generalizing s with
  | nil =>
      cases hrun
      exact hs
  | cons a as ih =>
      obtain ⟨middle, ha, has⟩ := runSteps_cons_eq_some_iff.mp hrun
      refine ih (hstep s a middle hs (hmeets [] a as s rfl rfl) ha) ?_ has
      rintro as' b as'' s'' rfl hs''
      exact hmeets (a :: as') b as'' s'' rfl (runSteps_cons_eq_some_iff.mpr ⟨middle, ha, hs''⟩)

/-- Where a step from a good state leads to a good state just if it meets a
condition, the states of a run are all good just if its steps all meet it. -/
theorem forall_good_iff {good : σ → Prop} {meets : σ → α → Prop}
    (hstep : ∀ s a s', good s → step s a = some s' → (good s' ↔ meets s a)) (hs : good s)
    (hrun : runSteps step s as = some s') :
    (∀ as' as'' t, as = as' ++ as'' → runSteps step s as' = some t → good t) ↔
      ∀ as' a as'' t, as = as' ++ a :: as'' → runSteps step s as' = some t → meets t a := by
  constructor
  · rintro hgood as' a as'' t rfl ht
    rw [runSteps_append, ht] at hrun
    obtain ⟨t', ha, -⟩ := runSteps_cons_eq_some_iff.mp hrun
    have hnext : runSteps step s (as' ++ [a]) = some t' := by
      rw [runSteps_append, ht]
      exact runSteps_cons_eq_some_iff.mpr ⟨t', ha, rfl⟩
    apply (hstep t a t' (hgood as' (a :: as'') t rfl ht) ha).mp
    exact hgood (as' ++ [a]) as'' t' (by simp) hnext
  · rintro hmeets as' as'' t rfl ht
    refine runSteps_invariant_of meets (fun s a s' h hm ha => (hstep s a s' h ha).mpr hm) hs ?_ ht
    rintro bs b bs' u rfl hu
    exact hmeets bs b (bs' ++ as'') u (by simp) hu

/-- What every step preserves, every run does. -/
theorem Reaches.invariant {I : σ → Prop}
    (hstep : ∀ s a s', I s → step s a = some s' → I s') (hs : I s)
    (h : Reaches step s s') : I s' := by
  obtain ⟨as, has⟩ := h
  refine runSteps_invariant_of (fun _ _ => True) ?_ hs (fun _ _ _ _ _ _ => trivial) has
  exact fun s a s' hs _ => hstep s a s' hs

/-- Where the actions that are not `idle` lower a measure, and the idle ones do
not raise it, a run is no longer than the measure and its idle actions. -/
theorem runSteps_length_le {measure : σ → ℕ} {idle : α → Bool} {I : σ → Prop}
    (hstep : ∀ s a s', I s → step s a = some s' → I s')
    (hless : ∀ s a s', I s → step s a = some s' → idle a = false → measure s' < measure s)
    (hle : ∀ s a s', I s → step s a = some s' → measure s' ≤ measure s)
    (hs : I s) (hrun : runSteps step s as = some s') :
    as.length ≤ measure s + as.countP idle := by
  induction as generalizing s with
  | nil => exact Nat.zero_le _
  | cons a as ih =>
      obtain ⟨middle, ha, has⟩ := runSteps_cons_eq_some_iff.mp hrun
      have hrest := ih (hstep s a middle hs ha) has
      rw [List.length_cons, List.countP_cons]
      cases hidle : idle a with
      | true =>
          have hmiddle := hle s a middle hs ha
          simp only [if_true]
          omega
      | false =>
          have hmiddle := hless s a middle hs ha hidle
          simp only [Bool.false_eq_true, if_false]
          omega

/-- Where every state that is not final has a step that lowers a measure, a
final state can be reached. -/
theorem exists_reaches_of_measure (measure : σ → ℕ) {final I : σ → Prop}
    (hless : ∀ s, I s → ¬final s → ∃ a s', step s a = some s' ∧ I s' ∧ measure s' < measure s)
    (hs : I s) : ∃ s', Reaches step s s' ∧ I s' ∧ final s' := by
  induction hn : measure s using Nat.strongRecOn generalizing s with
  | ind n ih =>
  by_cases hfinal : final s
  · exact ⟨s, .refl s, hs, hfinal⟩
  · obtain ⟨a, middle, ha, hmiddle, hlt⟩ := hless s hs hfinal
    obtain ⟨s', hreaches, hs', hfinal'⟩ := ih _ (hn ▸ hlt) hmiddle rfl
    exact ⟨s', hreaches.head ha, hs', hfinal'⟩

end

/-! ### Threads -/

section

variable {τ M : Type} [AddCommMonoid M] {threads : List τ} {i : ℕ} {t t' : τ}

/-- What is summed over all threads changes by what it does at the one that is
replaced. -/
theorem sum_map_set (f : τ → M) (t' : τ) (h : threads[i]? = some t) :
    ((threads.set i t').map f).sum + f t = (threads.map f).sum + f t' := by
  induction threads generalizing i with
  | nil => cases h
  | cons u threads ih =>
      cases i with
      | zero =>
          obtain rfl : u = t := by simpa using h
          simp only [List.set_cons_zero, List.map_cons, List.sum_cons]
          rw [add_right_comm, add_comm (f t') (f u), add_right_comm]
      | succ i =>
          simp only [List.set_cons_succ, List.map_cons, List.sum_cons]
          rw [add_assoc, ih (by simpa using h), add_assoc]

/-- A count of threads changes by what it says of the one that is replaced. -/
theorem countP_set_add (p : τ → Bool) (t' : τ) (h : threads[i]? = some t) :
    (threads.set i t').countP p + (if p t then 1 else 0) =
      threads.countP p + (if p t' then 1 else 0) := by
  obtain ⟨hlt, rfl⟩ := List.getElem?_eq_some_iff.mp h
  have hpos : p threads[i] → 0 < threads.countP p := fun hp =>
    List.countP_pos_iff.mpr ⟨threads[i], List.getElem_mem hlt, hp⟩
  rw [List.countP_set hlt]
  split
  · next hp =>
      have hpos := hpos hp
      omega
  · omega

theorem mem_set_cases {u : τ} (h : u ∈ threads.set i t') : u = t' ∨ u ∈ threads := by
  rcases List.mem_or_eq_of_mem_set h with h | h
  · exact .inr h
  · exact .inl h

theorem getElem?_set_cases {j : ℕ} {u : τ} (h : (threads.set i t')[j]? = some u) :
    j = i ∧ u = t' ∨ j ≠ i ∧ threads[j]? = some u := by
  rw [List.getElem?_set] at h
  split at h
  · next hij =>
      split at h
      · cases h
        exact .inl ⟨hij.symm, rfl⟩
      · cases h
  · next hij => exact .inr ⟨Ne.symm hij, h⟩

theorem getElem?_set_of_some (h : threads[i]? = some t) : (threads.set i t')[i]? = some t' := by
  obtain ⟨hlt, -⟩ := List.getElem?_eq_some_iff.mp h
  exact List.getElem?_set_self hlt

theorem getElem?_concat_cases {j : ℕ} {u : τ} (h : (threads ++ [t])[j]? = some u) :
    j = threads.length ∧ u = t ∨ threads[j]? = some u := by
  rw [List.getElem?_append] at h
  split at h
  · exact .inr h
  · rw [List.getElem?_singleton] at h
    split at h
    · cases h
      exact .inl ⟨by omega, rfl⟩
    · cases h

end

end Idakit.Library
