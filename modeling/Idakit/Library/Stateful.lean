import Mathlib.Data.List.Forall2
import Mathlib.Data.Nat.Notation

/-!
What a computation with state does to the state. A relation between states
that composes is kept by a computation whose steps keep it, so a long
traversal is reasoned about step by step. A computation with fuel completes
when it has an outcome that no further fuel changes.
-/

namespace Idakit.Library

universe u

variable {σ α β : Type u} {R : σ → σ → Prop}

/-- A computation that comes to an end moves the state along a relation. -/
def Moves (R : σ → σ → Prop) (m : StateT σ Option α) : Prop :=
  ∀ s a s', m s = some (a, s') → R s s'

theorem bind_eq_some {m : StateT σ Option α} {f : α → StateT σ Option β} {s s' : σ} {b : β} :
    (m >>= f) s = some (b, s') ↔ ∃ a middle, m s = some (a, middle) ∧ f a middle = some (b, s') := by
  change (m s).bind (fun p => f p.1 p.2) = some (b, s') ↔ _
  rw [Option.bind_eq_some_iff]
  constructor
  · rintro ⟨⟨a, middle⟩, hm, hf⟩
    exact ⟨a, middle, hm, hf⟩
  · rintro ⟨a, middle, hm, hf⟩
    exact ⟨(a, middle), hm, hf⟩

theorem pure_eq_some {a b : α} {s s' : σ} :
    (pure a : StateT σ Option α) s = some (b, s') ↔ a = b ∧ s = s' := by
  change some (a, s) = some (b, s') ↔ _
  rw [Option.some.injEq, Prod.mk.injEq]

/-- A step whose outcome is known is carried out. -/
theorem bind_of_eq_some {m : StateT σ Option α} {f : α → StateT σ Option β} {s s' : σ} {a : α}
    (h : m s = some (a, s')) : (m >>= f) s = f a s' := by
  change (m s).bind (fun p => f p.1 p.2) = _
  rw [h]
  rfl

theorem moves_none : Moves R (fun _ => none : StateT σ Option α) := by
  intro s a s' h
  cases h

theorem Moves.pure (hrefl : ∀ s, R s s) (a : α) : Moves R (pure a : StateT σ Option α) := by
  intro s b s' h
  obtain ⟨-, rfl⟩ := pure_eq_some.mp h
  exact hrefl s

/-- A result that may be missing leaves the state alone. -/
theorem Moves.lift (hrefl : ∀ s, R s s) (o : Option α) :
    Moves R (StateT.lift o : StateT σ Option α) := by
  intro s a s' h
  cases o with
  | none => cases h
  | some a =>
      cases h
      exact hrefl s

theorem Moves.bind (htrans : ∀ s s' s'', R s s' → R s' s'' → R s s'')
    {m : StateT σ Option α} {f : α → StateT σ Option β} (hm : Moves R m)
    (hf : ∀ a, Moves R (f a)) : Moves R (m >>= f) := by
  intro s b s' h
  obtain ⟨a, middle, hma, hfa⟩ := bind_eq_some.mp h
  exact htrans _ _ _ (hm s a middle hma) (hf a middle b s' hfa)

theorem Moves.ite {p : Prop} [Decidable p] {m m' : StateT σ Option α} (hm : Moves R m)
    (hm' : Moves R m') : Moves R (if p then m else m') := by
  split
  · exact hm
  · exact hm'

theorem Moves.mapM (hrefl : ∀ s, R s s) (htrans : ∀ s s' s'', R s s' → R s' s'' → R s s'')
    {f : α → StateT σ Option β} (hf : ∀ a, Moves R (f a)) (l : List α) :
    Moves R (l.mapM f) := by
  induction l with
  | nil => exact Moves.pure hrefl []
  | cons a l ih =>
      rw [List.mapM_cons]
      refine Moves.bind htrans (hf a) fun b => ?_
      exact Moves.bind htrans ih fun bs => Moves.pure hrefl (b :: bs)

/-- What one step says of its result holds along a traversal. -/
theorem forall₂_of_mapM {P : α → β → Prop} {f : α → StateT σ Option β}
    (hf : ∀ a s b s', f a s = some (b, s') → P a b) {l : List α} {s s' : σ} {bs : List β}
    (h : l.mapM f s = some (bs, s')) : List.Forall₂ P l bs := by
  induction l generalizing s s' bs with
  | nil =>
      obtain ⟨rfl, -⟩ := pure_eq_some.mp h
      exact .nil
  | cons a l ih =>
      rw [List.mapM_cons] at h
      obtain ⟨b, middle, hb, h⟩ := bind_eq_some.mp h
      obtain ⟨rest, last, hrest, h⟩ := bind_eq_some.mp h
      obtain ⟨rfl, -⟩ := pure_eq_some.mp h
      exact .cons (hf a s b middle hb) (ih hrest)

/-! ### Results -/

/-- Whatever a computation ends with has a property. -/
def Concludes (Q : α → Prop) (m : StateT σ Option α) : Prop :=
  ∀ s a s', m s = some (a, s') → Q a

namespace Concludes

variable {Q : α → Prop}

theorem pure {a : α} (h : Q a) : Concludes Q (pure a : StateT σ Option α) := by
  intro s b s' heq
  obtain ⟨rfl, -⟩ := pure_eq_some.mp heq
  exact h

theorem lift {o : Option α} (h : ∀ a, o = some a → Q a) :
    Concludes Q (StateT.lift o : StateT σ Option α) := by
  intro s a s' heq
  cases o with
  | none => cases heq
  | some a =>
      cases heq
      exact h a rfl

theorem bind {m : StateT σ Option β} {f : β → StateT σ Option α} (h : ∀ b, Concludes Q (f b)) :
    Concludes Q (m >>= f) := by
  intro s a s' heq
  obtain ⟨b, middle, -, hf⟩ := bind_eq_some.mp heq
  exact h b middle a s' hf

theorem ite {p : Prop} [Decidable p] {m m' : StateT σ Option α} (hm : Concludes Q m)
    (hm' : Concludes Q m') : Concludes Q (if p then m else m') := by
  split
  · exact hm
  · exact hm'

end Concludes

/-! ### Computations with fuel -/

/-- What is the answer from some fuel on is the only such answer. -/
theorem eq_of_answers {f : ℕ → Option α} {a b : α}
    (ha : ∃ least, ∀ fuel, least ≤ fuel → f fuel = some a)
    (hb : ∃ least, ∀ fuel, least ≤ fuel → f fuel = some b) : a = b := by
  obtain ⟨least, ha⟩ := ha
  obtain ⟨least', hb⟩ := hb
  have hsame := ha (max least least') (Nat.le_max_left _ _)
  rw [hb (max least least') (Nat.le_max_right _ _)] at hsame
  exact (Option.some.inj hsame).symm

/-- From some fuel on the computation comes to an end, always the same, of
which `Q` holds. -/
def Completes (f : ℕ → StateT σ Option α) (s : σ) (Q : α → σ → Prop) : Prop :=
  ∃ a s', (∃ least, ∀ fuel, least ≤ fuel → f fuel s = some (a, s')) ∧ Q a s'

namespace Completes

variable {f : ℕ → StateT σ Option α} {s : σ} {Q Q' : α → σ → Prop}

theorem imp (h : Completes f s Q) (hQ : ∀ a s', Q a s' → Q' a s') : Completes f s Q' := by
  obtain ⟨a, s', hends, hq⟩ := h
  exact ⟨a, s', hends, hQ a s' hq⟩

/-- There is one outcome: what is proved of it apart holds of it together. -/
theorem and (h : Completes f s Q) (h' : Completes f s Q') :
    Completes f s fun a s' => Q a s' ∧ Q' a s' := by
  obtain ⟨a, s', hends, hq⟩ := h
  obtain ⟨a', s'', hends', hq'⟩ := h'
  cases eq_of_answers hends hends'
  exact ⟨a, s', hends, hq, hq'⟩

/-- A computation that takes no fuel. -/
theorem of_eq {m : StateT σ Option α} {a : α} {s' : σ} (h : m s = some (a, s')) (hq : Q a s') :
    Completes (fun _ => m) s Q :=
  ⟨a, s', ⟨0, fun _ _ => h⟩, hq⟩

theorem pure {a : α} (hq : Q a s) : Completes (fun _ => (pure a : StateT σ Option α)) s Q :=
  of_eq rfl hq

theorem bind {g : α → ℕ → StateT σ Option β} {R : β → σ → Prop} (hf : Completes f s Q)
    (hg : ∀ a s', Q a s' → Completes (g a) s' R) :
    Completes (fun fuel => f fuel >>= fun a => g a fuel) s R := by
  obtain ⟨a, s', ⟨least, hfuel⟩, hq⟩ := hf
  obtain ⟨b, s'', ⟨least', hfuel'⟩, hr⟩ := hg a s' hq
  refine ⟨b, s'', ⟨max least least', fun fuel hle => ?_⟩, hr⟩
  show (f fuel >>= fun a => g a fuel) s = _
  rw [bind_of_eq_some (hfuel fuel (by omega))]
  exact hfuel' fuel (by omega)

/-- A first step that takes no fuel. -/
theorem bind_of_eq {m : StateT σ Option α} {g : α → ℕ → StateT σ Option β} {a : α} {s' : σ}
    {R : β → σ → Prop} (h : m s = some (a, s')) (hg : Completes (g a) s' R) :
    Completes (fun fuel => m >>= fun a => g a fuel) s R := by
  obtain ⟨b, s'', ⟨least, hfuel⟩, hr⟩ := hg
  refine ⟨b, s'', ⟨least, fun fuel hle => ?_⟩, hr⟩
  show (m >>= fun a => g a fuel) s = _
  rw [bind_of_eq_some h]
  exact hfuel fuel hle

/-- One level of a recursion takes one unit of fuel. -/
theorem of_succ {g : ℕ → StateT σ Option α} (hsucc : ∀ fuel, g (fuel + 1) = f fuel)
    (h : Completes f s Q) : Completes g s Q := by
  obtain ⟨a, s', ⟨least, hfuel⟩, hq⟩ := h
  refine ⟨a, s', ⟨least + 1, fun fuel hle => ?_⟩, hq⟩
  obtain ⟨fuel, rfl⟩ : ∃ n, fuel = n + 1 := ⟨fuel - 1, by omega⟩
  rw [hsucc]
  exact hfuel fuel (by omega)

/-- A traversal under an invariant `I`: what the walks of the entries do to the
state adds up along the list, and what is said of an entry's outcome where it
is reached still holds at the end. -/
theorem mapM {I : σ → Prop} {P : α → β → σ → Prop} {S : α → σ → σ → Prop}
    {R : List α → σ → σ → Prop} {f : ℕ → α → StateT σ Option β} {l : List α}
    (hnil : ∀ s, R [] s s)
    (hcons : ∀ a l s s' s'', S a s s' → R l s' s'' → R (a :: l) s s'')
    (hkept : ∀ a b l s s', R l s s' → P a b s → P a b s')
    (hf : ∀ a ∈ l, ∀ s, I s →
      Completes (fun fuel => f fuel a) s fun b s' => I s' ∧ S a s s' ∧ P a b s')
    (hs : I s) :
    Completes (fun fuel => l.mapM (f fuel)) s fun bs s' =>
      I s' ∧ R l s s' ∧ List.Forall₂ (fun a b => P a b s') l bs := by
  induction l generalizing s with
  | nil => exact pure ⟨hs, hnil s, .nil⟩
  | cons a l ih =>
      simp only [List.mapM_cons]
      refine bind (hf a List.mem_cons_self s hs) fun b s' hb => ?_
      obtain ⟨hs', hmove, hb⟩ := hb
      refine bind (ih (fun a ha => hf a (List.mem_cons_of_mem _ ha)) hs') fun bs s'' hbs => ?_
      obtain ⟨hs'', hmove', hbs⟩ := hbs
      exact pure ⟨hs'', hcons _ _ _ _ _ hmove hmove', .cons (hkept _ _ _ _ _ hmove' hb) hbs⟩

end Completes

end Idakit.Library
