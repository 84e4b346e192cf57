import Mathlib.Data.List.Forall2
import Mathlib.Data.Nat.Notation

/-!
Computations that end in a value, in an error that is handed back, or in a
panic. A sequence of them goes as far as its first error or panic.
-/

namespace Idakit.Library

inductive Outcome (ε α : Type)
  | ok (a : α)
  | err (e : ε)
  | panic
  deriving DecidableEq

namespace Outcome

variable {ε α β : Type}

protected def bind (m : Outcome ε α) (f : α → Outcome ε β) : Outcome ε β :=
  match m with
  | ok a => f a
  | err e => err e
  | panic => panic

instance : Monad (Outcome ε) where
  pure := ok
  bind := Outcome.bind

def expect : Option α → Outcome ε α
  | some a => ok a
  | none => panic

def okOr (e : ε) : Option α → Outcome ε α
  | some a => ok a
  | none => err e

/-- The results of a list, up to the first that has none. -/
def collect (f : α → Outcome ε β) : List α → Outcome ε (List β)
  | [] => ok []
  | a :: l => (f a).bind fun b => (collect f l).bind fun bs => ok (b :: bs)

@[simp] theorem ok_bind (a : α) (f : α → Outcome ε β) : (ok a).bind f = f a := rfl

@[simp] theorem err_bind (e : ε) (f : α → Outcome ε β) : (err e).bind f = err e := rfl

@[simp] theorem panic_bind (f : α → Outcome ε β) : (panic : Outcome ε α).bind f = panic := rfl

@[simp] theorem bind_eq (m : Outcome ε α) (f : α → Outcome ε β) : m >>= f = m.bind f := rfl

@[simp] theorem pure_eq (a : α) : (pure a : Outcome ε α) = ok a := rfl

theorem bind_eq_ok_iff {m : Outcome ε α} {f : α → Outcome ε β} {b : β} :
    m.bind f = ok b ↔ ∃ a, m = ok a ∧ f a = ok b := by
  cases m <;> simp

theorem bind_eq_err_iff {m : Outcome ε α} {f : α → Outcome ε β} {e : ε} :
    m.bind f = err e ↔ m = err e ∨ ∃ a, m = ok a ∧ f a = err e := by
  cases m <;> simp

theorem bind_ne_panic {m : Outcome ε α} {f : α → Outcome ε β} (hm : m ≠ panic)
    (hf : ∀ a, m = ok a → f a ≠ panic) : m.bind f ≠ panic := by
  cases m with
  | ok a => exact hf a rfl
  | err e => simp
  | panic => exact absurd rfl hm

theorem collect_ne_panic {f : α → Outcome ε β} {l : List α} (h : ∀ a ∈ l, f a ≠ panic) :
    collect f l ≠ panic := by
  induction l with
  | nil => simp [collect]
  | cons a l ih =>
      refine bind_ne_panic (h a (by simp)) fun b _ => ?_
      refine bind_ne_panic (ih fun a ha => h a (List.mem_cons_of_mem _ ha)) fun bs _ => ?_
      simp

/-- The results stand where their arguments stood. -/
theorem collect_ok {f : α → Outcome ε β} {l : List α} {bs : List β} (h : collect f l = ok bs) :
    bs.length = l.length ∧
      ∀ (i : ℕ) (b : β), bs[i]? = some b → ∃ a, l[i]? = some a ∧ f a = ok b := by
  induction l generalizing bs with
  | nil =>
      obtain rfl := Outcome.ok.inj h
      simp
  | cons a l ih =>
      obtain ⟨b, hb, h⟩ := bind_eq_ok_iff.mp h
      obtain ⟨bs, hbs, h⟩ := bind_eq_ok_iff.mp h
      obtain rfl := Outcome.ok.inj h
      obtain ⟨hlen, hget⟩ := ih hbs
      refine ⟨by simp [hlen], fun i c hc => ?_⟩
      match i with
      | 0 =>
          obtain rfl : b = c := Option.some.inj hc
          exact ⟨a, rfl, hb⟩
      | i + 1 => exact hget i c hc

/-- What a list stands for is what the results of its parts stand for. -/
theorem collect_forall₂ {γ : Type} {R : γ → α → Prop} {f : α → Outcome ε β} {l : List γ}
    {as : List α} {bs : List β} (hl : List.Forall₂ R l as) (h : collect f as = ok bs) :
    List.Forall₂ (fun c b => ∃ a, R c a ∧ f a = ok b) l bs := by
  induction hl generalizing bs with
  | nil =>
      obtain rfl := Outcome.ok.inj h
      exact .nil
  | cons hc _ ih =>
      obtain ⟨b, hb, h⟩ := bind_eq_ok_iff.mp h
      obtain ⟨bs, hbs, h⟩ := bind_eq_ok_iff.mp h
      obtain rfl := Outcome.ok.inj h
      exact .cons ⟨_, hc, hb⟩ (ih hbs)

theorem exists_collect {f : α → Outcome ε β} {l : List α} (h : ∀ a ∈ l, ∃ b, f a = ok b) :
    ∃ bs, collect f l = ok bs := by
  induction l with
  | nil => exact ⟨[], rfl⟩
  | cons a l ih =>
      obtain ⟨b, hb⟩ := h a (by simp)
      obtain ⟨bs, hbs⟩ := ih fun a ha => h a (List.mem_cons_of_mem _ ha)
      exact ⟨b :: bs, by simp [collect, hb, hbs]⟩

/-- The whole ends at the first error, when nothing before it fails. -/
theorem collect_eq_err {f : α → Outcome ε β} {before after : List α} {a : α} {e : ε}
    (hbefore : ∀ a ∈ before, ∃ b, f a = ok b) (ha : f a = err e) :
    collect f (before ++ a :: after) = err e := by
  induction before with
  | nil => simp [collect, ha]
  | cons a' before ih =>
      obtain ⟨b, hb⟩ := hbefore a' (by simp)
      have hrest := ih fun a ha => hbefore a (List.mem_cons_of_mem _ ha)
      simp [collect, hb, hrest]

/-- An error of the whole is an error of a part. -/
theorem exists_err_of_collect {f : α → Outcome ε β} {l : List α} {e : ε}
    (h : collect f l = err e) : ∃ a ∈ l, f a = err e := by
  induction l with
  | nil => contradiction
  | cons a l ih =>
      obtain ha | ⟨b, -, h⟩ := bind_eq_err_iff.mp h
      · exact ⟨a, by simp, ha⟩
      · obtain h | ⟨bs, -, h⟩ := bind_eq_err_iff.mp h
        · obtain ⟨a', ha', he⟩ := ih h
          exact ⟨a', List.mem_cons_of_mem _ ha', he⟩
        · contradiction

end Outcome

end Idakit.Library
