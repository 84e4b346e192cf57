import Mathlib.Data.List.Basic
import Mathlib.Data.Nat.Notation

/-!
Texts that can be read back without lookahead. A word over one class of
symbols ends where the class does; a printed value is read back from in
front of whatever follows it, as long as what follows goes on with one of
a few stop symbols. From readable parts readable wholes are put together:
numerals, optional marked numbers and separated lists in closing brackets.
-/

namespace Idakit.Library

variable {σ α : Type*}

/-- A text that is over, or goes on with a symbol of the class `stop`. -/
def Stops (stop : σ → Prop) (rest : List σ) : Prop :=
  ∀ s ∈ rest.head?, stop s

@[simp] theorem stops_nil (stop : σ → Prop) : Stops stop [] := by
  simp [Stops]

@[simp] theorem stops_cons (stop : σ → Prop) (s : σ) (rest : List σ) :
    Stops stop (s :: rest) ↔ stop s := by
  simp [Stops]

theorem Stops.imp {stop stop' : σ → Prop} {rest : List σ} (h : Stops stop rest)
    (himp : ∀ s, stop s → stop' s) : Stops stop' rest :=
  fun s hs => himp s (h s hs)

/-- A word over one class of symbols ends where the class does. -/
theorem word_inj {p : σ → Prop} {u v r r' : List σ} (hu : ∀ s ∈ u, p s)
    (hv : ∀ s ∈ v, p s) (hr : Stops (fun s => ¬p s) r) (hr' : Stops (fun s => ¬p s) r')
    (h : u ++ r = v ++ r') : u = v ∧ r = r' := by
  induction u generalizing v with
  | nil =>
      cases v with
      | nil => exact ⟨rfl, h⟩
      | cons s v =>
          rw [List.nil_append, List.cons_append] at h
          rw [h, stops_cons] at hr
          exact absurd (hv s (by simp)) hr
  | cons s u ih =>
      cases v with
      | nil =>
          rw [List.nil_append, List.cons_append] at h
          rw [← h, stops_cons] at hr'
          exact absurd (hu s (by simp)) hr'
      | cons t v =>
          obtain ⟨rfl, htail⟩ := List.cons_eq_cons.mp h
          obtain ⟨rfl, hrest⟩ := ih (fun s hs => hu s (List.mem_cons_of_mem _ hs))
            (fun s hs => hv s (List.mem_cons_of_mem _ hs)) htail
          exact ⟨rfl, hrest⟩

/-- The value `a` is read back from its print: no other value of the domain
prints the same in front of texts that begin with a stop symbol. -/
def Reads (dom : α → Prop) (stop : σ → Prop) (print : α → List σ) (a : α) : Prop :=
  ∀ b, dom b → ∀ r r', Stops stop r → Stops stop r' → print a ++ r = print b ++ r' →
    a = b ∧ r = r'

/-! ### Separated lists -/

def separated (sep : σ) (print : α → List σ) : List α → List σ
  | [] => []
  | a :: l => print a ++ l.flatMap fun b => sep :: print b

section

variable {dom : α → Prop} {stop : σ → Prop} {print : α → List σ} {sep close : σ}

/-- The separated tail of a list is read back in front of its closing
symbol. -/
theorem tail_inj (hsep : stop sep) (hclose : stop close) (hne : sep ≠ close) {l l' : List α}
    (hl : ∀ a ∈ l, Reads dom stop print a) (hl' : ∀ a ∈ l', dom a) {r r' : List σ}
    (h : (l.flatMap fun b => sep :: print b) ++ close :: r =
      (l'.flatMap fun b => sep :: print b) ++ close :: r') : l = l' ∧ r = r' := by
  induction l generalizing l' with
  | nil =>
      cases l' with
      | nil => exact ⟨rfl, (List.cons_eq_cons.mp h).2⟩
      | cons b l' => exact absurd (List.cons_eq_cons.mp h).1.symm hne
  | cons a l ih =>
      cases l' with
      | nil => exact absurd (List.cons_eq_cons.mp h).1 hne
      | cons b l' =>
          have hstops : ∀ (l : List α) (r : List σ),
              Stops stop ((l.flatMap fun b => sep :: print b) ++ close :: r) := by
            intro l r
            cases l <;> simp [hsep, hclose]
          rw [List.flatMap_cons, List.flatMap_cons, List.cons_append, List.cons_append,
            List.cons_append, List.cons_append, List.append_assoc, List.append_assoc] at h
          obtain ⟨rfl, htail⟩ := hl a (by simp) b (hl' b (by simp)) _ _ (hstops l r)
            (hstops l' r') (List.cons_eq_cons.mp h).2
          obtain ⟨rfl, hrest⟩ := ih (fun a ha => hl a (List.mem_cons_of_mem _ ha))
            (fun a ha => hl' a (List.mem_cons_of_mem _ ha)) htail
          exact ⟨rfl, hrest⟩

/-- A separated list is read back in front of its closing symbol, if no
entry begins with that symbol. -/
theorem separated_inj (hsep : stop sep) (hclose : stop close) (hne : sep ≠ close)
    (hopen : ∀ a, dom a → ∃ s t, print a = s :: t ∧ s ≠ close) {l l' : List α}
    (hdom : ∀ a ∈ l, dom a) (hl : ∀ a ∈ l, Reads dom stop print a)
    (hl' : ∀ a ∈ l', dom a) {r r' : List σ}
    (h : separated sep print l ++ close :: r = separated sep print l' ++ close :: r') :
    l = l' ∧ r = r' := by
  cases l with
  | nil =>
      cases l' with
      | nil => exact ⟨rfl, (List.cons_eq_cons.mp h).2⟩
      | cons b l' =>
          obtain ⟨s, t, hprint, hs⟩ := hopen b (hl' b (by simp))
          rw [separated, separated, hprint] at h
          exact absurd (List.cons_eq_cons.mp h).1.symm hs
  | cons a l =>
      cases l' with
      | nil =>
          obtain ⟨s, t, hprint, hs⟩ := hopen a (hdom a (by simp))
          rw [separated, separated, hprint] at h
          exact absurd (List.cons_eq_cons.mp h).1 hs
      | cons b l' =>
          -- A separator in front makes tails of the two lists.
          have h' : ((a :: l).flatMap fun b => sep :: print b) ++ close :: r =
              ((b :: l').flatMap fun b => sep :: print b) ++ close :: r' :=
            congrArg (sep :: ·) h
          exact tail_inj hsep hclose hne hl hl' h'

end

/-! ### Numerals -/

def decimal (n : ℕ) : List Char := Nat.toDigits 10 n

theorem isDigit_of_mem_decimal {n : ℕ} {c : Char} (hc : c ∈ decimal n) : c.isDigit = true :=
  Nat.isDigit_of_mem_toDigits (by decide) (by decide) hc

theorem decimal_inj {n m : ℕ} {r r' : List Char}
    (hr : Stops (fun c => ¬c.isDigit = true) r) (hr' : Stops (fun c => ¬c.isDigit = true) r')
    (h : decimal n ++ r = decimal m ++ r') : n = m ∧ r = r' := by
  obtain ⟨hd, h⟩ := word_inj (fun _ => isDigit_of_mem_decimal)
    (fun _ => isDigit_of_mem_decimal) hr hr' h
  have hn : Nat.ofDigitChars 10 (decimal n) 0 = n := Nat.ofDigitChars_ten_toDigits
  have hm : Nat.ofDigitChars 10 (decimal m) 0 = m := Nat.ofDigitChars_ten_toDigits
  rw [hd, hm] at hn
  exact ⟨hn.symm, h⟩

/-- An optional number behind a mark, nothing if there is none. -/
def marked (mark : Char) : Option ℕ → List Char
  | none => []
  | some n => mark :: decimal n

/-- A marked number is read back in front of a text that begins neither with
its mark nor with a digit. -/
theorem marked_inj {mark : Char} {o o' : Option ℕ} {r r' : List Char}
    (hr : Stops (fun c => c ≠ mark ∧ ¬c.isDigit = true) r)
    (hr' : Stops (fun c => c ≠ mark ∧ ¬c.isDigit = true) r')
    (h : marked mark o ++ r = marked mark o' ++ r') : o = o' ∧ r = r' := by
  cases o with
  | none =>
      cases o' with
      | none => exact ⟨rfl, h⟩
      | some m =>
          rw [marked, marked, List.nil_append, List.cons_append] at h
          rw [h, stops_cons] at hr
          exact absurd rfl hr.1
  | some n =>
      cases o' with
      | none =>
          rw [marked, marked, List.nil_append, List.cons_append] at h
          rw [← h, stops_cons] at hr'
          exact absurd rfl hr'.1
      | some m =>
          obtain ⟨rfl, hrest⟩ := decimal_inj (hr.imp fun _ h => h.2) (hr'.imp fun _ h => h.2)
            (List.cons_eq_cons.mp h).2
          exact ⟨rfl, hrest⟩

end Idakit.Library
