import Mathlib.Data.List.Basic
import Mathlib.Data.List.Sort

/-!
Reading a text as tokens, the longest one each time. A text is written as
tokens with blanks between some of them; it is read back as those tokens
exactly when the longest token at each of their places is the one written.

A dictionary of fixed spellings whose longer entries stand first is read by
its first match.
-/

namespace Idakit.Library

universe u

variable {σ τ : Type u}

/-! ### Dictionaries -/

section Dictionary

variable [DecidableEq σ] (spell : τ → List σ) (dict : List τ)

def firstEntry (text : List σ) : Option τ :=
  dict.find? fun t => (spell t).isPrefixOf text

/-- Some entry goes on with a symbol behind the spelling of an entry. -/
def goesOn (t : τ) (s : σ) : Bool :=
  dict.any fun u => (spell t ++ [s]).isPrefixOf (spell u)

variable {spell dict}

/-- The first entry is the longest where longer entries stand first. -/
theorem length_le_of_firstEntry
    (hsorted : dict.Pairwise fun t u => (spell u).length ≤ (spell t).length) {text : List σ}
    {t u : τ} (ht : firstEntry spell dict text = some t) (hu : u ∈ dict)
    (htext : spell u <+: text) : (spell u).length ≤ (spell t).length := by
  induction dict with
  | nil => cases hu
  | cons v dict ih =>
      rw [List.pairwise_cons] at hsorted
      rw [firstEntry, List.find?_cons] at ht
      split at ht
      · obtain rfl := Option.some.inj ht
        rcases List.mem_cons.mp hu with rfl | hu
        · exact le_rfl
        · exact hsorted.1 u hu
      · next hv =>
          rcases List.mem_cons.mp hu with rfl | hu
          · exact absurd (List.isPrefixOf_iff_prefix.mpr htext) (by simp [hv])
          · exact ih hsorted.2 ht hu

/-- An entry that nothing in the text extends is read back. -/
theorem firstEntry_spell (hsorted : dict.Pairwise fun t u => (spell u).length ≤ (spell t).length)
    (hinj : Function.Injective spell) {t : τ} (ht : t ∈ dict) {rest : List σ}
    (hrest : ∀ s ∈ rest.head?, goesOn spell dict t s = false) :
    firstEntry spell dict (spell t ++ rest) = some t := by
  obtain ⟨u, hu⟩ : ∃ u, firstEntry spell dict (spell t ++ rest) = some u := by
    rw [← Option.isSome_iff_exists, firstEntry, List.find?_isSome]
    exact ⟨t, ht, by simp⟩
  have hmem : u ∈ dict := List.mem_of_find?_eq_some hu
  have hstart : spell u <+: spell t ++ rest := by
    simpa using List.find?_some hu
  have hle := length_le_of_firstEntry hsorted hu ht (by simp)
  obtain ⟨l, hl⟩ := List.prefix_of_prefix_length_le (by simp) hstart hle
  cases l with
  | nil =>
      rw [List.append_nil] at hl
      rw [hu, hinj hl]
  | cons s l =>
      -- A longer entry would go on with the first symbol of the rest.
      obtain ⟨r, hr⟩ := hstart
      rw [← hl, List.append_assoc] at hr
      have hhead : s ∈ rest.head? := by
        rw [← List.append_cancel_left hr]
        rfl
      have hext : goesOn spell dict t s = true := by
        refine List.any_eq_true.mpr ⟨u, hmem, ?_⟩
        rw [← hl]
        simp
      simp [hrest s hhead] at hext

theorem spell_of_firstEntry {text : List σ} {t : τ} (h : firstEntry spell dict text = some t) :
    spell t ++ text.drop (spell t).length = text := by
  obtain ⟨rest, rfl⟩ : spell t <+: text := by simpa using List.find?_some h
  rw [List.drop_left]

end Dictionary

/-! ### Texts -/

inductive Piece (τ : Type u)
  | blank
  | token (t : τ)

section Text

variable (blank : σ) (spell : τ → List σ) (munch : List σ → Option (τ × List σ))

def flatten : List (Piece τ) → List σ
  | [] => []
  | .blank :: ps => blank :: flatten ps
  | .token t :: ps => spell t ++ flatten ps

def tokens : List (Piece τ) → List τ
  | [] => []
  | .blank :: ps => tokens ps
  | .token t :: ps => t :: tokens ps

/-- The tokens of a text, each of them read by `munch`. -/
def lex [DecidableEq σ] : ℕ → List σ → Option (List τ)
  | _, [] => some []
  | 0, _ :: _ => none
  | n + 1, s :: text =>
      if s = blank then lex n text
      else do
        let (t, rest) ← munch (s :: text)
        let ts ← lex n rest
        some (t :: ts)

/-- Every token is read where it is written. -/
def Munched : List (Piece τ) → Prop
  | [] => True
  | .blank :: ps => Munched ps
  | .token t :: ps => munch (spell t ++ flatten blank spell ps) = some (t, flatten blank spell ps) ∧
      Munched ps

end Text

/-- What is asked of a reader of tokens: it reads from the front, and no
token is empty or holds a blank. -/
structure Munches (blank : σ) (spell : τ → List σ) (munch : List σ → Option (τ × List σ)) :
    Prop where
  spell_append : ∀ ⦃text t rest⦄, munch text = some (t, rest) → spell t ++ rest = text
  spell_ne_nil : ∀ t, spell t ≠ []
  blank_notMem : ∀ t, blank ∉ spell t

section

variable {blank : σ} {spell : τ → List σ} {munch : List σ → Option (τ × List σ)}

theorem tokens_append (ps qs : List (Piece τ)) : tokens (ps ++ qs) = tokens ps ++ tokens qs := by
  induction ps with
  | nil => rfl
  | cons p ps ih => cases p <;> simp [tokens, ih]

/-- Where a text is read token by token, so is its end. -/
theorem Munched.right {ps qs : List (Piece τ)} (h : Munched blank spell munch (ps ++ qs)) :
    Munched blank spell munch qs := by
  induction ps with
  | nil => exact h
  | cons p ps ih =>
      cases p with
      | blank => exact ih h
      | token t => exact ih h.2

variable [DecidableEq σ]

theorem filter_spell (h : Munches blank spell munch) (t : τ) :
    (spell t).filter (· ≠ blank) = spell t :=
  List.filter_eq_self.mpr fun s hs => by
    have hne : s ≠ blank := fun hblank => h.blank_notMem t (hblank ▸ hs)
    simpa using hne

/-- A text without its blanks is the spelling of its tokens. -/
theorem filter_flatten (h : Munches blank spell munch) (ps : List (Piece τ)) :
    (flatten blank spell ps).filter (· ≠ blank) = (tokens ps).flatMap spell := by
  induction ps with
  | nil => rfl
  | cons p ps ih =>
      cases p with
      | blank => simpa [flatten, tokens] using ih
      | token t => rw [flatten, List.filter_append, filter_spell h, ih, tokens, List.flatMap_cons]

/-- What is read spells the text. -/
theorem filter_of_lex (h : Munches blank spell munch) {n : ℕ} {text : List σ} {ts : List τ}
    (hlex : lex blank munch n text = some ts) : text.filter (· ≠ blank) = ts.flatMap spell := by
  induction n generalizing text ts with
  | zero =>
      cases text with
      | nil => obtain rfl := Option.some.inj hlex; rfl
      | cons s text => cases hlex
  | succ n ih =>
      cases text with
      | nil => obtain rfl := Option.some.inj hlex; rfl
      | cons s text =>
          rw [lex] at hlex
          split at hlex
          · next hs => simpa [hs] using ih hlex
          · simp only [Option.bind_eq_bind, Option.bind_eq_some_iff] at hlex
            obtain ⟨⟨t, rest⟩, hmunch, ts', hrest, hts⟩ := hlex
            obtain rfl := Option.some.inj hts
            rw [← h.spell_append hmunch, List.filter_append, filter_spell h, ih hrest,
              List.flatMap_cons]

/-- A text is read back as its tokens where each is read in its place. -/
theorem lex_flatten (h : Munches blank spell munch) {ps : List (Piece τ)}
    (hps : Munched blank spell munch ps) {n : ℕ} (hn : (flatten blank spell ps).length ≤ n) :
    lex blank munch n (flatten blank spell ps) = some (tokens ps) := by
  induction ps generalizing n with
  | nil => cases n <;> rfl
  | cons p ps ih =>
      cases p with
      | blank =>
          rw [flatten, List.length_cons] at hn
          obtain ⟨n, rfl⟩ : ∃ m, n = m + 1 := ⟨n - 1, by omega⟩
          rw [flatten, lex, if_pos rfl]
          exact ih hps (by omega)
      | token t =>
          obtain ⟨hmunch, hps⟩ := hps
          obtain ⟨s, l, hspell⟩ := List.exists_cons_of_ne_nil (h.spell_ne_nil t)
          have hs : s ≠ blank := fun hs => h.blank_notMem t (by simp [hspell, hs])
          rw [flatten, List.length_append, hspell, List.length_cons] at hn
          obtain ⟨n, rfl⟩ : ∃ m, n = m + 1 := ⟨n - 1, by omega⟩
          rw [hspell, List.cons_append] at hmunch
          rw [flatten, hspell, List.cons_append, lex, if_neg hs, hmunch]
          simp only [Option.bind_eq_bind, Option.bind_some, ih hps (n := n) (by omega), tokens]

/-- A text that is read back as its tokens has each read in its place. -/
theorem munched_of_lex (h : Munches blank spell munch) {ps : List (Piece τ)} {n : ℕ}
    (hlex : lex blank munch n (flatten blank spell ps) = some (tokens ps)) :
    Munched blank spell munch ps := by
  induction ps generalizing n with
  | nil => trivial
  | cons p ps ih =>
      cases p with
      | blank =>
          cases n with
          | zero => cases hlex
          | succ n =>
              rw [flatten, lex, if_pos rfl] at hlex
              exact ih hlex
      | token t =>
          obtain ⟨s, l, hspell⟩ := List.exists_cons_of_ne_nil (h.spell_ne_nil t)
          have hs : s ≠ blank := fun hs => h.blank_notMem t (by simp [hspell, hs])
          rw [flatten, hspell, List.cons_append] at hlex
          cases n with
          | zero => cases hlex
          | succ n =>
              rw [lex, if_neg hs] at hlex
              simp only [Option.bind_eq_bind, Option.bind_eq_some_iff] at hlex
              obtain ⟨⟨t', rest⟩, hmunch, ts, hrest, hts⟩ := hlex
              rw [tokens] at hts
              obtain ⟨rfl, rfl⟩ := List.cons.inj (Option.some.inj hts)
              rw [← List.cons_append, ← hspell] at hmunch
              obtain rfl := List.append_cancel_left (h.spell_append hmunch)
              exact ⟨hmunch, ih hrest⟩

end

end Idakit.Library
