import Mathlib.Data.List.DropRight

/-!
White space in a text, as Unicode has it, and the words between.
-/

namespace Idakit.Library

/-- The characters with the property `White_Space`. -/
def isWhitespace (c : Char) : Bool :=
  (0x9 ≤ c.toNat && c.toNat ≤ 0xD) || c.toNat == 0x20 || c.toNat == 0x85 || c.toNat == 0xA0 ||
    c.toNat == 0x1680 || (0x2000 ≤ c.toNat && c.toNat ≤ 0x200A) || c.toNat == 0x2028 ||
    c.toNat == 0x2029 || c.toNat == 0x202F || c.toNat == 0x205F || c.toNat == 0x3000

def trim (text : List Char) : List Char := (text.dropWhile isWhitespace).rdropWhile isWhitespace

def splitWhitespace (text : List Char) : List (List Char) :=
  (text.splitOnP isWhitespace).filter (· ≠ [])

/-- A text that consists of words, with white space between and around them. -/
inductive Spaced : List (List Char) → List Char → Prop
  | nil : Spaced [] []
  | space {c : Char} {words : List (List Char)} {rest : List Char} (hc : isWhitespace c = true)
      (h : Spaced words rest) : Spaced words (c :: rest)
  | last {word : List Char} (hne : word ≠ []) (hword : ∀ c ∈ word, isWhitespace c = false) :
      Spaced [word] word
  | word {word : List Char} {c : Char} {words : List (List Char)} {rest : List Char}
      (hne : word ≠ []) (hword : ∀ c ∈ word, isWhitespace c = false) (hc : isWhitespace c = true)
      (h : Spaced words rest) : Spaced (word :: words) (word ++ c :: rest)

theorem Spaced.splitWhitespace_eq {words : List (List Char)} {text : List Char}
    (h : Spaced words text) : splitWhitespace text = words := by
  induction h with
  | nil => rfl
  | space hc h ih =>
      rw [splitWhitespace, List.splitOnP_cons_eq_if_modifyHead, if_pos hc]
      simpa [splitWhitespace] using ih
  | last hne hword =>
      rw [splitWhitespace, List.splitOnP_eq_singleton hword]
      simp [hne]
  | word hne hword hc h ih =>
      rw [splitWhitespace, List.splitOnP_append_cons_of_forall_mem hword _ hc]
      simpa [hne, splitWhitespace] using ih

theorem exists_spaced (text : List Char) : ∃ words, Spaced words text := by
  induction text with
  | nil => exact ⟨[], .nil⟩
  | cons c rest ih =>
      obtain ⟨words, h⟩ := ih
      cases hc : isWhitespace c with
      | true => exact ⟨words, .space hc h⟩
      | false =>
          have hword {word : List Char} (h : ∀ d ∈ word, isWhitespace d = false) :
              ∀ d ∈ c :: word, isWhitespace d = false :=
            List.forall_mem_cons.mpr ⟨hc, h⟩
          -- The character begins a word, or is put in front of the first one.
          cases h with
          | nil => exact ⟨[[c]], .last (by simp) (hword (by simp))⟩
          | space hd h => exact ⟨[c] :: words, .word (by simp) (hword (by simp)) hd h⟩
          | last hne h => exact ⟨[c :: rest], .last (by simp) (hword h)⟩
          | word hne hw hd h => exact ⟨_, .word (by simp) (hword hw) hd h⟩

/-- A text is split into the words that it consists of. -/
theorem spaced_iff {words : List (List Char)} {text : List Char} :
    Spaced words text ↔ splitWhitespace text = words := by
  refine ⟨Spaced.splitWhitespace_eq, fun h => ?_⟩
  obtain ⟨words', h'⟩ := exists_spaced text
  rw [← h, h'.splitWhitespace_eq]
  exact h'

end Idakit.Library
