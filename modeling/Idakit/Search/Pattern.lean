import Idakit.Library.Whitespace
import Idakit.Types.Table
import Mathlib.Data.List.Forall2

/-!
Hex signatures. A text is read into bytes and a mask for each, and both are
compiled for the kernel; a signature of wildcards alone is refused.
-/

namespace Idakit.Search

open Idakit.Library Idakit.Types

/-! ### The parser -/

def toDigit16 (c : Char) : Option ℕ :=
  if '0'.toNat ≤ c.toNat ∧ c.toNat ≤ '9'.toNat then some (c.toNat - '0'.toNat)
  else if 'a'.toNat ≤ c.toNat ∧ c.toNat ≤ 'f'.toNat then some (c.toNat - 'a'.toNat + 10)
  else if 'A'.toNat ≤ c.toNat ∧ c.toNat ≤ 'F'.toNat then some (c.toNat - 'A'.toNat + 10)
  else none

/-- A digit has a value and a full mask, `?` neither. -/
def nibble (c : Char) : Option (UInt8 × UInt8) :=
  if c = '?' then some (0, 0) else (toDigit16 c).map fun d => (.ofNat d, 0xF)

def parseHexToken : Text → Option (UInt8 × UInt8)
  | [] => none
  | [a] => (nibble a).map fun (v, m) => if m = 0 then (0, 0) else (v, 0xFF)
  | [a, b] =>
      (nibble a).bind fun (hv, hm) =>
        (nibble b).map fun (lv, lm) => (hv <<< 4 ||| lv, hm <<< 4 ||| lm)
  | _ => none

inductive PatternRejection
  | badToken (token : Text) (index : ℕ)
  | noAnchor (total : ℕ)
  deriving DecidableEq

def parseHexTokens (index : ℕ) : List Text → Except PatternRejection (List UInt8 × List UInt8)
  | [] => .ok ([], [])
  | tok :: toks =>
      match parseHexToken tok with
      | none => .error (.badToken tok index)
      | some (b, m) =>
          (parseHexTokens (index + 1) toks).map fun (bytes, mask) => (b :: bytes, m :: mask)

def parseHex (s : Text) : Except PatternRejection (List UInt8 × List UInt8) :=
  parseHexTokens 0 (splitWhitespace s)

/-! ### Compilation -/

def countAnchors (bytesLen : ℕ) (mask : Option (List UInt8)) : ℕ :=
  match mask with
  | some m => m.countP (· ≠ 0)
  | none => bytesLen

def requireAnchor (anchors total : ℕ) : Except PatternRejection Unit :=
  if anchors = 0 then .error (.noAnchor total) else .ok ()

/-- One byte sequence of a compiled pattern; without a mask every byte is
concrete. -/
structure CompiledBinpat where
  bytes : List UInt8
  mask : List UInt8

def binpatFromBytes (bytes mask : List UInt8) : List CompiledBinpat := [⟨bytes, mask⟩]

structure BinSearchFlags where
  caseSensitive : Bool
  bitmask : Bool
  noBreak : Bool
  noShow : Bool

structure Pattern where
  handle : List CompiledBinpat
  flags : BinSearchFlags

structure PatternRejected where
  pattern : Text
  kind : PatternRejection

def Pattern.fromParts (repr : Text) (bytes : List UInt8) (mask : Option (List UInt8)) :
    Except PatternRejected Pattern :=
  match requireAnchor (countAnchors bytes.length mask) bytes.length with
  | .error kind => .error ⟨repr, kind⟩
  | .ok () => .ok ⟨binpatFromBytes bytes (mask.getD []), ⟨false, true, false, false⟩⟩

def Pattern.hex (pattern : Text) : Except PatternRejected Pattern :=
  match parseHex pattern with
  | .error kind => .error ⟨pattern, kind⟩
  | .ok (bytes, mask) => Pattern.fromParts pattern bytes (some mask)

/-! ### What a signature says -/

def IsNibble (c : Char) : Prop := c = '?' ∨ (toDigit16 c).isSome

def IsToken (tok : Text) : Prop :=
  (∃ c, tok = [c] ∧ IsNibble c) ∨ ∃ c d, tok = [c, d] ∧ IsNibble c ∧ IsNibble d

def IsWildcard (tok : Text) : Prop := tok = ['?'] ∨ tok = ['?', '?']

/-- The texts that a signature can be. -/
def IsSignature (s : Text) : Prop :=
  ∃ toks, Spaced toks s ∧ (∀ tok ∈ toks, IsToken tok) ∧ ∃ tok ∈ toks, ¬ IsWildcard tok

def NibbleMatches (c : Char) (n : ℕ) : Prop := c = '?' ∨ toDigit16 c = some n

/-- A byte that a token matches: a lone digit is the byte of that value. -/
def TokenMatches : Text → UInt8 → Prop
  | [c], b => NibbleMatches c b.toNat
  | [c, d], b => NibbleMatches c (b.toNat / 16) ∧ NibbleMatches d (b.toNat % 16)
  | _, _ => False

/-! ### Tokens -/

theorem toDigit16_lt {c : Char} {d : ℕ} (h : toDigit16 c = some d) : d < 16 := by
  unfold toDigit16 at h
  have h0 : '0'.toNat = 48 := rfl
  have h9 : '9'.toNat = 57 := rfl
  have ha : 'a'.toNat = 97 := rfl
  have hf : 'f'.toNat = 102 := rfl
  have hA : 'A'.toNat = 65 := rfl
  have hF : 'F'.toNat = 70 := rfl
  grind

theorem nibble_isSome_iff (c : Char) : (nibble c).isSome ↔ IsNibble c := by
  by_cases hc : c = '?'
  · simp [nibble, IsNibble, hc]
  · simp [nibble, IsNibble, hc]

theorem nibble_eq_some {c : Char} {v m : UInt8} (h : nibble c = some (v, m)) :
    (c = '?' ∧ v = 0 ∧ m = 0) ∨
    ∃ d, d < 16 ∧ c ≠ '?' ∧ toDigit16 c = some d ∧ v = .ofNat d ∧ m = 0xF := by
  unfold nibble at h
  split at h
  · rename_i hc
    obtain ⟨rfl, rfl⟩ := Prod.mk.inj (Option.some.inj h)
    exact .inl ⟨hc, rfl, rfl⟩
  · rename_i hc
    obtain ⟨d, hd, h⟩ := Option.map_eq_some_iff.mp h
    obtain ⟨rfl, rfl⟩ := Prod.mk.inj h
    exact .inr ⟨d, toDigit16_lt hd, hc, hd, rfl, rfl⟩

/-- The bytes of two nibbles. -/
theorem toNat_nibbles {h l : ℕ} (hh : h < 16) (hl : l < 16) :
    (UInt8.ofNat h <<< 4 ||| UInt8.ofNat l).toNat = h * 16 + l := by
  have hshift : (UInt8.ofNat h <<< 4).toNat = h <<< 4 := by
    rw [UInt8.toNat_shiftLeft, UInt8.toNat_ofNat', Nat.mod_eq_of_lt (by omega : h < 2 ^ 8)]
    show h <<< 4 % 2 ^ 8 = h <<< 4
    rw [Nat.shiftLeft_eq]
    omega
  rw [UInt8.toNat_or, hshift, UInt8.toNat_ofNat', Nat.mod_eq_of_lt (by omega : l < 2 ^ 8),
    ← Nat.shiftLeft_add_eq_or_of_lt (by omega), Nat.shiftLeft_eq]

theorem toNat_and_low (b : UInt8) : (b &&& 0x0F).toNat = b.toNat % 16 := by
  rw [UInt8.toNat_and]
  exact Nat.and_two_pow_sub_one_eq_mod b.toNat 4

theorem toNat_and_high (b : UInt8) : (b &&& 0xF0).toNat = b.toNat / 16 * 16 := by
  have hall : ∀ n < 256, n &&& 0xF0 = n / 16 * 16 := by decide +kernel
  rw [UInt8.toNat_and]
  exact hall b.toNat b.toNat_lt

theorem and_full (b : UInt8) : b &&& 0xFF = b := by
  have hmod : b.toNat &&& 255 = b.toNat % 256 := Nat.and_two_pow_sub_one_eq_mod b.toNat 8
  have hlt := b.toNat_lt
  apply UInt8.toNat_inj.mp
  rw [UInt8.toNat_and]
  show b.toNat &&& 255 = b.toNat
  omega

theorem nibbleMatches_of_digit {c : Char} {d n : ℕ} (hc : c ≠ '?') (hd : toDigit16 c = some d) :
    NibbleMatches c n ↔ n = d := by
  simp [NibbleMatches, hc, hd, eq_comm]

theorem nibbleMatches_wildcard (n : ℕ) : NibbleMatches '?' n := .inl rfl

/-- A lone nibble: any byte, or the byte of the digit. -/
theorem lone_matches {c : Char} {v m : UInt8} (h : nibble c = some (v, m)) (b : UInt8) :
    b &&& (if m = 0 then 0 else 0xFF) = (if m = 0 then 0 else v) &&& (if m = 0 then 0 else 0xFF) ↔
      NibbleMatches c b.toNat := by
  obtain ⟨rfl, rfl, rfl⟩ | ⟨d, hlt, hne, hd, rfl, rfl⟩ := nibble_eq_some h
  · simp [nibbleMatches_wildcard]
  · rw [if_neg (by decide), if_neg (by decide), and_full, and_full,
      nibbleMatches_of_digit hne hd, ← UInt8.toNat_inj, UInt8.toNat_ofNat']
    omega

/-- Two nibbles match the halves of a byte. -/
theorem pair_matches {a c : Char} {hv hm lv lm : UInt8} (ha : nibble a = some (hv, hm))
    (hc : nibble c = some (lv, lm)) (b : UInt8) :
    b &&& (hm <<< 4 ||| lm) = (hv <<< 4 ||| lv) &&& (hm <<< 4 ||| lm) ↔
      NibbleMatches a (b.toNat / 16) ∧ NibbleMatches c (b.toNat % 16) := by
  have hlt := b.toNat_lt
  obtain ⟨rfl, rfl, rfl⟩ | ⟨h, hh, hne, hd, rfl, rfl⟩ := nibble_eq_some ha
  · obtain ⟨rfl, rfl, rfl⟩ | ⟨l, hl, hne', hd', rfl, rfl⟩ := nibble_eq_some hc
    · simp [nibbleMatches_wildcard]
    · have hv := toNat_nibbles (show 0 < 16 by omega) hl
      have hmask : ((0 : UInt8) <<< 4 ||| 0xF) = 0x0F := rfl
      rw [nibbleMatches_of_digit hne' hd', hmask, ← UInt8.toNat_inj, toNat_and_low, toNat_and_low]
      have hzero : UInt8.ofNat 0 = 0 := rfl
      rw [hzero] at hv
      rw [hv]
      simp only [nibbleMatches_wildcard, true_and]
      omega
  · obtain ⟨rfl, rfl, rfl⟩ | ⟨l, hl, hne', hd', rfl, rfl⟩ := nibble_eq_some hc
    · have hv := toNat_nibbles hh (show 0 < 16 by omega)
      have hmask : ((0xF : UInt8) <<< 4 ||| 0) = 0xF0 := rfl
      rw [nibbleMatches_of_digit hne hd, hmask, ← UInt8.toNat_inj, toNat_and_high, toNat_and_high]
      have hzero : UInt8.ofNat 0 = 0 := rfl
      rw [hzero] at hv
      rw [hv]
      simp only [nibbleMatches_wildcard, and_true]
      omega
    · have hv := toNat_nibbles hh hl
      have hmask : ((0xF : UInt8) <<< 4 ||| 0xF) = 0xFF := rfl
      rw [hmask, and_full, and_full, nibbleMatches_of_digit hne hd,
        nibbleMatches_of_digit hne' hd', ← UInt8.toNat_inj, hv]
      omega

theorem nibble_mask {c : Char} {v m : UInt8} (h : nibble c = some (v, m)) :
    c = '?' ∧ m = 0 ∨ c ≠ '?' ∧ m = 0xF := by
  obtain ⟨hc, -, rfl⟩ | ⟨d, -, hne, -, -, rfl⟩ := nibble_eq_some h
  · exact .inl ⟨hc, rfl⟩
  · exact .inr ⟨hne, rfl⟩

theorem lone_mask_eq_zero {c : Char} {v m : UInt8} (h : nibble c = some (v, m)) :
    (if m = 0 then 0 else 0xFF : UInt8) = 0 ↔ IsWildcard [c] := by
  obtain ⟨rfl, rfl⟩ | ⟨hne, rfl⟩ := nibble_mask h
  · simp [IsWildcard]
  · simp [IsWildcard, hne]

theorem pair_mask_eq_zero {a c : Char} {hv hm lv lm : UInt8} (ha : nibble a = some (hv, hm))
    (hc : nibble c = some (lv, lm)) : hm <<< 4 ||| lm = 0 ↔ IsWildcard [a, c] := by
  obtain ⟨rfl, rfl⟩ | ⟨hne, rfl⟩ := nibble_mask ha
  · obtain ⟨rfl, rfl⟩ | ⟨hne', rfl⟩ := nibble_mask hc
    · simp [IsWildcard]
    · simp [IsWildcard, hne']
  · have hleft : ((0xF : UInt8) <<< 4) ≠ 0 := by decide
    obtain ⟨rfl, rfl⟩ | ⟨hne', rfl⟩ := nibble_mask hc
    · simp [IsWildcard, hne, hleft]
    · simp [IsWildcard, hne]

/-- A token is refused, or read as a byte and a mask that say the same. -/
theorem parseHexToken_spec (tok : Text) :
    (¬ IsToken tok ∧ parseHexToken tok = none) ∨
    ∃ v m, IsToken tok ∧ parseHexToken tok = some (v, m) ∧ (m = 0 ↔ IsWildcard tok) ∧
      ∀ b : UInt8, b &&& m = v &&& m ↔ TokenMatches tok b := by
  match tok with
  | [] => exact .inl ⟨by simp [IsToken], rfl⟩
  | [a] =>
      cases ha : nibble a with
      | none =>
          refine .inl ⟨?_, by simp [parseHexToken, ha]⟩
          have hnot : ¬ IsNibble a := by simp [← nibble_isSome_iff, ha]
          simpa [IsToken] using hnot
      | some p =>
          obtain ⟨v, m⟩ := p
          have hnibble : IsNibble a := by simp [← nibble_isSome_iff, ha]
          refine .inr ⟨if m = 0 then 0 else v, if m = 0 then 0 else 0xFF, ?_, ?_, ?_, ?_⟩
          · exact .inl ⟨a, rfl, hnibble⟩
          · simp only [parseHexToken, ha, Option.map_some]
            split <;> rfl
          · exact lone_mask_eq_zero ha
          · exact lone_matches ha
  | [a, c] =>
      cases ha : nibble a with
      | none =>
          refine .inl ⟨?_, by simp [parseHexToken, ha]⟩
          have hnot : ¬ IsNibble a := by simp [← nibble_isSome_iff, ha]
          simp [IsToken, hnot]
      | some p =>
          cases hc : nibble c with
          | none =>
              refine .inl ⟨?_, by simp [parseHexToken, ha, hc]⟩
              have hnot : ¬ IsNibble c := by simp [← nibble_isSome_iff, hc]
              simp [IsToken, hnot]
          | some q =>
              obtain ⟨hv, hm⟩ := p
              obtain ⟨lv, lm⟩ := q
              refine .inr ⟨hv <<< 4 ||| lv, hm <<< 4 ||| lm, ?_, ?_, ?_, ?_⟩
              · refine .inr ⟨a, c, rfl, ?_, ?_⟩
                · simp [← nibble_isSome_iff, ha]
                · simp [← nibble_isSome_iff, hc]
              · simp [parseHexToken, ha, hc]
              · exact pair_mask_eq_zero ha hc
              · exact pair_matches ha hc
  | _ :: _ :: _ :: _ => exact .inl ⟨by simp [IsToken], rfl⟩

/-! ### Texts -/

/-- What a parse of the tokens reads: their bytes beside their masks. -/
theorem parseHexTokens_ok {toks : List Text} {index : ℕ} {bytes mask : List UInt8}
    (h : parseHexTokens index toks = .ok (bytes, mask)) :
    ∃ parts, List.Forall₂ (fun tok part => parseHexToken tok = some part) toks parts ∧
      bytes = parts.map (·.1) ∧ mask = parts.map (·.2) := by
  induction toks generalizing index bytes mask with
  | nil =>
      obtain ⟨rfl, rfl⟩ := Prod.mk.inj (Except.ok.inj h)
      exact ⟨[], .nil, rfl, rfl⟩
  | cons tok toks ih =>
      rw [parseHexTokens] at h
      split at h
      · contradiction
      · rename_i b m htok
        cases hrest : parseHexTokens (index + 1) toks with
        | error kind =>
            rw [hrest] at h
            contradiction
        | ok rest =>
            obtain ⟨parts, hparts, hbytes, hmask⟩ := ih hrest
            rw [hrest] at h
            obtain ⟨rfl, rfl⟩ := Prod.mk.inj (Except.ok.inj h)
            refine ⟨(b, m) :: parts, .cons htok hparts, ?_, ?_⟩
            · rw [List.map_cons, hbytes]
            · rw [List.map_cons, hmask]

/-- The token of a rejection is the first that is none, and stands at its
index. -/
theorem parseHexTokens_error {toks : List Text} {index : ℕ} {kind : PatternRejection}
    (h : parseHexTokens index toks = .error kind) :
    ∃ before tok after, toks = before ++ tok :: after ∧ (∀ t ∈ before, IsToken t) ∧
      ¬ IsToken tok ∧ kind = .badToken tok (index + before.length) := by
  induction toks generalizing index kind with
  | nil => contradiction
  | cons tok toks ih =>
      rw [parseHexTokens] at h
      obtain ⟨hnot, hnone⟩ | ⟨v, m, htok, hsome, -⟩ := parseHexToken_spec tok
      · rw [hnone] at h
        exact ⟨[], tok, toks, rfl, by simp, hnot, (Except.error.inj h).symm⟩
      · rw [hsome] at h
        cases hrest : parseHexTokens (index + 1) toks with
        | ok rest =>
            rw [hrest] at h
            contradiction
        | error kind' =>
            obtain ⟨before, bad, after, rfl, hbefore, hbad, hkind⟩ := ih hrest
            rw [hrest] at h
            obtain rfl : kind' = kind := Except.error.inj h
            refine ⟨tok :: before, bad, after, rfl, ?_, hbad, ?_⟩
            · exact List.forall_mem_cons.mpr ⟨htok, hbefore⟩
            · rw [hkind, List.length_cons, Nat.add_assoc, Nat.add_comm 1]

theorem isToken_of_parse {tok : Text} {part : UInt8 × UInt8}
    (h : parseHexToken tok = some part) : IsToken tok := by
  obtain ⟨-, hnone⟩ | ⟨v, m, htok, -⟩ := parseHexToken_spec tok
  · rw [hnone] at h
    contradiction
  · exact htok

theorem mask_of_parse {tok : Text} {part : UInt8 × UInt8}
    (h : parseHexToken tok = some part) : part.2 = 0 ↔ IsWildcard tok := by
  obtain ⟨-, hnone⟩ | ⟨v, m, -, hsome, hmask, -⟩ := parseHexToken_spec tok
  · rw [hnone] at h
    contradiction
  · rw [hsome] at h
    rw [← Option.some.inj h]
    exact hmask

theorem matches_of_parse {tok : Text} {part : UInt8 × UInt8}
    (h : parseHexToken tok = some part) (b : UInt8) :
    b &&& part.2 = part.1 &&& part.2 ↔ TokenMatches tok b := by
  obtain ⟨-, hnone⟩ | ⟨v, m, -, hsome, -, hmatches⟩ := parseHexToken_spec tok
  · rw [hnone] at h
    contradiction
  · rw [hsome] at h
    rw [← Option.some.inj h]
    exact hmatches b

/-- Nothing anchors a signature of wildcards. -/
theorem countAnchors_eq_zero {toks : List Text} {parts : List (UInt8 × UInt8)}
    (h : List.Forall₂ (fun tok part => parseHexToken tok = some part) toks parts) :
    (parts.map (·.2)).countP (· ≠ 0) = 0 ↔ ∀ tok ∈ toks, IsWildcard tok := by
  induction h with
  | nil => simp
  | cons htok _ ih =>
      rw [List.map_cons, List.forall_mem_cons, ← ih, ← mask_of_parse htok, List.countP_cons]
      simp [and_comm]

/-- What is built of parts: a mask for each byte, under the flag that takes
the mask bitwise. -/
theorem Pattern.fromParts_ok {repr : Text} {bytes mask : List UInt8} {p : Pattern} :
    Pattern.fromParts repr bytes (some mask) = .ok p ↔
      mask.countP (· ≠ 0) ≠ 0 ∧ p = ⟨[⟨bytes, mask⟩], ⟨false, true, false, false⟩⟩ := by
  rw [Pattern.fromParts, requireAnchor, countAnchors]
  by_cases hzero : mask.countP (· ≠ 0) = 0
  · rw [if_pos hzero]
    exact iff_of_false (by simp) fun h => h.1 hzero
  · rw [if_neg hzero]
    exact ⟨fun h => ⟨hzero, (Except.ok.inj h).symm⟩, fun h => h.2 ▸ rfl⟩

/-- A text is accepted as what its words are read as, one of them no
wildcard. -/
theorem Pattern.hex_ok {s : Text} {p : Pattern} (h : Pattern.hex s = .ok p) :
    ∃ parts, List.Forall₂ (fun tok part => parseHexToken tok = some part)
        (splitWhitespace s) parts ∧
      (∃ tok ∈ splitWhitespace s, ¬ IsWildcard tok) ∧
      p.handle = binpatFromBytes (parts.map (·.1)) (parts.map (·.2)) ∧
      p.flags.bitmask = true := by
  unfold Pattern.hex at h
  split at h
  · contradiction
  · rename_i bytes mask hparse
    obtain ⟨parts, hparts, rfl, rfl⟩ := parseHexTokens_ok hparse
    obtain ⟨hanchor, rfl⟩ := Pattern.fromParts_ok.mp h
    refine ⟨parts, hparts, ?_, rfl, rfl⟩
    rw [Ne, countAnchors_eq_zero hparts] at hanchor
    push Not at hanchor
    exact hanchor

/-- The texts that are accepted are the signatures. -/
theorem Pattern.hex_accepts_iff (s : Text) : (∃ p, Pattern.hex s = .ok p) ↔ IsSignature s := by
  constructor
  · rintro ⟨p, h⟩
    obtain ⟨parts, hparts, hanchor, -⟩ := Pattern.hex_ok h
    refine ⟨splitWhitespace s, spaced_iff.mpr rfl, fun tok htok => ?_, hanchor⟩
    have htokens := hparts.imp fun _ _ h => And.intro (isToken_of_parse h) h
    exact ((List.forall₂_and_left (splitWhitespace s) parts).mp htokens).1 tok htok
  · rintro ⟨toks, hspaced, htoks, hanchor⟩
    have hsplit : splitWhitespace s = toks := spaced_iff.mp hspaced
    unfold Pattern.hex
    cases hparse : parseHex s with
    | error kind =>
        obtain ⟨before, bad, after, heq, -, hbad, -⟩ := parseHexTokens_error hparse
        have hmem : bad ∈ toks := by
          rw [← hsplit, heq]
          simp
        exact absurd (htoks bad hmem) hbad
    | ok read =>
        obtain ⟨bytes, mask⟩ := read
        obtain ⟨parts, hparts, rfl, rfl⟩ := parseHexTokens_ok hparse
        refine ⟨_, Pattern.fromParts_ok.mpr ⟨?_, rfl⟩⟩
        rw [hsplit] at hparts
        rw [Ne, countAnchors_eq_zero hparts]
        push Not
        exact hanchor

example : parseHex "  0A\t4? ?B 3".toList =
    .ok ([0x0A, 0x40, 0x0B, 0x03], [0xFF, 0xF0, 0x0F, 0xFF]) := rfl

end Idakit.Search
