import Mathlib.Data.Bool.Basic
import Mathlib.Data.List.Basic
import Mathlib.Data.Nat.Notation

/-!
Reading UTF-8. Bytes are read sequence by sequence; where the bytes are not
UTF-8 the longest beginning of a sequence is one unreadable chunk, and
reading goes on behind it. A strict reader refuses unreadable chunks, and a
lossy one puts U+FFFD for each.
-/

namespace Idakit.Library.Utf8

def isContinuation (b : UInt8) : Bool := 0x80 ≤ b.toNat && b.toNat ≤ 0xBF

/-- What may be second in a sequence of three or four bytes: no sequence is
longer than needed, a surrogate, or past U+10FFFF. -/
def isSecond (a b : UInt8) : Bool :=
  if a.toNat = 0xE0 then 0xA0 ≤ b.toNat && b.toNat ≤ 0xBF
  else if a.toNat = 0xED then 0x80 ≤ b.toNat && b.toNat ≤ 0x9F
  else if a.toNat = 0xF0 then 0x90 ≤ b.toNat && b.toNat ≤ 0xBF
  else if a.toNat = 0xF4 then 0x80 ≤ b.toNat && b.toNat ≤ 0x8F
  else isContinuation b

/-- How long the sequence is that a byte begins; zero if it begins none. -/
def width (a : UInt8) : ℕ :=
  if a.toNat ≤ 0x7F then 1
  else if a.toNat < 0xC2 then 0
  else if a.toNat ≤ 0xDF then 2
  else if a.toNat ≤ 0xEF then 3
  else if a.toNat ≤ 0xF4 then 4
  else 0

def low (b : UInt8) : ℕ := b.toNat % 0x40

/-- The characters of some bytes, `none` for each unreadable chunk. -/
def chunks : List UInt8 → List (Option Char)
  | [] => []
  | a :: rest =>
      match width a with
      | 1 => some (Char.ofNat a.toNat) :: chunks rest
      | 2 =>
          match rest with
          | [] => [none]
          | b :: rest' =>
              if isContinuation b then
                some (Char.ofNat (a.toNat % 0x20 * 0x40 + low b)) :: chunks rest'
              else none :: chunks (b :: rest')
      | 3 =>
          match rest with
          | [] => [none]
          | b :: rest' =>
              if isSecond a b then
                match rest' with
                | [] => [none]
                | c :: rest'' =>
                    if isContinuation c then
                      some (Char.ofNat (a.toNat % 0x10 * 0x1000 + low b * 0x40 + low c)) ::
                        chunks rest''
                    else none :: chunks (c :: rest'')
              else none :: chunks (b :: rest')
      | 4 =>
          match rest with
          | [] => [none]
          | b :: rest' =>
              if isSecond a b then
                match rest' with
                | [] => [none]
                | c :: rest'' =>
                    if isContinuation c then
                      match rest'' with
                      | [] => [none]
                      | d :: rest''' =>
                          if isContinuation d then
                            some (Char.ofNat (a.toNat % 0x08 * 0x40000 + low b * 0x1000 +
                              low c * 0x40 + low d)) :: chunks rest'''
                          else none :: chunks (d :: rest''')
                    else none :: chunks (c :: rest'')
              else none :: chunks (b :: rest')
      | _ => none :: chunks rest

def readable : List (Option Char) → Option (List Char)
  | [] => some []
  | none :: _ => none
  | some c :: l => (readable l).map (c :: ·)

/-- The text of some bytes, if all of them can be read. -/
def decode (bytes : List UInt8) : Option (List Char) := readable (chunks bytes)

/-- The text of some bytes, with U+FFFD for each unreadable chunk. -/
def lossy (bytes : List UInt8) : List Char := (chunks bytes).map (·.getD (Char.ofNat 0xFFFD))

section

variable {a b c d : UInt8} {rest : List UInt8}

theorem width_eq_one_iff : width a = 1 ↔ a.toNat ≤ 0x7F := by
  grind [width]

theorem width_eq_two_iff : width a = 2 ↔ 0xC2 ≤ a.toNat ∧ a.toNat ≤ 0xDF := by
  grind [width]

theorem width_eq_three_iff : width a = 3 ↔ 0xE0 ≤ a.toNat ∧ a.toNat ≤ 0xEF := by
  grind [width]

theorem width_eq_four_iff : width a = 4 ↔ 0xF0 ≤ a.toNat ∧ a.toNat ≤ 0xF4 := by
  grind [width]

theorem isContinuation_iff : isContinuation b ↔ 0x80 ≤ b.toNat ∧ b.toNat ≤ 0xBF := by
  simp [isContinuation]

theorem chunks_one (ha : width a = 1) :
    chunks (a :: rest) = some (Char.ofNat a.toNat) :: chunks rest := by
  rw [chunks.eq_def]
  simp [ha]

theorem chunks_two (ha : width a = 2) (hb : isContinuation b) :
    chunks (a :: b :: rest) =
      some (Char.ofNat (a.toNat % 0x20 * 0x40 + low b)) :: chunks rest := by
  rw [chunks.eq_def]
  simp [ha, hb]

theorem chunks_three (ha : width a = 3) (hb : isSecond a b) (hc : isContinuation c) :
    chunks (a :: b :: c :: rest) =
      some (Char.ofNat (a.toNat % 0x10 * 0x1000 + low b * 0x40 + low c)) :: chunks rest := by
  rw [chunks.eq_def]
  simp [ha, hb, hc]

theorem chunks_four (ha : width a = 4) (hb : isSecond a b) (hc : isContinuation c)
    (hd : isContinuation d) :
    chunks (a :: b :: c :: d :: rest) =
      some (Char.ofNat (a.toNat % 0x08 * 0x40000 + low b * 0x1000 + low c * 0x40 + low d)) ::
        chunks rest := by
  rw [chunks.eq_def]
  simp [ha, hb, hc, hd]

end

/-! ### Reading back what was written -/

theorem toNat_ofNat {n : ℕ} (h : n < 0x100) : (UInt8.ofNat n).toNat = n :=
  UInt8.toNat_ofNat_of_lt h

theorem chunks_cons (c : Char) (rest : List UInt8) :
    chunks (String.utf8EncodeChar c ++ rest) = some c :: chunks rest := by
  have hvalid : c.val.toNat < 0xD800 ∨ 0xDFFF < c.val.toNat ∧ c.val.toNat < 0x110000 := c.valid
  have hc (n : ℕ) (h : n = c.val.toNat) : Char.ofNat n = c := by
    rw [h]
    exact Char.ofNat_toNat c
  generalize hn : c.val.toNat = n at hvalid hc
  rw [String.utf8EncodeChar, hn]
  -- One to four bytes, by the size of the character.
  by_cases h1 : n ≤ 0x7F
  · have ha := toNat_ofNat (n := n) (by omega)
    simp only [h1, if_true, List.cons_append, List.nil_append]
    rw [chunks_one (width_eq_one_iff.mpr (by omega)), hc _ ha]
  simp only [h1, if_false]
  by_cases h2 : n ≤ 0x7FF
  · have ha := toNat_ofNat (n := n / 64 % 0x20 + 0xC0) (by omega)
    have hb := toNat_ofNat (n := n % 0x40 + 0x80) (by omega)
    simp only [h2, if_true, List.cons_append, List.nil_append]
    rw [chunks_two (width_eq_two_iff.mpr (by omega)) (isContinuation_iff.mpr (by omega)),
      hc _ (by simp only [low]; omega)]
  simp only [h2, if_false]
  by_cases h3 : n ≤ 0xFFFF
  · have ha := toNat_ofNat (n := n / 4096 % 0x10 + 0xE0) (by omega)
    have hb := toNat_ofNat (n := n / 64 % 0x40 + 0x80) (by omega)
    have hd := toNat_ofNat (n := n % 0x40 + 0x80) (by omega)
    have hsecond : isSecond (UInt8.ofNat (n / 4096 % 0x10 + 0xE0))
        (UInt8.ofNat (n / 64 % 0x40 + 0x80)) := by
      grind [isSecond, isContinuation]
    simp only [h3, if_true, List.cons_append, List.nil_append]
    rw [chunks_three (width_eq_three_iff.mpr (by omega)) hsecond (isContinuation_iff.mpr (by omega)),
      hc _ (by simp only [low]; omega)]
  · have ha := toNat_ofNat (n := n / 262144 % 0x08 + 0xF0) (by omega)
    have hb := toNat_ofNat (n := n / 4096 % 0x40 + 0x80) (by omega)
    have hc' := toNat_ofNat (n := n / 64 % 0x40 + 0x80) (by omega)
    have hd := toNat_ofNat (n := n % 0x40 + 0x80) (by omega)
    have hsecond : isSecond (UInt8.ofNat (n / 262144 % 0x08 + 0xF0))
        (UInt8.ofNat (n / 4096 % 0x40 + 0x80)) := by
      grind [isSecond, isContinuation]
    simp only [h3, if_false, List.cons_append, List.nil_append]
    rw [chunks_four (width_eq_four_iff.mpr (by omega)) hsecond (isContinuation_iff.mpr (by omega))
      (isContinuation_iff.mpr (by omega)), hc _ (by simp only [low]; omega)]

theorem chunks_encode (text : List Char) :
    chunks (text.flatMap String.utf8EncodeChar) = text.map some := by
  induction text with
  | nil => rfl
  | cons c text ih => rw [List.flatMap_cons, chunks_cons, ih, List.map_cons]

@[simp] theorem lossy_encode (text : List Char) :
    lossy (text.flatMap String.utf8EncodeChar) = text := by
  rw [lossy, chunks_encode, List.map_map]
  exact List.map_id text

theorem encodeChar_inj {c d : Char} (h : String.utf8EncodeChar c = String.utf8EncodeChar d) :
    c = d := by
  have hc := chunks_cons c []
  rw [h, chunks_cons d []] at hc
  exact (Option.some.inj (List.cons_eq_cons.mp hc).1).symm

/-! ### What is read is what was written -/

section

variable {a b c d : UInt8}

theorem toNat_val_ofNat {n : ℕ} (h : n < 0xD800 ∨ 0xDFFF < n ∧ n < 0x110000) :
    (Char.ofNat n).val.toNat = n := by
  have hn : n.isValidChar := h
  rw [Char.ofNat, dif_pos hn]
  exact UInt32.toNat_ofNatLT

theorem ofNat_eq {n : ℕ} (h : n = a.toNat) : UInt8.ofNat n = a := by
  rw [h]
  exact UInt8.ofNat_toNat

theorem encode_one (ha : width a = 1) :
    String.utf8EncodeChar (Char.ofNat a.toNat) = [a] := by
  rw [width_eq_one_iff] at ha
  rw [String.utf8EncodeChar, toNat_val_ofNat (by omega)]
  simp only [ha, if_true]
  rw [ofNat_eq rfl]

theorem encode_two (ha : width a = 2) (hb : isContinuation b) :
    String.utf8EncodeChar (Char.ofNat (a.toNat % 0x20 * 0x40 + low b)) = [a, b] := by
  rw [width_eq_two_iff] at ha
  rw [isContinuation_iff] at hb
  have hlow : low b = b.toNat - 0x80 := by
    rw [low]
    omega
  generalize hn : a.toNat % 0x20 * 0x40 + low b = n
  rw [String.utf8EncodeChar, toNat_val_ofNat (by omega)]
  rw [if_neg (by omega), if_pos (by omega), ofNat_eq (a := a) (by omega),
    ofNat_eq (a := b) (by omega)]

theorem encode_three (ha : width a = 3) (hb : isSecond a b) (hc : isContinuation c) :
    String.utf8EncodeChar (Char.ofNat (a.toNat % 0x10 * 0x1000 + low b * 0x40 + low c)) =
      [a, b, c] := by
  rw [width_eq_three_iff] at ha
  rw [isContinuation_iff] at hc
  have hb : 0x80 ≤ b.toNat ∧ b.toNat ≤ 0xBF ∧ (a.toNat = 0xE0 → 0xA0 ≤ b.toNat) ∧
      (a.toNat = 0xED → b.toNat ≤ 0x9F) := by
    grind [isSecond, isContinuation]
  have hlowb : low b = b.toNat - 0x80 := by
    rw [low]
    omega
  have hlowc : low c = c.toNat - 0x80 := by
    rw [low]
    omega
  generalize hn : a.toNat % 0x10 * 0x1000 + low b * 0x40 + low c = n
  rw [String.utf8EncodeChar, toNat_val_ofNat (by omega)]
  rw [if_neg (by omega), if_neg (by omega), if_pos (by omega), ofNat_eq (a := a) (by omega),
    ofNat_eq (a := b) (by omega), ofNat_eq (a := c) (by omega)]

theorem encode_four (ha : width a = 4) (hb : isSecond a b) (hc : isContinuation c)
    (hd : isContinuation d) :
    String.utf8EncodeChar (Char.ofNat (a.toNat % 0x08 * 0x40000 + low b * 0x1000 +
      low c * 0x40 + low d)) = [a, b, c, d] := by
  rw [width_eq_four_iff] at ha
  rw [isContinuation_iff] at hc hd
  have hb : 0x80 ≤ b.toNat ∧ b.toNat ≤ 0xBF ∧ (a.toNat = 0xF0 → 0x90 ≤ b.toNat) ∧
      (a.toNat = 0xF4 → b.toNat ≤ 0x8F) := by
    grind [isSecond, isContinuation]
  have hlow (x : UInt8) (hx : 0x80 ≤ x.toNat ∧ x.toNat ≤ 0xBF) : low x = x.toNat - 0x80 := by
    rw [low]
    omega
  have hlowb := hlow b (by omega)
  have hlowc := hlow c hc
  have hlowd := hlow d hd
  generalize hn : a.toNat % 0x08 * 0x40000 + low b * 0x1000 + low c * 0x40 + low d = n
  rw [String.utf8EncodeChar, toNat_val_ofNat (by omega)]
  rw [if_neg (by omega), if_neg (by omega), if_neg (by omega), ofNat_eq (a := a) (by omega),
    ofNat_eq (a := b) (by omega), ofNat_eq (a := c) (by omega), ofNat_eq (a := d) (by omega)]

end

theorem map_some_eq_cons {x : Char} {l : List (Option Char)} {text : List Char}
    (h : some x :: l = text.map some) : ∃ text', text = x :: text' ∧ l = text'.map some := by
  cases text with
  | nil => cases h
  | cons y text' =>
      obtain ⟨hx, hl⟩ := List.cons_eq_cons.mp h
      exact ⟨text', by rw [Option.some.inj hx], hl⟩

theorem map_some_ne_cons {l : List (Option Char)} {text : List Char} :
    none :: l ≠ text.map some := by
  intro h
  cases text with
  | nil => cases h
  | cons y text' => cases (List.cons_eq_cons.mp h).1

/-- If every chunk is a character, the bytes are their encoding. -/
theorem encode_of_chunks {bytes : List UInt8} {text : List Char}
    (h : chunks bytes = text.map some) : text.flatMap String.utf8EncodeChar = bytes := by
  fun_induction chunks bytes generalizing text with
  | case1 =>
      rw [List.map_eq_nil_iff.mp h.symm]
      rfl
  | case2 a rest ha ih =>
      obtain ⟨text', rfl, hrest⟩ := map_some_eq_cons h
      rw [List.flatMap_cons, ih hrest, encode_one ha]
      rfl
  | case4 a ha b rest hb ih =>
      obtain ⟨text', rfl, hrest⟩ := map_some_eq_cons h
      rw [List.flatMap_cons, ih hrest, encode_two ha hb]
      rfl
  | case8 a ha b hb c rest hc ih =>
      obtain ⟨text', rfl, hrest⟩ := map_some_eq_cons h
      rw [List.flatMap_cons, ih hrest, encode_three ha hb hc]
      rfl
  | case14 a ha b hb c hc d rest hd ih =>
      obtain ⟨text', rfl, hrest⟩ := map_some_eq_cons h
      rw [List.flatMap_cons, ih hrest, encode_four ha hb hc hd]
      rfl
  | _ => exact absurd h map_some_ne_cons

theorem readable_eq_some_iff {l : List (Option Char)} {text : List Char} :
    readable l = some text ↔ l = text.map some := by
  induction l generalizing text with
  | nil =>
      rw [readable, Option.some.injEq]
      exact ⟨fun h => h ▸ rfl, fun h => (List.map_eq_nil_iff.mp h.symm).symm⟩
  | cons x l ih =>
      cases x with
      | none => exact ⟨fun h => (nomatch h), fun h => absurd h map_some_ne_cons⟩
      | some x =>
          refine ⟨fun h => ?_, fun h => ?_⟩
          · obtain ⟨text', htext', rfl⟩ := Option.map_eq_some_iff.mp h
            rw [ih.mp htext', List.map_cons]
          · obtain ⟨text', rfl, hl⟩ := map_some_eq_cons h
            rw [readable, ih.mpr hl, Option.map_some]

/-- A text is read from exactly its encoding. -/
theorem decode_eq_some_iff {bytes : List UInt8} {text : List Char} :
    decode bytes = some text ↔ bytes = text.flatMap String.utf8EncodeChar := by
  rw [decode, readable_eq_some_iff]
  refine ⟨fun h => (encode_of_chunks h).symm, ?_⟩
  rintro rfl
  exact chunks_encode text

/-! ### Bytes of ASCII characters -/

section

variable {b : UInt8} {c : Char} {text : List Char} {u v : List UInt8}

/-- A byte below 0x80 is never part of a longer sequence. -/
theorem encodeChar_of_mem (h : b ∈ String.utf8EncodeChar c) (hb : b.toNat < 0x80) :
    String.utf8EncodeChar c = [b] := by
  have hlarge (n : ℕ) (hn : 0x80 ≤ n ∧ n < 0x100) : b ≠ UInt8.ofNat n := by
    rintro rfl
    rw [toNat_ofNat hn.2] at hb
    omega
  rw [String.utf8EncodeChar] at h ⊢
  generalize c.val.toNat = n at h ⊢
  by_cases h1 : n ≤ 0x7F
  · rw [if_pos h1] at h ⊢
    rw [List.mem_singleton.mp h]
  · exfalso
    rw [if_neg h1] at h
    split at h
    · simp only [List.mem_cons, List.not_mem_nil, or_false] at h
      rcases h with h | h
      · exact hlarge _ (by omega) h
      · exact hlarge _ (by omega) h
    · split at h
      · simp only [List.mem_cons, List.not_mem_nil, or_false] at h
        rcases h with h | h | h
        · exact hlarge _ (by omega) h
        · exact hlarge _ (by omega) h
        · exact hlarge _ (by omega) h
      · simp only [List.mem_cons, List.not_mem_nil, or_false] at h
        rcases h with h | h | h | h
        · exact hlarge _ (by omega) h
        · exact hlarge _ (by omega) h
        · exact hlarge _ (by omega) h
        · exact hlarge _ (by omega) h

/-- The zero character is read from a zero byte only. -/
theorem zero_mem_of_chunks {bytes : List UInt8} (h : some (Char.ofNat 0) ∈ chunks bytes) :
    0 ∈ bytes := by
  have hone {x y : UInt8} {l : List UInt8} {c : Char}
      (hc : String.utf8EncodeChar c = x :: y :: l) : c ≠ Char.ofNat 0 := by
    rintro rfl
    cases hc
  fun_induction chunks bytes with
  | case1 => cases h
  | case2 a rest ha ih =>
      rcases List.mem_cons.mp h with heq | hmem
      · have ha' := encode_one ha
        rw [← Option.some.inj heq] at ha'
        cases ha'
        exact List.mem_cons_self
      · exact List.mem_cons_of_mem _ (ih hmem)
  | case4 a ha b rest hb ih =>
      rcases List.mem_cons.mp h with heq | hmem
      · exact absurd (Option.some.inj heq).symm (hone (encode_two ha hb))
      · simp [ih hmem]
  | case8 a ha b hb c rest hc ih =>
      rcases List.mem_cons.mp h with heq | hmem
      · exact absurd (Option.some.inj heq).symm (hone (encode_three ha hb hc))
      · simp [ih hmem]
  | case14 a ha b hb c hc d rest hd ih =>
      rcases List.mem_cons.mp h with heq | hmem
      · exact absurd (Option.some.inj heq).symm (hone (encode_four ha hb hc hd))
      · simp [ih hmem]
  | _ => simp_all

theorem lossy_ne_nil {bytes : List UInt8} (h : bytes ≠ []) : lossy bytes ≠ [] := by
  have hchunks : chunks bytes ≠ [] := by
    fun_cases chunks bytes with
    | case1 => exact absurd rfl h
    | _ => exact List.cons_ne_nil _ _
  exact fun hnil => hchunks (List.map_eq_nil_iff.mp hnil)

theorem zero_mem_of_lossy {bytes : List UInt8} (h : Char.ofNat 0 ∈ lossy bytes) : 0 ∈ bytes := by
  obtain ⟨chunk, hchunk, heq⟩ := List.mem_map.mp h
  cases chunk with
  | none => exact absurd heq (by decide)
  | some c =>
      rw [Option.getD_some] at heq
      subst heq
      exact zero_mem_of_chunks hchunk

/-- At an ASCII byte the text is split too. -/
theorem split_of_encode (hb : b.toNat < 0x80)
    (h : text.flatMap String.utf8EncodeChar = u ++ b :: v) :
    ∃ before c after, text = before ++ c :: after ∧ String.utf8EncodeChar c = [b] ∧
      before.flatMap String.utf8EncodeChar = u ∧ after.flatMap String.utf8EncodeChar = v := by
  induction text generalizing u with
  | nil => simp at h
  | cons c text ih =>
      rw [List.flatMap_cons, List.append_eq_append_iff] at h
      rcases h with ⟨w, rfl, hrest⟩ | ⟨w, hc, hrest⟩
      · obtain ⟨before, d, after, rfl, hd, rfl, rfl⟩ := ih hrest
        exact ⟨c :: before, d, after, rfl, hd, rfl, rfl⟩
      · cases w with
        | nil =>
            obtain ⟨before, d, after, rfl, hd, hbefore, rfl⟩ := ih (u := []) hrest.symm
            refine ⟨c :: before, d, after, rfl, hd, ?_, rfl⟩
            rw [List.flatMap_cons, hbefore, hc, List.append_nil, List.append_nil]
        | cons b' w =>
            obtain ⟨rfl, rfl⟩ := List.cons_eq_cons.mp hrest
            have hsingle := encodeChar_of_mem (b := b) (by rw [hc]; simp) hb
            rw [hsingle] at hc
            obtain ⟨rfl, hw⟩ : u = [] ∧ w = [] := by
              cases u with
              | nil => simpa using hc.symm
              | cons x u => simp at hc
            exact ⟨[], c, text, rfl, hsingle, rfl, by rw [hw]; rfl⟩

theorem chunks_append (text : List Char) (v : List UInt8) :
    chunks (text.flatMap String.utf8EncodeChar ++ v) = text.map some ++ chunks v := by
  induction text with
  | nil => rfl
  | cons c text ih =>
      rw [List.flatMap_cons, List.append_assoc, chunks_cons, ih, List.map_cons, List.cons_append]

/-- Where the bytes of one text begin those of another, the text does. -/
theorem begins_of_encode {text text' : List Char}
    (h : text.flatMap String.utf8EncodeChar ++ v = text'.flatMap String.utf8EncodeChar) :
    text <+: text' := by
  have hchunks := congrArg chunks h
  rw [chunks_append, chunks_encode] at hchunks
  obtain ⟨before, after, rfl, hbefore, -⟩ := List.map_eq_append_iff.mp hchunks.symm
  rw [← (List.map_inj_right fun _ _ heq => Option.some.inj heq).mp hbefore]
  exact List.prefix_append before after

end

end Idakit.Library.Utf8
