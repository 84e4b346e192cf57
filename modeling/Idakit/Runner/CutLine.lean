import Idakit.Runner.Worker

/-!
The lines of a worker's output, read while their bytes are still coming, and
after the worker has died in the middle of one. An unfinished line is waited
for as long as the worker lives, and is never taken for the end of a case that
did not end so.
-/

namespace Idakit.Runner

open Idakit.Library
open Idakit.Types

/-! ### Lines -/

structure Plain (line : Text) : Prop where
  newline : '\n' ∉ line
  last : line.getLast? ≠ some '\r'
  head : line.head? ≠ some '\x1e'

def Line.bytes : Line → List UInt8
  | .control event => event.bytes
  | .output text => Text.asBytes (text ++ ['\n'])

def Line.Sound : Line → Prop
  | .control event => event.OneLine
  | .output text => Plain text

def Line.isEnd : Line → Bool
  | .control (.end_ _ _ _) => true
  | _ => false

/-! ### Reading a whole line -/

variable {closed : Bool} {line line' : Line} {rest u v : List UInt8}

theorem Plain.trimEnd {text : Text} (h : Plain text) : trimEnd (text ++ ['\n']) = text := by
  refine trimEnd_line fun c hc => ⟨?_, ?_⟩
  · rintro rfl
    exact h.last hc
  · rintro rfl
    exact h.newline (List.mem_of_getLast? hc)

/-- A line is read back whatever follows it. -/
theorem readLine_line (h : line.Sound) (rest : List UInt8) :
    readLine closed (line.bytes ++ rest) = .item line rest := by
  cases line with
  | control event => exact readLine_bytes h rest
  | output text =>
      have hplain : Plain text := h
      rw [readLine, Line.bytes, readText_line hplain.newline]
      simp only [Read.bind]
      rw [hplain.trimEnd, stripPrefix_controlPrefix hplain.head]

/-- The text of a line, without its line end. -/
def Line.text : Line → Text
  | .control (.start name) => controlPrefix ++ ("START ".toList ++ name)
  | .control (.end_ status millis message) => endLine status millis message.text.asBytes.length
  | .output text => text

/-- What follows the line end of a line. -/
def Line.tail : Line → List UInt8
  | .control (.end_ _ _ message) => message.text.asBytes
  | _ => []

theorem Line.bytes_eq (line : Line) :
    line.bytes = line.text.asBytes ++ newline :: line.tail := by
  rcases line with (name | ⟨status, millis, message⟩) | text
  · exact asBytes_append _ _
  · show Text.asBytes (_ ++ ['\n']) ++ _ = _
    rw [asBytes_append, List.append_assoc]
    rfl
  · exact asBytes_append _ _

theorem Line.Sound.newline_notMem (h : line.Sound) : newline ∉ line.text.asBytes := by
  refine newline_notMem_asBytes ?_
  rcases line with (name | ⟨status, millis, message⟩) | text
  · have hword : OneLine (controlPrefix ++ "START ".toList) := oneLine_of_all rfl
    have hline := (hword.append h).newline_notMem
    rwa [List.append_assoc] at hline
  · exact (oneLine_endLine status millis _).newline_notMem
  · exact Plain.newline h

/-! ### Reading a line that is not there yet -/

/-- A beginning of a line ends before its line end, or behind it. -/
theorem Line.cut_cases (hcut : u ++ v = line.bytes) :
    (∃ w, u ++ w = line.text.asBytes) ∨
      ∃ m, u = line.text.asBytes ++ newline :: m ∧ m ++ v = line.tail := by
  rw [line.bytes_eq, List.append_eq_append_iff] at hcut
  rcases hcut with ⟨w, hw, -⟩ | ⟨w, hu, hw⟩
  · exact .inl ⟨w, hw.symm⟩
  · cases w with
    | nil => exact .inl ⟨[], by rw [List.append_nil, hu, List.append_nil]⟩
    | cons b m =>
        obtain ⟨rfl, hm⟩ := List.cons_eq_cons.mp hw
        exact .inr ⟨m, hu, hm.symm⟩

theorem readLine_endLine {status : Status} {millis : UInt64} {len : ℕ} (hlen : len < 2 ^ 64)
    (rest : List UInt8) :
    readLine closed ((endLine status millis len).asBytes ++ newline :: rest) =
      readMessage closed status millis len rest := by
  have hline := oneLine_endLine status millis len
  have hread : readText closed (Text.asBytes (endLine status millis len ++ ['\n']) ++ rest) = _ :=
    readText_line hline.newline_notMem rest
  rw [asBytes_append, asBytes_newline, List.append_assoc, List.singleton_append] at hread
  have hstart (header : Text) : stripPrefix "START ".toList ("END ".toList ++ header) = none :=
    rfl
  rw [readLine, hread]
  simp only [Read.bind]
  rw [hline.trimEnd, endLine, stripPrefix_append]
  simp only [hstart, stripPrefix_append, parseEnd_of_parts status millis hlen]

/-- Behind its line end, only the message of an end frame can be cut. -/
theorem readLine_message {m : List UInt8} (hm : m ++ v = line.tail) (hv : v ≠ []) :
    readLine closed (line.text.asBytes ++ newline :: m) =
      .ended (if closed then .error .unexpectedEof else .blocked) := by
  rcases line with (name | ⟨status, millis, message⟩) | text
  · exact absurd (List.append_eq_nil_iff.mp hm).2 hv
  · have hfits := message.fits
    have hshort : m.length < message.text.asBytes.length := by
      rw [← show m ++ v = message.text.asBytes from hm, List.length_append]
      have hpos := List.length_pos_iff.mpr hv
      omega
    have hexact : readExact closed message.text.asBytes.length m =
        .ended (if closed then .error .unexpectedEof else .blocked) := by
      rw [readExact, if_neg (by omega), if_neg (by omega)]
      split <;> rfl
    show readLine closed ((endLine status millis message.text.asBytes.length).asBytes ++ _) = _
    rw [readLine_endLine (by omega), readMessage, hexact]
    rfl
  · exact absurd (List.append_eq_nil_iff.mp hm).2 hv

theorem readText_of_notMem (h : newline ∉ u) :
    readText closed u = if closed then (if u = [] then .ended (.done []) else fromUtf8 u [])
      else .ended .blocked := by
  have hraw : rawLine u = none := by
    rw [Option.eq_none_iff_forall_ne_some]
    rintro ⟨line, rest⟩ hline
    obtain ⟨w, -, -, rfl⟩ := rawLine_eq_some hline
    simp at h
  rw [readText.eq_def, hraw]
  cases u <;> rfl

theorem notMem_of_append {w : List UInt8} (h : line.Sound) (hw : u ++ w = line.text.asBytes) :
    newline ∉ u :=
  fun hmem => h.newline_notMem (hw ▸ List.mem_append_left w hmem)

/-- As long as the worker can write on, a part of a line is waited for. -/
theorem readLine_cut_open (h : line.Sound) (hcut : u ++ v = line.bytes) (hv : v ≠ []) :
    readLine false u = .ended .blocked := by
  rcases Line.cut_cases hcut with ⟨w, hw⟩ | ⟨m, rfl, hm⟩
  · rw [readLine, readText_of_notMem (notMem_of_append h hw)]
    rfl
  · exact readLine_message hm hv

/-! ### Reading a line that was never finished -/

theorem stripPrefix_eq_some {start text rest : Text} (h : stripPrefix start text = some rest) :
    text = start ++ rest := by
  fun_induction stripPrefix start text with
  | case1 text =>
      cases h
      rfl
  | case2 => cases h
  | case3 start d text ih => rw [ih h, List.cons_append]
  | case4 => cases h

/-- Where a number that is not zero is written, a beginning of it is not zero. -/
theorem head?_toDigits {n : ℕ} (h : n ≠ 0) : (Nat.toDigits 10 n).head? ≠ some '0' := by
  induction n using Nat.strongRecOn with
  | ind n ih =>
  rw [Nat.toDigits_eq_if (by decide)]
  split
  · next hlt =>
      have hdigit : ∀ d < 10, d ≠ 0 → d.digitChar ≠ '0' := by decide
      intro heq
      exact hdigit n hlt h (Option.some.inj heq)
  · next hge =>
      rw [List.head?_append_of_ne_nil _ Nat.toDigits_ne_nil]
      exact ih (n / 10) (by omega) (by omega)

theorem parseUnsigned_of_head {limit : ℕ} {text : Text} (h : text.head? ≠ some '+') :
    parseUnsigned limit text =
      if text ≠ [] ∧ text.all Char.isDigit ∧ Nat.ofDigitChars 10 text 0 < limit then
        some (Nat.ofDigitChars 10 text 0)
      else none := by
  rw [parseUnsigned]
  rintro digits rfl
  exact h rfl

theorem eq_zero_of_parseUnsigned {limit n : ℕ} {text : Text} (hbegins : text <+: Nat.toDigits 10 n)
    (h : parseUnsigned limit text = some 0) : n = 0 := by
  obtain ⟨rest, hrest⟩ := hbegins
  by_contra hn
  have hall : ∀ c ∈ text, c.isDigit := fun c hc =>
    Nat.isDigit_of_mem_toDigits (by decide) (by decide) (hrest ▸ List.mem_append_left rest hc)
  cases text with
  | nil => cases h
  | cons c digits =>
      have hdigit : c.isDigit := hall c List.mem_cons_self
      have hplus : (c :: digits).head? ≠ some '+' := by
        rintro heq
        rw [Option.some.inj heq] at hdigit
        cases hdigit
      have hzero : c ≠ '0' := by
        rintro rfl
        exact head?_toDigits hn (by rw [← hrest]; rfl)
      rw [parseUnsigned_of_head hplus] at h
      split at h
      · have hvalue : Nat.ofDigitChars 10 (c :: digits) 0 = 0 := Option.some.inj h
        rw [Nat.ofDigitChars_cons, Nat.ofDigitChars_eq_ofDigitChars_zero] at hvalue
        have hprod : 10 ^ digits.length * (10 * 0 + (c.toNat - '0'.toNat)) = 0 := by omega
        rcases Nat.mul_eq_zero.mp hprod with hpow | hchar
        · exact absurd hpow (Nat.pow_pos (by decide)).ne'
        · have hle := (Char.isDigit_iff_toNat.mp hdigit).1
          exact hzero (Char.toNat_inj.mp (by omega))
      · cases h

theorem notMem_of_splitOnce {c : Char} {text before behind : Text}
    (h : splitOnce c text = some (before, behind)) : c ∉ before := by
  induction text generalizing before with
  | nil => cases h
  | cons d text ih =>
      rw [splitOnce] at h
      split at h
      · cases h
        exact List.not_mem_nil
      · next hd =>
          obtain ⟨p, hp, hpair⟩ := Option.map_eq_some_iff.mp h
          cases hpair
          simp [ih hp, Ne.symm hd]

/-- A text splits where a longer one does. -/
theorem splitOnce_begins {c : Char} {text tail before behind before' behind' : Text}
    (h : splitOnce c text = some (before, behind)) (hnot : c ∉ before')
    (htail : text ++ tail = before' ++ c :: behind') :
    before = before' ∧ behind ++ tail = behind' := by
  have hsplit := splitOnce_append hnot behind'
  rw [← htail, splitOnce_eq_some h, List.append_assoc, List.cons_append,
    splitOnce_append (notMem_of_splitOnce h)] at hsplit
  cases hsplit
  exact ⟨rfl, rfl⟩

theorem parseEnd_eq_some {header : Text} {status : Status} {millis : UInt64} {len : ℕ}
    (h : parseEnd header = some (status, millis, len)) :
    ∃ a rest b c n, splitOnce ' ' header = some (a, rest) ∧ splitOnce ' ' rest = some (b, c) ∧
      Status.parse a = some status ∧ parseUnsigned (2 ^ 64) b = some n ∧ .ofNat n = millis ∧
      parseUnsigned (2 ^ 64) c = some len := by
  rw [parseEnd] at h
  split at h
  · next a b c hparts =>
      rw [splitn] at hparts
      split at hparts
      · cases hparts
      · next part rest hrest =>
          rw [splitn] at hparts
          split at hparts
          · cases hparts
          · next part' rest' hrest' =>
              cases hparts
              obtain ⟨status', hstatus, h⟩ := Option.bind_eq_some_iff.mp h
              obtain ⟨n, hn, h⟩ := Option.bind_eq_some_iff.mp h
              obtain ⟨len', hlen, h⟩ := Option.bind_eq_some_iff.mp h
              cases h
              exact ⟨a, rest, b, c, n, hrest, hrest', hstatus, hn, rfl, hlen⟩
  · cases h

/-- An end frame cut short says the same as the whole one, if it says that no
message follows. -/
theorem parseEnd_begins {status status' : Status} {millis millis' : UInt64} {len : ℕ}
    {header : Text} (hbegins : header <+: status.asStr ++ ' ' ::
      (Nat.toDigits 10 millis.toNat ++ ' ' :: Nat.toDigits 10 len))
    (h : parseEnd header = some (status', millis', 0)) :
    status' = status ∧ millis' = millis ∧ len = 0 := by
  obtain ⟨tail, htail⟩ := hbegins
  obtain ⟨a, rest, b, c, n, ha, hb, hstatus, hn, rfl, hc⟩ := parseEnd_eq_some h
  obtain ⟨rfl, hrest⟩ := splitOnce_begins ha status.space_notMem htail
  obtain ⟨rfl, hlen⟩ := splitOnce_begins hb (notMem_toDigits rfl _) hrest
  rw [Status.parse_asStr] at hstatus
  rw [parseUnsigned_toDigits millis.toNat_lt] at hn
  cases hstatus
  cases hn
  exact ⟨rfl, UInt64.ofNat_toNat, eq_zero_of_parseUnsigned ⟨tail, hlen⟩ hc⟩

theorem Line.eq_end_of_begins {header : Text} {status : Status} {millis : UInt64}
    (h : line.Sound) (hbegins : controlPrefix ++ ("END ".toList ++ header) <+: line.text)
    (hparse : parseEnd header = some (status, millis, 0)) :
    line = .control (.end_ status millis ⟨[], by decide⟩) := by
  rcases line with (name | ⟨status', millis', message⟩) | text
  · obtain ⟨tail, htail⟩ := hbegins
    cases htail
  · rw [Line.text, endLine, List.prefix_append_right_inj, List.prefix_append_right_inj] at hbegins
    obtain ⟨rfl, rfl, hlen⟩ := parseEnd_begins hbegins hparse
    obtain ⟨text, hfits⟩ := message
    obtain rfl : text = [] := eq_nil_of_asBytes (List.length_eq_zero_iff.mp hlen)
    rfl
  · obtain ⟨tail, htail⟩ := hbegins
    refine absurd ?_ (Plain.head h)
    rw [← show _ = text from htail]
    rfl

theorem readMessage_nil (status : Status) (millis : UInt64) (len : ℕ) :
    readMessage true status millis len [] =
          .item (.control (.end_ status millis ⟨[], by decide⟩)) [] ∧ len = 0 ∨
      ∃ e, readMessage true status millis len [] = .ended e := by
  by_cases hlen : len = 0
  · left
    rw [hlen]
    exact ⟨rfl, rfl⟩
  · right
    rw [readMessage, readExact]
    split
    · exact ⟨_, rfl⟩
    · rw [if_neg (by simpa using hlen)]
      exact ⟨_, rfl⟩

/-- What is read of a line that its worker never finished: no end of a case, but
for an end frame that lacks nothing other than its line end. -/
theorem readLine_cut_closed (h : line.Sound) (hcut : u ++ v = line.bytes) (hv : v ≠ []) :
    (∃ e, readLine true u = .ended e) ∨
      ∃ l, readLine true u = .item l [] ∧ (l.isEnd = false ∨ l = line) := by
  rcases Line.cut_cases hcut with ⟨w, hw⟩ | ⟨m, rfl, hm⟩
  · rw [readLine, readText_of_notMem (notMem_of_append h hw), if_pos rfl]
    by_cases hu : u = []
    · rw [if_pos hu]
      exact .inl ⟨_, rfl⟩
    · rw [if_neg hu, fromUtf8]
      split
      · next text hdecode =>
          have hbegins : trimEnd text <+: line.text := by
            rw [Utf8.decode_eq_some_iff.mp hdecode] at hw
            exact (List.rdropWhile_prefix _ _).trans (Utf8.begins_of_encode hw)
          simp only [Read.bind]
          split
          · exact .inr ⟨_, rfl, .inl rfl⟩
          · next frame hframe =>
              split
              · exact .inr ⟨_, rfl, .inl rfl⟩
              · split
                · exact .inl ⟨_, rfl⟩
                · next header hheader =>
                    split
                    · exact .inl ⟨_, rfl⟩
                    · next status millis len hparse =>
                        rw [stripPrefix_eq_some hframe, stripPrefix_eq_some hheader] at hbegins
                        rcases readMessage_nil status millis len with ⟨hread, rfl⟩ | hended
                        · exact .inr ⟨_, hread, .inr (Line.eq_end_of_begins h hbegins hparse).symm⟩
                        · exact .inl hended
      · exact .inl ⟨_, rfl⟩
  · exact .inl ⟨_, readLine_message hm hv⟩

end Idakit.Runner
