import Mathlib.Data.List.DropRight
import Idakit.Library.Reader
import Idakit.Library.Utf8
import Idakit.Types.Expr

/-!
What the runner and a worker say to each other over the worker's streams.
Every frame is one line of text. The line of an end frame is followed by
exactly the message bytes it declares, and no newline.

A stream is its bytes in order. Reading from one that is still open waits at
its end for more.
-/

namespace Idakit.Runner

open Idakit.Library
open Idakit.Types

/-! ### Texts -/

def stripPrefix : Text → Text → Option Text
  | [], text => some text
  | _ :: _, [] => none
  | c :: start, d :: text => if c = d then stripPrefix start text else none

def splitOnce (c : Char) : Text → Option (Text × Text)
  | [] => none
  | d :: text => if d = c then some ([], text) else
      (splitOnce c text).map fun p => (d :: p.1, p.2)

/-- At most so many parts of a text, the last of them with the rest. -/
def splitn : ℕ → Char → Text → List Text
  | 0, _, _ => []
  | 1, _, text => [text]
  | n + 2, c, text =>
      match splitOnce c text with
      | none => [text]
      | some (part, rest) => part :: splitn (n + 1) c rest

def trimEnd (line : Text) : Text := line.rdropWhile fun c => c = '\r' || c = '\n'

def parseUnsigned (limit : ℕ) (text : Text) : Option ℕ :=
  let digits := match text with
    | '+' :: digits => digits
    | _ => text
  if digits ≠ [] ∧ digits.all Char.isDigit ∧ Nat.ofDigitChars 10 digits 0 < limit then
    some (Nat.ofDigitChars 10 digits 0)
  else none

/-! ### Lines -/

inductive IoError
  /-- An error of the operating system, with its text. -/
  | os (text : Text)
  | invalidUtf8
  | unexpectedEof
  | malformed (frame : Text)
  | timedOut (seconds : ℕ) (output : List Text)
  | exited (name : Text) (output : List Text)

def joinLines : List Text → Text
  | [] => []
  | [line] => line
  | line :: lines => line ++ '\n' :: joinLines lines

/-- The text of an error; `debug` is how Rust prints a string in quotes. -/
def IoError.toText (debug : Text → Text) : IoError → Text
  | .os text => text
  | .invalidUtf8 => "stream did not contain valid UTF-8".toList
  | .unexpectedEof => "failed to fill whole buffer".toList
  | .malformed frame => "malformed worker frame: ".toList ++ debug frame
  | .timedOut seconds output => "case exceeded the ".toList ++ Nat.toDigits 10 seconds ++
      "s timeout and its worker was killed:\n".toList ++ joinLines output
  | .exited name output => "worker exited during ".toList ++ name ++ ":\n".toList ++
      joinLines output

def newline : UInt8 := 0x0A

/-- The bytes up to and with the first newline, and those behind it. -/
def rawLine : List UInt8 → Option (List UInt8 × List UInt8)
  | [] => none
  | b :: input => if b = newline then some ([b], input) else
      (rawLine input).map fun p => (b :: p.1, p.2)

def fromUtf8 (bytes rest : List UInt8) : Read UInt8 IoError Text :=
  match Utf8.decode bytes with
  | some text => .item text rest
  | none => .ended (.error .invalidUtf8)

/-- The next line with its line end, which the last line of a closed stream
may lack. -/
def readText (closed : Bool) (input : List UInt8) : Read UInt8 IoError Text :=
  match rawLine input with
  | some (line, rest) => fromUtf8 line rest
  | none =>
      if closed then
        match input with
        | [] => .ended (.done [])
        | _ :: _ => fromUtf8 input []
      else .ended .blocked

/-- Exactly so many bytes. No vector is longer than `isize::MAX`. -/
def readExact (closed : Bool) (len : ℕ) (input : List UInt8) : Read UInt8 IoError (List UInt8) :=
  if 2 ^ 63 ≤ len then .ended .panicked
  else if len ≤ input.length then .item (input.take len) (input.drop len)
  else if closed then .ended (.error .unexpectedEof)
  else .ended .blocked

/-! ### Requests -/

inductive Request
  | run (name : Text)
  | quit
  deriving DecidableEq

def Request.bytes : Request → List UInt8
  | .run name => Text.asBytes ("RUN ".toList ++ name ++ ['\n'])
  | .quit => Text.asBytes "QUIT\n".toList

def Request.parse (line : Text) : Option Request :=
  match splitOnce ' ' line with
  | some (word, name) =>
      if word = "RUN".toList then some (.run name)
      else if line = "QUIT".toList then some .quit
      else none
  | none => if line = "QUIT".toList then some .quit else none

/-- The next request; there is none at the end of the input, and none in a line
that is no request. -/
def Request.readFrom (closed : Bool) (input : List UInt8) : Read UInt8 IoError Request :=
  (readText closed input).bind fun line rest =>
    match Request.parse (trimEnd line) with
    | some request => .item request rest
    | none => .ended (.done rest)

/-! ### Events -/

inductive Status
  | passed | failed | skipped
  deriving DecidableEq

def Status.asStr : Status → Text
  | .passed => "ok".toList
  | .failed => "fail".toList
  | .skipped => "skip".toList

def Status.parse (text : Text) : Option Status :=
  if text = "ok".toList then some .passed
  else if text = "fail".toList then some .failed
  else if text = "skip".toList then some .skipped
  else none

/-- A message, which has no more bytes than a Rust `String` can have. -/
structure Message where
  text : Text
  fits : text.asBytes.length < 2 ^ 63
  deriving DecidableEq

inductive Event
  | start (name : Text)
  | end_ (status : Status) (millis : UInt64) (message : Message)
  deriving DecidableEq

/-- One line of a worker's output: a control frame, or what the case printed. -/
inductive Line
  | control (event : Event)
  | output (text : Text)
  deriving DecidableEq

/-- An ASCII record separator. -/
def controlPrefix : Text := ['\x1e']

def endLine (status : Status) (millis : UInt64) (len : ℕ) : Text :=
  controlPrefix ++ ("END ".toList ++ (status.asStr ++ ' ' ::
    (Nat.toDigits 10 millis.toNat ++ ' ' :: Nat.toDigits 10 len)))

def Event.bytes : Event → List UInt8
  | .start name => Text.asBytes (controlPrefix ++ ("START ".toList ++ name) ++ ['\n'])
  | .end_ status millis message =>
      Text.asBytes (endLine status millis message.text.asBytes.length ++ ['\n']) ++
        message.text.asBytes

def parseEnd (rest : Text) : Option (Status × UInt64 × ℕ) :=
  match splitn 3 ' ' rest with
  | [status, millis, len] => do
      let status ← Status.parse status
      let millis ← parseUnsigned (2 ^ 64) millis
      let len ← parseUnsigned (2 ^ 64) len
      return (status, .ofNat millis, len)
  | _ => none

def readMessage (closed : Bool) (status : Status) (millis : UInt64) (len : ℕ)
    (input : List UInt8) : Read UInt8 IoError Line :=
  (readExact closed len input).bind fun buf rest =>
    if fits : (Text.asBytes (Utf8.lossy buf)).length < 2 ^ 63 then
      .item (.control (.end_ status millis ⟨Utf8.lossy buf, fits⟩)) rest
    else .ended .panicked

def readLine (closed : Bool) (input : List UInt8) : Read UInt8 IoError Line :=
  (readText closed input).bind fun line rest =>
    let trimmed := trimEnd line
    match stripPrefix controlPrefix trimmed with
    | none => .item (.output trimmed) rest
    | some frame =>
        match stripPrefix "START ".toList frame with
        | some name => .item (.control (.start name)) rest
        | none =>
            match stripPrefix "END ".toList frame with
            | none => .ended (.error (.malformed frame))
            | some header =>
                match parseEnd header with
                | none => .ended (.error (.malformed frame))
                | some (status, millis, len) => readMessage closed status millis len rest

/-! ### What the parts of a line are read as -/

theorem stripPrefix_append (start text : Text) :
    stripPrefix start (start ++ text) = some text := by
  induction start with
  | nil => cases text <;> rfl
  | cons c start ih => rw [List.cons_append, stripPrefix, if_pos rfl, ih]

theorem splitOnce_append {c : Char} {before : Text} (h : c ∉ before) (behind : Text) :
    splitOnce c (before ++ c :: behind) = some (before, behind) := by
  induction before with
  | nil => simp [splitOnce]
  | cons d before ih =>
      obtain ⟨hd, hbefore⟩ := not_or.mp (List.mem_cons.not.mp h)
      rw [List.cons_append, splitOnce, if_neg (Ne.symm hd), ih hbefore]
      rfl

theorem notMem_toDigits {c : Char} (hc : c.isDigit = false) (n : ℕ) :
    c ∉ Nat.toDigits 10 n := by
  intro h
  rw [Nat.isDigit_of_mem_toDigits (by decide) (by decide) h] at hc
  cases hc

theorem parseUnsigned_toDigits {limit n : ℕ} (h : n < limit) :
    parseUnsigned limit (Nat.toDigits 10 n) = some n := by
  have hall : (Nat.toDigits 10 n).all Char.isDigit :=
    List.all_eq_true.mpr fun c hc => Nat.isDigit_of_mem_toDigits (by decide) (by decide) hc
  cases hdigits : Nat.toDigits 10 n with
  | nil => exact absurd hdigits Nat.toDigits_ne_nil
  | cons d digits =>
      have hne : d ≠ '+' := by
        rintro rfl
        exact notMem_toDigits rfl n (hdigits ▸ List.mem_cons_self)
      have hsign : parseUnsigned limit (d :: digits) =
          if d :: digits ≠ [] ∧ (d :: digits).all Char.isDigit ∧
            Nat.ofDigitChars 10 (d :: digits) 0 < limit then
            some (Nat.ofDigitChars 10 (d :: digits) 0) else none := by
        rw [parseUnsigned]
        intro digits' heq
        exact hne (List.cons_eq_cons.mp heq).1
      rw [hsign, ← hdigits, Nat.ofDigitChars_ten_toDigits, if_pos ⟨Nat.toDigits_ne_nil, hall, h⟩]

theorem Status.parse_asStr (status : Status) : Status.parse status.asStr = some status := by
  cases status <;> decide

theorem Status.space_notMem (status : Status) : ' ' ∉ status.asStr := by
  cases status <;> decide

theorem parseEnd_of_parts (status : Status) (millis : UInt64) {len : ℕ} (hlen : len < 2 ^ 64) :
    parseEnd (status.asStr ++ ' ' ::
      (Nat.toDigits 10 millis.toNat ++ ' ' :: Nat.toDigits 10 len)) =
      some (status, millis, len) := by
  have hparts : splitn 3 ' ' (status.asStr ++ ' ' ::
      (Nat.toDigits 10 millis.toNat ++ ' ' :: Nat.toDigits 10 len)) =
      [status.asStr, Nat.toDigits 10 millis.toNat, Nat.toDigits 10 len] := by
    rw [splitn, splitOnce_append status.space_notMem]
    simp only
    rw [splitn, splitOnce_append (notMem_toDigits rfl _)]
    rfl
  rw [parseEnd, hparts]
  simp only [Status.parse_asStr, parseUnsigned_toDigits millis.toNat_lt,
    parseUnsigned_toDigits hlen]
  show some (status, UInt64.ofNat millis.toNat, len) = _
  rw [UInt64.ofNat_toNat]

/-! ### Reading back -/

/-- A text without a carriage return or a newline. -/
def OneLine (text : Text) : Prop := ∀ c ∈ text, c ≠ '\r' ∧ c ≠ '\n'

/-- A given text is checked character by character. -/
theorem oneLine_of_all {text : Text} (h : text.all (fun c => c != '\r' && c != '\n') = true) :
    OneLine text := by
  intro c hc
  have hchar := List.all_eq_true.mp h c hc
  simpa using hchar

theorem OneLine.append {text text' : Text} (h : OneLine text) (h' : OneLine text') :
    OneLine (text ++ text') := by
  intro c hc
  rcases List.mem_append.mp hc with hc | hc
  · exact h c hc
  · exact h' c hc

theorem OneLine.newline_notMem {text : Text} (h : OneLine text) : '\n' ∉ text :=
  fun hmem => (h _ hmem).2 rfl

theorem oneLine_toDigits (n : ℕ) : OneLine (Nat.toDigits 10 n) := by
  refine fun c hc => ⟨?_, ?_⟩
  · rintro rfl
    exact notMem_toDigits rfl n hc
  · rintro rfl
    exact notMem_toDigits rfl n hc

theorem oneLine_asStr (status : Status) : OneLine status.asStr := by
  cases status <;> exact oneLine_of_all rfl

theorem asBytes_append (text text' : Text) :
    Text.asBytes (text ++ text') = text.asBytes ++ text'.asBytes :=
  List.flatMap_append

theorem decode_asBytes (text : Text) : Utf8.decode text.asBytes = some text :=
  Utf8.decode_eq_some_iff.mpr rfl

theorem asBytes_newline : Text.asBytes ['\n'] = [newline] := rfl

theorem newline_notMem_asBytes {text : Text} (h : '\n' ∉ text) : newline ∉ text.asBytes := by
  intro hmem
  obtain ⟨c, hc, hb⟩ := List.mem_flatMap.mp hmem
  have hsingle := Utf8.encodeChar_of_mem hb (by decide)
  have hchar : c = '\n' := Utf8.encodeChar_inj (hsingle.trans rfl)
  exact h (hchar ▸ hc)

theorem rawLine_append {u : List UInt8} (h : newline ∉ u) (v : List UInt8) :
    rawLine (u ++ newline :: v) = some (u ++ [newline], v) := by
  induction u with
  | nil => rfl
  | cons b u ih =>
      obtain ⟨hb, hu⟩ := not_or.mp (List.mem_cons.not.mp h)
      rw [List.cons_append, rawLine, if_neg (Ne.symm hb), ih hu]
      rfl

theorem readText_line {closed : Bool} {line : Text} (h : '\n' ∉ line) (rest : List UInt8) :
    readText closed (Text.asBytes (line ++ ['\n']) ++ rest) = .item (line ++ ['\n']) rest := by
  rw [readText.eq_def, asBytes_append, asBytes_newline, List.append_assoc, List.singleton_append,
    rawLine_append (newline_notMem_asBytes h)]
  simp only
  rw [← asBytes_newline, ← asBytes_append, fromUtf8, decode_asBytes]

theorem trimEnd_line {line : Text} (h : ∀ c ∈ line.getLast?, c ≠ '\r' ∧ c ≠ '\n') :
    trimEnd (line ++ ['\n']) = line := by
  rw [trimEnd, List.rdropWhile_concat_pos _ _ _ (by decide), List.rdropWhile_eq_self_iff]
  intro hne
  obtain ⟨hr, hn⟩ := h _ (List.getLast?_eq_getLast_of_ne_nil hne)
  simp [hr, hn]

theorem OneLine.trimEnd {line : Text} (h : OneLine line) : trimEnd (line ++ ['\n']) = line :=
  trimEnd_line fun c hc => h c (List.mem_of_getLast? hc)

theorem rawLine_eq_some {input line rest : List UInt8} (h : rawLine input = some (line, rest)) :
    ∃ u, newline ∉ u ∧ line = u ++ [newline] ∧ input = u ++ newline :: rest := by
  induction input generalizing line with
  | nil => cases h
  | cons b input ih =>
      rw [rawLine] at h
      split at h
      · next hb =>
          cases h
          exact ⟨[], by simp, by rw [hb]; rfl, by rw [hb]; rfl⟩
      · next hb =>
          obtain ⟨⟨line', rest'⟩, hline, heq⟩ := Option.map_eq_some_iff.mp h
          cases heq
          obtain ⟨u, hu, hline', hinput⟩ := ih hline
          refine ⟨b :: u, ?_, ?_, ?_⟩
          · simp [hu, Ne.symm hb]
          · rw [hline', List.cons_append]
          · rw [hinput, List.cons_append]

theorem fromUtf8_eq_item_iff {bytes rest rest' : List UInt8} {text : Text} :
    fromUtf8 bytes rest = .item text rest' ↔ bytes = text.asBytes ∧ rest = rest' := by
  rw [fromUtf8]
  split
  · next text' h =>
      rw [Utf8.decode_eq_some_iff.mp h]
      refine ⟨fun heq => ?_, fun heq => ?_⟩
      · cases heq
        exact ⟨rfl, rfl⟩
      · obtain ⟨hbytes, rfl⟩ := heq
        have htext : some text' = some text := by
          rw [← h, Utf8.decode_eq_some_iff.mp h, hbytes, decode_asBytes]
        rw [Option.some.inj htext]
  · next h =>
      refine ⟨fun heq => (nomatch heq), fun heq => ?_⟩
      rw [heq.1, decode_asBytes] at h
      cases h

theorem readText_shrinks {closed : Bool} {input rest : List UInt8} {text : Text}
    (h : readText closed input = .item text rest) : rest.length < input.length := by
  rw [readText.eq_def] at h
  split at h
  · next line rest' hline =>
      obtain ⟨u, -, -, rfl⟩ := rawLine_eq_some hline
      obtain ⟨-, rfl⟩ := fromUtf8_eq_item_iff.mp h
      simp
      omega
  · split at h
    · split at h
      · cases h
      · obtain ⟨-, rfl⟩ := fromUtf8_eq_item_iff.mp h
        simp
    · cases h

theorem readExact_shrinks {closed : Bool} {len : ℕ} {input bytes rest : List UInt8}
    (h : readExact closed len input = .item bytes rest) : rest.length ≤ input.length := by
  grind [readExact]

theorem readLine_shrinks {closed : Bool} {input rest : List UInt8} {line : Line}
    (h : readLine closed input = .item line rest) : rest.length < input.length := by
  obtain ⟨text, middle, htext, h⟩ := Read.bind_eq_item_iff.mp h
  have hmiddle := readText_shrinks htext
  suffices rest.length ≤ middle.length by omega
  simp only at h
  split at h
  · cases h
    exact Nat.le_refl _
  · split at h
    · cases h
      exact Nat.le_refl _
    · split at h
      · cases h
      · split at h
        · cases h
        · obtain ⟨buf, rest', hbuf, h⟩ := Read.bind_eq_item_iff.mp h
          split at h
          · cases h
            exact readExact_shrinks hbuf
          · cases h

theorem Request.readFrom_shrinks {closed : Bool} {input rest : List UInt8} {request : Request}
    (h : Request.readFrom closed input = .item request rest) : rest.length < input.length := by
  obtain ⟨text, middle, htext, h⟩ := Read.bind_eq_item_iff.mp h
  split at h
  · cases h
    exact readText_shrinks htext
  · cases h

def lines (closed : Bool) : Reader UInt8 IoError Line := ⟨readLine closed, readLine_shrinks⟩

def requests (closed : Bool) : Reader UInt8 IoError Request :=
  ⟨Request.readFrom closed, Request.readFrom_shrinks⟩

/-! ### Reading back frames -/

def Event.OneLine : Event → Prop
  | .start name => Runner.OneLine name
  | .end_ _ _ _ => True

def Request.OneLine : Request → Prop
  | .run name => Runner.OneLine name
  | .quit => True

theorem Request.parse_run (name : Text) :
    Request.parse ("RUN ".toList ++ name) = some (.run name) := by
  have hsplit : splitOnce ' ' ("RUN".toList ++ ' ' :: name) = some ("RUN".toList, name) :=
    splitOnce_append (by decide) name
  show Request.parse ("RUN".toList ++ ' ' :: name) = _
  rw [parse, hsplit]
  rfl

theorem Request.readFrom_bytes {closed : Bool} {request : Request} (h : request.OneLine)
    (rest : List UInt8) : Request.readFrom closed (request.bytes ++ rest) = .item request rest := by
  cases request with
  | run name =>
      have hword : Runner.OneLine "RUN ".toList := oneLine_of_all rfl
      have hline := hword.append h
      rw [readFrom, bytes, readText_line hline.newline_notMem]
      simp only [Read.bind]
      rw [hline.trimEnd, parse_run]
  | quit =>
      have hread : readText closed (Text.asBytes ("QUIT".toList ++ ['\n']) ++ rest) = _ :=
        readText_line (by decide) rest
      rw [readFrom, bytes]
      show Read.bind (readText closed (Text.asBytes ("QUIT".toList ++ ['\n']) ++ rest)) _ = _
      rw [hread]
      rfl

theorem oneLine_endLine (status : Status) (millis : UInt64) (len : ℕ) :
    OneLine (endLine status millis len) := by
  have hstart : OneLine (controlPrefix ++ "END ".toList) := oneLine_of_all rfl
  have hspace : OneLine [' '] := oneLine_of_all rfl
  have hline := ((((hstart.append (oneLine_asStr status)).append hspace).append
    (oneLine_toDigits millis.toNat)).append hspace).append (oneLine_toDigits len)
  simpa [endLine] using hline

theorem readMessage_bytes (closed : Bool) (status : Status) (millis : UInt64) (message : Message)
    (rest : List UInt8) :
    readMessage closed status millis message.text.asBytes.length (message.text.asBytes ++ rest) =
      .item (.control (.end_ status millis message)) rest := by
  have hlossy : Utf8.lossy message.text.asBytes = message.text := Utf8.lossy_encode _
  have hread : readExact closed message.text.asBytes.length (message.text.asBytes ++ rest) =
      .item message.text.asBytes rest := by
    have hfits := message.fits
    rw [readExact, if_neg (by omega), if_pos (by simp)]
    simp
  rw [readMessage, hread]
  simp only [Read.bind, hlossy]
  rw [dif_pos message.fits]

theorem readLine_bytes {closed : Bool} {event : Event} (h : event.OneLine)
    (rest : List UInt8) : readLine closed (event.bytes ++ rest) = .item (.control event) rest := by
  cases event with
  | start name =>
      have hword : Runner.OneLine (controlPrefix ++ "START ".toList) := oneLine_of_all rfl
      have hline := hword.append h
      rw [List.append_assoc] at hline
      rw [readLine, Event.bytes, readText_line hline.newline_notMem]
      simp only [Read.bind]
      rw [hline.trimEnd, stripPrefix_append]
      simp only
      rw [stripPrefix_append]
  | end_ status millis message =>
      have hline := oneLine_endLine status millis message.text.asBytes.length
      have hlen : message.text.asBytes.length < 2 ^ 64 := by
        have hfits := message.fits
        omega
      rw [readLine, Event.bytes, List.append_assoc, readText_line hline.newline_notMem]
      simp only [Read.bind]
      have hstart (header : Text) : stripPrefix "START ".toList ("END ".toList ++ header) = none :=
        rfl
      rw [hline.trimEnd, endLine, stripPrefix_append]
      simp only [hstart, stripPrefix_append, parseEnd_of_parts status millis hlen]
      exact readMessage_bytes closed status millis message rest

/-- Frames written one after the other are read back as the same frames, and
then there are no more. -/
theorem read_frames :
    (∀ events : List Event, (∀ event ∈ events, event.OneLine) →
      (lines true).all (events.flatMap Event.bytes) = (events.map Line.control, .done [])) ∧
    ∀ asked : List Request, (∀ request ∈ asked, request.OneLine) →
      (requests true).all (asked.flatMap Request.bytes) = (asked, .done []) := by
  constructor
  · intro events h
    exact Reader.all_flatMap (fun event hevent => readLine_bytes (h event hevent)) rfl
  · intro asked h
    have hall : (requests true).all (asked.flatMap Request.bytes) = (asked.map id, .done []) :=
      Reader.all_flatMap (fun request hrequest => Request.readFrom_bytes (h request hrequest)) rfl
    rw [hall, List.map_id]

/-- A message with a newline and a frame of its own between two cases. -/
theorem read_frames_nested :
    (lines true).all (List.flatMap Event.bytes [.start "a b::c".toList,
      .end_ .failed 42 ⟨"at\n\x1eEND ok 1 0\n".toList, by decide⟩, .start "d".toList]) =
      ([.control (.start "a b::c".toList),
        .control (.end_ .failed 42 ⟨"at\n\x1eEND ok 1 0\n".toList, by decide⟩),
        .control (.start "d".toList)], .done []) ∧
    (requests true).all (List.flatMap Request.bytes [.run "a b::c".toList, .quit]) =
      ([.run "a b::c".toList, .quit], .done []) := by
  refine ⟨read_frames.1 _ ?_, read_frames.2 _ ?_⟩
  · simp only [List.mem_cons, List.not_mem_nil, or_false, forall_eq_or_imp, forall_eq]
    exact ⟨oneLine_of_all rfl, trivial, oneLine_of_all rfl⟩
  · simp only [List.mem_cons, List.not_mem_nil, or_false, forall_eq_or_imp, forall_eq]
    exact ⟨oneLine_of_all rfl, trivial⟩

end Idakit.Runner
