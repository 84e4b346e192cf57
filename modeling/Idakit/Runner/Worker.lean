import Idakit.Runner.Protocol

/-!
The runner's end of one worker. A thread of its own reads the worker's merged
output and passes the lines on, so that waiting for a line can be given up. A
case is over with the first end frame behind its request.

What a case prints stands between its two frames. It is attributed to the
case, and the end frame is found behind it, exactly if it consists of whole
lines of UTF-8 text that do not end with a carriage return.
-/

namespace Idakit.Runner

open Idakit.Library
open Idakit.Types

structure CaseResult where
  name : Text
  status : Status
  millis : UInt64
  message : Text
  output : List Text

inductive Received
  | line (line : Line)
  | error (e : IoError)
  | timeout
  | disconnected

/-- What the runner does with it: wait again, with the output so far, or end
the case. -/
inductive Turn
  | again (output : List Text)
  | over (result : Except IoError CaseResult)

def receive (name : Text) (seconds : ℕ) (output : List Text) : Received → Turn
  | .line (.output text) => .again (output ++ [text])
  | .line (.control (.start _)) => .again output
  | .line (.control (.end_ status millis message)) =>
      .over (.ok ⟨name, status, millis, message.text, output⟩)
  | .error e => .over (.error e)
  | .timeout => .over (.error (.timedOut seconds output))
  | .disconnected => .over (.error (.exited name output))

/-- All turns of a case; `none` while it still waits. -/
def runCase (name : Text) (seconds : ℕ) (output : List Text) :
    List Received → Option (Except IoError CaseResult)
  | [] => none
  | r :: received =>
      match receive name seconds output r with
      | .again output => runCase name seconds output received
      | .over result => some result

/-- How the reading thread ends: the channel is closed, and a last error is
sent before that. A thread that waits for more output sends nothing until the
runner gives up. -/
def atEnding : Ending UInt8 IoError → List Received
  | .done _ => [.disconnected]
  | .error e => [.error e, .disconnected]
  | .panicked => [.disconnected]
  | .blocked => [.timeout]

def drain (closed : Bool) (output : List UInt8) : List Received :=
  ((lines closed).all output).1.map .line ++ atEnding ((lines closed).all output).2

/-! ### Output and frames -/

/-- The lines of some bytes, with the last one also if no newline follows. -/
def byteLines : List UInt8 → List (List UInt8)
  | [] => []
  | b :: out =>
      if b = newline then [] :: byteLines out
      else match byteLines out with
        | [] => [[b]]
        | line :: lines => (b :: line) :: lines

/-- Whole lines of UTF-8 text without a carriage return at a line end. -/
def WholeLines (out : List UInt8) : Prop :=
  (Utf8.decode out).isSome ∧ (out = [] ∨ out.getLast? = some newline) ∧
    ∀ line ∈ byteLines out, line.getLast? ≠ some 0x0D

instance (out : List UInt8) : Decidable (WholeLines out) := by
  unfold WholeLines
  infer_instance

section

variable {u out rest : List UInt8} {text line : Text} {closed : Bool}

theorem byteLines_append (h : newline ∉ u) (out : List UInt8) :
    byteLines (u ++ newline :: out) = u :: byteLines out := by
  induction u with
  | nil => simp [byteLines]
  | cons b u ih =>
      obtain ⟨hb, hu⟩ := not_or.mp (List.mem_cons.not.mp h)
      rw [List.cons_append, byteLines, if_neg (Ne.symm hb), ih hu]

theorem byteLines_of_notMem (h : newline ∉ u) (hne : u ≠ []) : byteLines u = [u] := by
  induction u with
  | nil => exact absurd rfl hne
  | cons b u ih =>
      obtain ⟨hb, hu⟩ := not_or.mp (List.mem_cons.not.mp h)
      rw [byteLines, if_neg (Ne.symm hb)]
      cases u with
      | nil => rfl
      | cons c u => rw [ih hu (List.cons_ne_nil c u)]

/-- Either there is nothing, or no newline, or a first line that is whole. -/
theorem lines_cases (out : List UInt8) :
    out = [] ∨ (out ≠ [] ∧ newline ∉ out) ∨
      ∃ u rest, newline ∉ u ∧ out = u ++ newline :: rest := by
  by_cases hmem : newline ∈ out
  · obtain ⟨u, rest, hout, hu⟩ := List.eq_append_cons_of_mem hmem
    exact .inr (.inr ⟨u, rest, hu, hout⟩)
  · by_cases hout : out = []
    · exact .inl hout
    · exact .inr (.inl ⟨hout, hmem⟩)

theorem asBytes_injective {text text' : Text} (h : text.asBytes = text'.asBytes) :
    text = text' := by
  have hdecode := decode_asBytes text
  rw [h, decode_asBytes] at hdecode
  exact (Option.some.inj hdecode).symm

theorem eq_nil_of_asBytes {text : Text} (h : text.asBytes = []) : text = [] :=
  asBytes_injective (h.trans rfl)

theorem isSome_decode_iff : (Utf8.decode u).isSome ↔ ∃ text : Text, u = text.asBytes := by
  simp only [Option.isSome_iff_exists, Utf8.decode_eq_some_iff]
  rfl

theorem isSome_decode_append_iff :
    (Utf8.decode (u ++ newline :: rest)).isSome ↔
      (Utf8.decode u).isSome ∧ (Utf8.decode rest).isSome := by
  simp only [isSome_decode_iff]
  refine ⟨fun h => ?_, fun h => ?_⟩
  · obtain ⟨text, htext⟩ := h
    obtain ⟨before, c, after, -, -, hbefore, hafter⟩ :=
      Utf8.split_of_encode (by decide) htext.symm
    exact ⟨⟨before, hbefore.symm⟩, after, hafter.symm⟩
  · obtain ⟨⟨before, rfl⟩, after, rfl⟩ := h
    refine ⟨before ++ ['\n'] ++ after, ?_⟩
    rw [asBytes_append, asBytes_append, asBytes_newline, List.append_assoc]
    rfl

theorem wholeLines_nil : WholeLines [] := by decide

theorem wholeLines_append_iff (h : newline ∉ u) :
    WholeLines (u ++ newline :: rest) ↔
      (Utf8.decode u).isSome ∧ u.getLast? ≠ some 0x0D ∧ WholeLines rest := by
  have hlast : (u ++ newline :: rest = [] ∨ (u ++ newline :: rest).getLast? = some newline) ↔
      (rest = [] ∨ rest.getLast? = some newline) := by
    cases rest with
    | nil => simp
    | cons b rest => simp [List.getLast?_append, List.getLast?_cons_cons]
  rw [WholeLines, WholeLines, isSome_decode_append_iff, hlast, byteLines_append h,
    List.forall_mem_cons]
  tauto

theorem not_wholeLines_of_notMem (h : newline ∉ out) (hne : out ≠ []) : ¬WholeLines out := by
  rintro ⟨-, hout | hlast, -⟩
  · exact hne hout
  · exact h (List.mem_of_getLast? hlast)

/-! ### Reading a line of output -/

theorem stripPrefix_controlPrefix (h : text.head? ≠ some '\x1e') :
    stripPrefix controlPrefix text = none := by
  cases text with
  | nil => rfl
  | cons c text =>
      have hc : '\x1e' ≠ c := fun hc => h (by rw [hc]; rfl)
      show (if '\x1e' = c then _ else none) = none
      rw [if_neg hc]

/-- The text of a line that does not begin with a control byte. -/
theorem head?_trimEnd_ne (htext : text.asBytes = u ++ [newline]) (hu : u.head? ≠ some 0x1E) :
    (trimEnd text).head? ≠ some '\x1e' := by
  intro h
  obtain ⟨tail, hline⟩ := List.head?_eq_some_iff.mp h
  obtain ⟨behind, hbehind⟩ : trimEnd text <+: text := List.rdropWhile_prefix _ _
  rw [← hbehind, hline, asBytes_append] at htext
  cases u with
  | nil =>
      have hhead := congrArg List.head? htext
      cases hhead
  | cons b u =>
      have hhead : 0x1E = b := (List.cons_eq_cons.mp htext).1
      exact hu (by rw [← hhead]; rfl)

/-- A line that is not UTF-8 ends the reading, and any other that does not
begin with a control byte is output. -/
theorem readLine_output (closed : Bool) (h : newline ∉ u) (hu : u.head? ≠ some 0x1E) (rest : List UInt8) :
    Utf8.decode u = none ∧ readLine closed (u ++ newline :: rest) = .ended (.error .invalidUtf8) ∨
      ∃ line : Text, u = line.asBytes ∧
        readLine closed (u ++ newline :: rest) = .item (.output (trimEnd (line ++ ['\n']))) rest := by
  have hread : readText closed (u ++ newline :: rest) = fromUtf8 (u ++ [newline]) rest := by
    rw [readText.eq_def, rawLine_append h]
  cases hdecode : Utf8.decode u with
  | none =>
      left
      have hnone : Utf8.decode (u ++ [newline]) = none := by
        rw [← Option.not_isSome_iff_eq_none, isSome_decode_append_iff]
        rintro ⟨hsome, -⟩
        rw [hdecode] at hsome
        cases hsome
      refine ⟨rfl, ?_⟩
      rw [readLine, hread, fromUtf8, hnone]
      rfl
  | some decoded =>
      right
      obtain ⟨line, rfl⟩ := isSome_decode_iff.mp (Option.isSome_of_eq_some hdecode)
      refine ⟨line, rfl, ?_⟩
      have hline : Text.asBytes (line ++ ['\n']) = line.asBytes ++ [newline] := asBytes_append _ _
      rw [readLine, hread, ← hline, fromUtf8, decode_asBytes]
      simp only [Read.bind]
      rw [stripPrefix_controlPrefix (head?_trimEnd_ne hline hu)]

theorem drain_of_item {line : Line} (h : readLine closed out = .item line rest) :
    drain closed out = .line line :: drain closed rest := by
  rw [drain, Reader.all_of_item (r := lines closed) h]
  rfl

theorem drain_of_ended {e : Ending UInt8 IoError} (h : readLine closed out = .ended e) :
    drain closed out = atEnding e := by
  rw [drain, Reader.all_of_ended (r := lines closed) h]
  rfl

/-! ### The output of a case -/

theorem receive_again {name : Text} {seconds : ℕ} {output output' : List Text} {r : Received}
    (h : receive name seconds output r = .again output') : output <+: output' := by
  rcases r with (⟨_ | _⟩ | text) | e | _ | _
  · cases h
    exact List.prefix_refl _
  · cases h
  · cases h
    exact List.prefix_append _ _
  all_goals cases h

theorem receive_over {name : Text} {seconds : ℕ} {output : List Text} {r : Received}
    {result : CaseResult} (h : receive name seconds output r = .over (.ok result)) :
    result.output = output := by
  rcases r with (⟨_ | _⟩ | text) | e | _ | _
  · cases h
  · cases h
    rfl
  all_goals cases h

/-- A finished case has at least the output it had before. -/
theorem output_prefix {name : Text} {seconds : ℕ} {output : List Text} {received : List Received}
    {result : CaseResult} (h : runCase name seconds output received = some (.ok result)) :
    output <+: result.output := by
  induction received generalizing output with
  | nil => cases h
  | cons r received ih =>
      rw [runCase] at h
      split at h
      · next output' hturn => exact (receive_again hturn).trans (ih h)
      · next result' hturn =>
          cases h
          have houtput := receive_over hturn
          exact ⟨[], by rw [houtput, List.append_nil]⟩

/-- The case ends with its own end frame, and with exactly the lines of `out`
behind the output it had before. -/
def Attributes (name : Text) (seconds : ℕ) (status : Status) (millis : UInt64) (message : Message)
    (output : List Text) (out : List UInt8) : Prop :=
  ∃ more, runCase name seconds output
      (drain false (out ++ (Event.end_ status millis message).bytes)) =
        some (.ok ⟨name, status, millis, message.text, output ++ more⟩) ∧
    more.map Text.asBytes = byteLines out

variable {name : Text} {seconds : ℕ} {status : Status} {millis : UInt64} {message : Message}
  {output : List Text}

theorem attributes_nil : Attributes name seconds status millis message output [] := by
  refine ⟨[], ?_, rfl⟩
  have hevent : (Event.end_ status millis message).OneLine := trivial
  have hread : readLine false ((Event.end_ status millis message).bytes ++ []) = _ :=
    readLine_bytes hevent []
  rw [List.append_nil] at hread
  rw [List.nil_append, drain_of_item hread, List.append_nil]
  rfl

theorem getLast?_asBytes (line : Text) :
    line.asBytes.getLast? = some 0x0D ↔ line.getLast? = some '\r' := by
  refine ⟨fun h => ?_, fun h => ?_⟩
  · obtain ⟨u, hu⟩ := List.getLast?_eq_some_iff.mp h
    obtain ⟨before, c, after, rfl, hc, -, hafter⟩ := Utf8.split_of_encode (by decide) hu
    obtain rfl : after = [] := eq_nil_of_asBytes hafter
    obtain rfl : c = '\r' := Utf8.encodeChar_inj (hc.trans rfl)
    simp
  · obtain ⟨before, rfl⟩ := List.getLast?_eq_some_iff.mp h
    rw [asBytes_append]
    exact List.getLast?_concat

theorem trimEnd_eq_iff (h : '\n' ∉ line) :
    trimEnd (line ++ ['\n']) = line ↔ line.asBytes.getLast? ≠ some 0x0D := by
  rw [Ne, getLast?_asBytes]
  refine ⟨fun htrim hlast => ?_, fun hlast => trimEnd_line fun c hc => ⟨?_, ?_⟩⟩
  · obtain ⟨before, rfl⟩ := List.getLast?_eq_some_iff.mp hlast
    have hshort : (trimEnd (before ++ ['\r'] ++ ['\n'])).length ≤ before.length := by
      rw [trimEnd, List.rdropWhile_concat_pos _ _ _ (by decide),
        List.rdropWhile_concat_pos _ _ _ (by decide)]
      exact (List.rdropWhile_prefix _ _).length_le
    rw [htrim, List.length_append, List.length_singleton] at hshort
    omega
  · rintro rfl
    exact hlast hc
  · rintro rfl
    exact h (List.mem_of_getLast? hc)

/-- After one line of output the case goes on with the rest. -/
theorem attributes_append_iff (h : newline ∉ u) (hu : u.head? ≠ some 0x1E) :
    Attributes name seconds status millis message output (u ++ newline :: rest) ↔
      ∃ line, u = Text.asBytes line ∧ u.getLast? ≠ some 0x0D ∧
        Attributes name seconds status millis message (output ++ [line]) rest := by
  rcases readLine_output false h hu
    (rest ++ (Event.end_ status millis message).bytes) with ⟨hdecode, hread⟩ | ⟨line, rfl, hread⟩
  · refine ⟨fun hcase => ?_, fun hline => ?_⟩
    · obtain ⟨more, hmore, -⟩ := hcase
      rw [List.append_assoc, List.cons_append, drain_of_ended hread] at hmore
      cases hmore
    · obtain ⟨line, rfl, -⟩ := hline
      rw [decode_asBytes] at hdecode
      cases hdecode
  · have hline : '\n' ∉ line := fun hmem => h (List.mem_flatMap.mpr ⟨'\n', hmem, by decide⟩)
    have hdrain : runCase name seconds output (drain false
        (line.asBytes ++ newline :: rest ++ (Event.end_ status millis message).bytes)) =
        runCase name seconds (output ++ [trimEnd (line ++ ['\n'])])
          (drain false (rest ++ (Event.end_ status millis message).bytes)) := by
      rw [List.append_assoc, List.cons_append, drain_of_item hread]
      rfl
    simp only [Attributes, hdrain, byteLines_append h]
    refine ⟨fun hcase => ?_, fun hcase => ?_⟩
    · obtain ⟨more, hmore, hlines⟩ := hcase
      have hstart := output_prefix hmore
      simp only [List.prefix_append_right_inj] at hstart
      obtain ⟨more', rfl⟩ := hstart
      obtain ⟨hhead, htail⟩ := List.cons_eq_cons.mp hlines
      have htrim := asBytes_injective hhead
      rw [htrim] at hmore
      refine ⟨line, rfl, (trimEnd_eq_iff hline).mp htrim, more', ?_, htail⟩
      simpa using hmore
    · obtain ⟨line', hline', hlast, more, hmore, hlines⟩ := hcase
      obtain rfl := asBytes_injective hline'
      rw [(trimEnd_eq_iff hline).mpr hlast]
      refine ⟨line :: more, ?_, by rw [List.map_cons, hlines]⟩
      simpa using hmore

/-- The end frame is lost behind a line that is not whole. -/
theorem not_attributes_of_notMem (h : newline ∉ out) (hne : out ≠ [])
    (hout : out.head? ≠ some 0x1E) :
    ¬Attributes name seconds status millis message output out := by
  rintro ⟨more, hmore, hlines⟩
  let frame := endLine status millis message.text.asBytes.length
  have hframe : OneLine frame := oneLine_endLine status millis message.text.asBytes.length
  have hbytes : (Event.end_ status millis message).bytes =
      frame.asBytes ++ newline :: message.text.asBytes := by
    rw [Event.bytes, asBytes_append, asBytes_newline, List.append_assoc]
    rfl
  have hnewline : newline ∉ out ++ frame.asBytes := by
    rw [List.mem_append]
    rintro (hmem | hmem)
    · exact h hmem
    · exact newline_notMem_asBytes hframe.newline_notMem hmem
  have hhead : (out ++ frame.asBytes).head? ≠ some 0x1E := by
    cases out with
    | nil => exact absurd rfl hne
    | cons b out => exact hout
  rw [hbytes, ← List.append_assoc] at hmore
  -- Without a newline of its own the output goes on into the end frame.
  rcases readLine_output false hnewline hhead message.text.asBytes with
    ⟨-, hread⟩ | ⟨line, hline, hread⟩
  · rw [drain_of_ended hread] at hmore
    cases hmore
  · -- the line that is read is the output with the frame behind it
    obtain ⟨before, c, after, rfl, -, hbefore, -⟩ :
        ∃ before c after, line = before ++ c :: after ∧ String.utf8EncodeChar c = [0x1E] ∧
          Text.asBytes before = out ∧ _ :=
      Utf8.split_of_encode (by decide) hline.symm
    obtain rfl := hbefore
    rw [← asBytes_append] at hline
    have htrim : trimEnd (before ++ frame ++ ['\n']) = before ++ frame := by
      refine trimEnd_line fun d hd => ?_
      have hlast : (before ++ frame).getLast? = frame.getLast? :=
        List.getLast?_append_of_ne_nil _ (List.cons_ne_nil _ _)
      rw [hlast] at hd
      exact hframe d (List.mem_of_getLast? hd)
    rw [← asBytes_injective hline, htrim] at hread
    rw [drain_of_item hread] at hmore
    change runCase name seconds (output ++ [before ++ frame]) _ = _ at hmore
    have hstart : output ++ [before ++ frame] <+: output ++ more := output_prefix hmore
    rw [List.prefix_append_right_inj] at hstart
    obtain ⟨more', rfl⟩ := hstart
    rw [byteLines_of_notMem h hne] at hlines
    have hshort := asBytes_injective (List.cons_eq_cons.mp hlines).1
    rw [List.append_right_eq_self] at hshort
    exact absurd hshort (List.cons_ne_nil _ _)

/-- A case is attributed exactly its output, and ends with its own end frame, if
and only if it prints whole lines. -/
theorem attributes_iff (hout : ∀ line ∈ byteLines out, line.head? ≠ some 0x1E) :
    Attributes name seconds status millis message output out ↔ WholeLines out := by
  induction hn : out.length using Nat.strongRecOn generalizing out output with
  | ind n ih =>
  rcases lines_cases out with rfl | ⟨hne, hmem⟩ | ⟨u, rest, hu, rfl⟩
  · exact ⟨fun _ => wholeLines_nil, fun _ => attributes_nil⟩
  · have hhead : out.head? ≠ some 0x1E := by
      refine hout out ?_
      rw [byteLines_of_notMem hmem hne]
      exact List.mem_singleton_self out
    exact ⟨fun h => absurd h (not_attributes_of_notMem hmem hne hhead),
      fun h => absurd h (not_wholeLines_of_notMem hmem hne)⟩
  · rw [byteLines_append hu, List.forall_mem_cons] at hout
    have hlt : rest.length < n := by
      rw [← hn]
      simp
      omega
    rw [attributes_append_iff hu hout.1, wholeLines_append_iff hu, isSome_decode_iff]
    refine ⟨fun h => ?_, fun h => ?_⟩
    · obtain ⟨line, hline, hlast, hrest⟩ := h
      exact ⟨⟨line, hline⟩, hlast, (ih _ hlt hout.2 rfl).mp hrest⟩
    · obtain ⟨⟨line, hline⟩, hlast, hrest⟩ := h
      exact ⟨line, hline, hlast, (ih _ hlt hout.2 rfl).mpr hrest⟩

end

/-- What a worker writes while it runs a case that prints `out`: two frames and
the output between them. It then waits for its next request. -/
def runOne (name : Text) (out : List UInt8) (status : Status) (millis : UInt64)
    (message : Message) : List UInt8 :=
  (Event.start name).bytes ++ out ++ (Event.end_ status millis message).bytes

/-- The runner gets the verdict of a case, and exactly the lines that it
printed. -/
def Reported (caseName : Text) (seconds : ℕ) (name : Text) (out : List UInt8) (status : Status)
    (millis : UInt64) (message : Message) : Prop :=
  ∃ output, runCase caseName seconds [] (drain false (runOne name out status millis message)) =
      some (.ok ⟨caseName, status, millis, message.text, output⟩) ∧
    output.map Text.asBytes = byteLines out

theorem splitOnce_eq_some {c : Char} {text before behind : Text}
    (h : splitOnce c text = some (before, behind)) : text = before ++ c :: behind := by
  induction text generalizing before with
  | nil => cases h
  | cons d text ih =>
      rw [splitOnce] at h
      split at h
      · next hd =>
          cases h
          rw [hd, List.nil_append]
      · obtain ⟨p, hp, hpair⟩ := Option.map_eq_some_iff.mp h
        cases hpair
        rw [ih hp, List.cons_append]

theorem newline_notMem_of_rawLine {input : List UInt8} (h : rawLine input = none) :
    newline ∉ input := by
  intro hmem
  obtain ⟨u, rest, rfl, hu⟩ := List.eq_append_cons_of_mem hmem
  rw [rawLine_append hu] at h
  cases h

/-- A line that was read has no newline but its own. -/
theorem newline_notMem_trimEnd {closed : Bool} {input left : List UInt8} {text : Text}
    (h : readText closed input = .item text left) : '\n' ∉ trimEnd text := by
  have hnewline {line : Text} (hline : newline ∉ line.asBytes) : '\n' ∉ line :=
    fun hmem => hline (List.mem_flatMap.mpr ⟨'\n', hmem, by decide⟩)
  have hshort (line : Text) : trimEnd line <+: line := List.rdropWhile_prefix _ _
  rw [readText.eq_def] at h
  split at h
  · next line rest hline =>
      obtain ⟨u, hu, rfl, -⟩ := rawLine_eq_some hline
      obtain ⟨htext, -⟩ := fromUtf8_eq_item_iff.mp h
      obtain ⟨before, c, after, rfl, hc, rfl, hafter⟩ := Utf8.split_of_encode (by decide) htext.symm
      obtain rfl : after = [] := eq_nil_of_asBytes hafter
      obtain rfl : c = '\n' := Utf8.encodeChar_inj (hc.trans rfl)
      have htrim : trimEnd (before ++ ['\n']) = trimEnd before :=
        List.rdropWhile_concat_pos _ _ _ (by decide)
      rw [htrim]
      exact fun hmem => hnewline hu ((hshort before).mem hmem)
  · next hline =>
      split at h
      · split at h
        · cases h
        · obtain ⟨htext, -⟩ := fromUtf8_eq_item_iff.mp h
          have hbytes := newline_notMem_of_rawLine hline
          rw [htext] at hbytes
          exact fun hmem => hnewline hbytes ((hshort text).mem hmem)
      · cases h

/-- The name of a case that a worker was asked to run has no newline. -/
theorem newline_notMem_of_readFrom {closed : Bool} {input left : List UInt8} {name : Text}
    (hasked : Request.readFrom closed input = .item (.run name) left) : '\n' ∉ name := by
  obtain ⟨text, middle, htext, hparse⟩ := Read.bind_eq_item_iff.mp hasked
  have hline := newline_notMem_trimEnd htext
  cases hrequest : Request.parse (trimEnd text) with
  | none =>
      rw [hrequest] at hparse
      cases hparse
  | some request =>
      rw [hrequest] at hparse
      cases hparse
      rw [Request.parse] at hrequest
      split at hrequest
      · next word rest hsplit =>
          split at hrequest
          · cases hrequest
            rw [splitOnce_eq_some hsplit] at hline
            simp at hline
            exact hline.2
          · split at hrequest
            · cases hrequest
            · cases hrequest
      · split at hrequest
        · cases hrequest
        · cases hrequest

/-- Only what stands behind a text that ends with something else is trimmed. -/
theorem trimEnd_append {start : Text} (h : ∃ c, start.getLast? = some c ∧ c ≠ '\r' ∧ c ≠ '\n')
    (line : Text) : trimEnd (start ++ line) = start ++ trimEnd line := by
  induction line using List.reverseRecOn with
  | nil =>
      obtain ⟨c, hlast, hr, hn⟩ := h
      obtain ⟨before, rfl⟩ := List.getLast?_eq_some_iff.mp hlast
      rw [List.append_nil]
      show List.rdropWhile _ (before ++ [c]) = before ++ [c] ++ []
      rw [List.rdropWhile_concat_neg _ _ _ (by simp [hr, hn]), List.append_nil]
  | append_singleton line d ih =>
      rw [← List.append_assoc, trimEnd, trimEnd, List.rdropWhile_concat, List.rdropWhile_concat]
      split
      · exact ih
      · rw [List.append_assoc]

/-- The start frame of a case is passed over. -/
theorem drain_start {name : Text} (h : '\n' ∉ name) (rest : List UInt8) :
    ∃ name', drain false ((Event.start name).bytes ++ rest) =
      .line (.control (.start name')) :: drain false rest := by
  have hline : '\n' ∉ controlPrefix ++ ("START ".toList ++ name) := by
    rw [← List.append_assoc, List.mem_append]
    rintro (hmem | hmem)
    · revert hmem
      decide
    · exact h hmem
  have htrim : trimEnd (controlPrefix ++ ("START ".toList ++ name) ++ ['\n']) =
      controlPrefix ++ ("START ".toList ++ trimEnd (name ++ ['\n'])) := by
    rw [← List.append_assoc, List.append_assoc, trimEnd_append ⟨' ', rfl, by decide, by decide⟩,
      List.append_assoc]
  refine ⟨trimEnd (name ++ ['\n']), drain_of_item ?_⟩
  rw [readLine, Event.bytes, readText_line hline]
  simp only [Read.bind]
  rw [htrim, stripPrefix_append]
  simp only
  rw [stripPrefix_append]

/-- A case that a worker was asked to run is reported with its own verdict and
exactly its output if and only if it prints whole lines. -/
theorem reported_iff_wholeLines {closed : Bool} {input left : List UInt8} {name : Text}
    (hasked : Request.readFrom closed input = .item (.run name) left) (caseName : Text)
    (seconds : ℕ) (status : Status) (millis : UInt64) (message : Message) {out : List UInt8}
    (hout : ∀ line ∈ byteLines out, line.head? ≠ some 0x1E) :
    Reported caseName seconds name out status millis message ↔ WholeLines out := by
  obtain ⟨name', hdrain⟩ := drain_start (newline_notMem_of_readFrom hasked)
    (out ++ (Event.end_ status millis message).bytes)
  have hattributes : Attributes caseName seconds status millis message [] out ↔ WholeLines out :=
    attributes_iff hout
  rw [← hattributes, Reported, runOne, List.append_assoc, hdrain]
  rfl

theorem reported_two_lines :
    Reported "a::b".toList 180 "a::b".toList (Text.asBytes "one\n\ntwo\n".toList) .failed 7
      ⟨"why\n".toList, by decide⟩ := by
  have hasked : Request.readFrom false (Request.run "a::b".toList).bytes =
      .item (.run "a::b".toList) [] := by
    have hline : (Request.run "a::b".toList).OneLine := oneLine_of_all rfl
    have hread : Request.readFrom false ((Request.run "a::b".toList).bytes ++ []) = _ :=
      Request.readFrom_bytes hline []
    rwa [List.append_nil] at hread
  exact (reported_iff_wholeLines hasked _ _ _ _ _ (by decide)).mpr (by decide)

/-- The case prints `x` and no newline. Its end frame is taken for output, and it
times out. -/
theorem not_reported_x :
    Request.readFrom false (Request.run "c".toList).bytes = .item (.run "c".toList) [] ∧
      (∀ line ∈ byteLines [0x78], line.head? ≠ some 0x1E) ∧
      runCase "c".toList 180 []
        (drain false (runOne "c".toList [0x78] .passed 0 ⟨[], by decide⟩)) =
        some (.error (.timedOut 180 ["x\x1eEND ok 0 0".toList])) ∧
      ¬Reported "c".toList 180 "c".toList [0x78] .passed 0 ⟨[], by decide⟩ := by
  have hrun : runCase "c".toList 180 []
      (drain false (runOne "c".toList [0x78] .passed 0 ⟨[], by decide⟩)) =
      some (.error (.timedOut 180 ["x\x1eEND ok 0 0".toList])) := by
    have hstart : readLine false (runOne "c".toList [0x78] .passed 0 ⟨[], by decide⟩) =
        .item (.control (.start "c".toList)) (Text.asBytes "x\x1eEND ok 0 0\n".toList) := rfl
    have hend : readLine false (Text.asBytes "x\x1eEND ok 0 0\n".toList) =
        .item (.output "x\x1eEND ok 0 0".toList) [] := rfl
    have hblocked : readLine false [] = .ended .blocked := rfl
    rw [drain_of_item hstart, drain_of_item hend, drain_of_ended hblocked]
    rfl
  refine ⟨by rfl, by decide, hrun, ?_⟩
  rintro ⟨output, hcase, -⟩
  rw [hrun] at hcase
  cases hcase

end Idakit.Runner
