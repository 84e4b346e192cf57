import Idakit.Runner.Session

/-!
What one motion of a thread, or of its worker, makes of the two. A thread's
invariant says which lines the bytes on their way are, and what the runner will
make of them: the end of a case that the worker has run is on its way to the
list until it is there, or until the worker is lost.
-/

namespace Idakit.Runner

open Idakit.Library
open Idakit.Types

variable {debug : Text → Text} {seconds : ℕ} {shared shared' : Shared} {t t' : Activity}
  {link link' : Link} {items : List Line} {line : Line} {received : Received}

/-! ### What a pipe carries -/

@[simp] theorem Process.left_write (left : List UInt8) : (Process.write left).left = left := by
  cases left <;> rfl

theorem Process.write_ne_gone (left : List UInt8) : Process.write left ≠ .gone := by
  cases left <;> exact nofun

theorem Process.isGone_iff {p : Process} : p.isGone = true ↔ p = .gone := by
  cases p <;> simp [Process.isGone]

/-- The bytes on their way are those of some lines, up to where the worker died. -/
structure Link.Carries (link : Link) (items : List Line) : Prop where
  sound : ∀ line ∈ items, line.Sound
  bytes : ∃ unwritten, link.stdout ++ unwritten = items.flatMap Line.bytes ∧
    (link.process = .gone ∨ link.process.left = unwritten)

namespace Link.Carries

theorem killed (h : link.Carries items) : link.killed.Carries items := by
  obtain ⟨unwritten, hbytes, -⟩ := h.bytes
  exact ⟨h.sound, unwritten, hbytes, .inl rfl⟩

theorem emit (h : link.Carries items) {left : List UInt8} (hleft : link.process = .writing left)
    (count : ℕ) :
    Link.Carries { link with
      process := .write (left.drop count), stdout := link.stdout ++ left.take count } items := by
  obtain ⟨unwritten, hbytes, hprocess⟩ := h.bytes
  rw [hleft] at hprocess
  rcases hprocess with hgone | rfl
  · cases hgone
  · refine ⟨h.sound, left.drop count, ?_, .inr (Process.left_write _)⟩
    rw [List.append_assoc, List.take_append_drop]
    exact hbytes

/-- A worker that has nothing left to write goes on with more lines. -/
theorem perform (h : link.Carries items) (hwaiting : link.process = .waiting) {more : List Line}
    (hmore : ∀ line ∈ more, line.Sound) (stdin : List UInt8) (printed : List Text) :
    Link.Carries { link with
      process := .write (more.flatMap Line.bytes), stdin := stdin, printed := printed }
      (items ++ more) := by
  obtain ⟨unwritten, hbytes, hprocess⟩ := h.bytes
  rw [hwaiting] at hprocess
  rcases hprocess with hgone | hleft
  · cases hgone
  · obtain rfl : [] = unwritten := hleft
    rw [List.append_nil] at hbytes
    refine ⟨?_, more.flatMap Line.bytes, ?_, .inr (Process.left_write _)⟩
    · intro line hline
      rcases List.mem_append.mp hline with hline | hline
      · exact h.sound line hline
      · exact hmore line hline
    · rw [List.flatMap_append, ← hbytes]

theorem stdout_nil (h : link.Carries []) : link.stdout = [] := by
  obtain ⟨unwritten, hbytes, -⟩ := h.bytes
  exact (List.append_eq_nil_iff.mp hbytes).1

end Link.Carries

theorem Link.read_nil (hout : link.stdout = []) :
    link.read = if link.process.isGone then some (.disconnected, link) else none := by
  rw [Link.read, hout]
  cases link.process.isGone <;> rfl

/-- The worker has died in the middle of a line: what the runner gets of it is
no end of a case. -/
def Broken (received : Received) (link' : Link) : Prop :=
  (∃ e, received = .error e) ∨ received = .disconnected ∨
    ∃ line, received = .line line ∧ line.isEnd = false ∧ link'.process = .gone ∧ link'.stdout = []

theorem Link.read_of_ended {e : Ending UInt8 IoError}
    (h : readLine link.process.isGone link.stdout = .ended e)
    (hread : link.read = some (received, link')) : Broken received link' := by
  rw [Link.read, h] at hread
  cases e with
  | done rest =>
      cases hread
      exact .inr (.inl rfl)
  | error e =>
      cases hread
      exact .inl ⟨e, rfl⟩
  | panicked =>
      cases hread
      exact .inr (.inl rfl)
  | blocked => cases hread

/-- The runner gets the next line, or the worker has died in it. -/
theorem Link.Carries.read (h : link.Carries (line :: items))
    (hread : link.read = some (received, link')) :
    (∃ rest, received = .line line ∧ link' = { link with stdout := rest } ∧
        link'.Carries items ∧ rest.length < link.stdout.length) ∨
      link.process = .gone ∧ Broken received link' := by
  obtain ⟨unwritten, hbytes, hprocess⟩ := h.bytes
  have hline := h.sound line List.mem_cons_self
  have hitems : ∀ l ∈ items, l.Sound := fun l hl => h.sound l (List.mem_cons_of_mem line hl)
  have hwhole (w : List UInt8) (hw : link.stdout = line.bytes ++ w)
      (hrest : items.flatMap Line.bytes = w ++ unwritten) :
      ∃ rest, received = .line line ∧ link' = { link with stdout := rest } ∧
        link'.Carries items ∧ rest.length < link.stdout.length := by
    have hitem : readLine link.process.isGone (line.bytes ++ w) = _ := readLine_line hline w
    rw [← hw] at hitem
    rw [Link.read, hitem] at hread
    cases hread
    exact ⟨w, rfl, rfl, ⟨hitems, unwritten, hrest.symm, hprocess⟩, readLine_shrinks hitem⟩
  rw [List.flatMap_cons, List.append_eq_append_iff] at hbytes
  -- What has been written ends within the line or behind it.
  rcases hbytes with ⟨v, hv, hrest⟩ | ⟨w, hw, hrest⟩
  · by_cases hnil : v = []
    · rw [hnil, List.append_nil] at hv
      rw [hnil, List.nil_append] at hrest
      exact .inl (hwhole [] (by rw [hv, List.append_nil]) hrest.symm)
    · cases hclosed : link.process.isGone with
      | false =>
          rw [Link.read, hclosed, readLine_cut_open hline hv.symm hnil] at hread
          cases hread
      | true =>
          have hgone := Process.isGone_iff.mp hclosed
          rcases readLine_cut_closed hline hv.symm hnil with ⟨e, he⟩ | ⟨l, hl, hend⟩
          · exact .inr ⟨hgone, Link.read_of_ended (by rw [hclosed]; exact he) hread⟩
          · have hshorter := readLine_shrinks hl
            rw [Link.read, hclosed, hl] at hread
            cases hread
            rcases hend with hend | rfl
            · exact .inr ⟨hgone, .inr (.inr ⟨l, rfl, hend, hgone, rfl⟩)⟩
            · -- nothing but the line end is missing
              exact .inl ⟨[], rfl, rfl, ⟨hitems, _, rfl, .inl hgone⟩, hshorter⟩
  · exact .inl (hwhole w hw hrest)

/-! ### A thread and its worker -/

/-- What the runner makes of the lines to come: the output of the case so far is
`output`, and the result will be this one. -/
inductive Script (name : Text) : List Text → List Line → CaseResult → Prop
  | end_ {output : List Text} (status : Status) (millis : UInt64) (message : Message) :
      Script name output [.control (.end_ status millis message)]
        ⟨name, status, millis, message.text, output⟩
  | output {output : List Text} {items : List Line} {result : CaseResult} (text : Text)
      (h : Script name (output ++ [text]) items result) :
      Script name output (.output text :: items) result
  | start {output : List Text} {items : List Line} {result : CaseResult} (started : Text)
      (h : Script name output items result) :
      Script name output (.control (.start started) :: items) result

def Activity.Quiet : Activity → Prop
  | .idle _ => True
  | .leased _ => True
  | .shuttingDown => True
  | _ => False

/-- The thread has no worker that it would still listen to. -/
def Activity.Apart : Activity → Prop
  | .spawning _ => True
  | .reporting _ (.error _) => True
  | .failed _ => True
  | .stranded _ _ => True
  | .ended => True
  | _ => False

inductive Session : Activity → Link → Multiset CaseResult → Prop
  | apart {t : Activity} {link : Link} (h : t.Apart) : Session t link 0
  | quiet {t : Activity} {link : Link} (h : t.Quiet) (hin : link.stdin = [])
      (hout : link.Carries (link.printed.map .output)) : Session t link 0
  | asked {case : Case} {output texts : List Text} {link : Link} (hname : OneLine case.name)
      (hin : link.stdin = (Request.run case.name).bytes) (hprinted : link.printed = output ++ texts)
      (hout : link.Carries (texts.map .output)) : Session (.running case output) link 0
  | answered {case : Case} {output : List Text} {link : Link} {items : List Line}
      {result : CaseResult} (hin : link.stdin = []) (hprinted : link.printed = [])
      (hscript : Script case.name output items result) (hout : link.Carries items) :
      Session (.running case output) link {result}
  | broken {case : Case} {output : List Text} {link : Link} (hgone : link.process = .gone)
      (hout : link.stdout = []) : Session (.running case output) link 0
  | reported {case : Case} {result : CaseResult} {link : Link} (hin : link.stdin = [])
      (hprinted : link.printed = []) (hout : link.Carries []) :
      Session (.reporting case (.ok result)) link {result}

def Healthy (t : Activity) (link : Link) : Prop :=
  match t with
  | .spawning _ => link.process = .gone
  | .ended => link.process = .gone
  | .reporting _ (.error _) => False
  | .failed _ => False
  | .stranded _ _ => False
  | _ => link.process ≠ .gone

def Lost (debug : Text → Text) (result : CaseResult) : Prop :=
  ∃ name e, result = crashed debug name e

/-- What one motion makes of a thread: the results it adds to the list, and the
one that its worker has reached. -/
structure Settles (debug : Text → Text) (t : Activity) (link : Link) (due : Multiset CaseResult)
    (motion : Motion) (t' : Activity) (link' : Link) (due' added done : Multiset CaseResult) :
    Prop where
  session : Session t' link' due'
  own : ∃ own lost, added = own + lost ∧ own + due' ≤ due + done ∧ ∀ r ∈ lost, Lost debug r
  healthy : Healthy t link → motion.isFault = false →
    Healthy t' link' ∧ added + due' = due + done

/-! ### What a worker does -/

variable {due done : Multiset CaseResult} {motion : Motion}

/-- Nothing is added, and no result is lost. -/
theorem Settles.of_same (session : Session t' link' due)
    (healthy : Healthy t link → motion.isFault = false → Healthy t' link') :
    Settles debug t link due motion t' link' due 0 0 where
  session := session
  own := ⟨0, 0, by simp, by simp, by simp⟩
  healthy hhealthy hfault := ⟨healthy hhealthy hfault, by simp⟩

/-- What is on its way to the list is lost, with a worker that has died. -/
theorem Settles.of_lost (session : Session t' link' 0)
    (hfault : ¬(Healthy t link ∧ motion.isFault = false)) :
    Settles debug t link due motion t' link' 0 0 0 where
  session := session
  own := ⟨0, 0, by simp, Multiset.zero_le _, by simp⟩
  healthy hhealthy hcalm := absurd ⟨hhealthy, hcalm⟩ hfault

theorem Session.of_link (h : Session t link due) (hin : link'.stdin = link.stdin)
    (hprinted : link'.printed = link.printed)
    (hcarries : ∀ items, link.Carries items → link'.Carries items)
    (hbroken : link.process = .gone → link.stdout = [] →
      link'.process = .gone ∧ link'.stdout = []) : Session t link' due := by
  cases h with
  | apart h => exact .apart h
  | quiet h hin' hout => exact .quiet h (hin.trans hin') (hprinted ▸ hcarries _ hout)
  | asked hname hin' hprinted' hout =>
      exact .asked hname (hin.trans hin') (hprinted.trans hprinted') (hcarries _ hout)
  | answered hin' hprinted' hscript hout =>
      exact .answered (hin.trans hin') (hprinted.trans hprinted') hscript (hcarries _ hout)
  | broken hgone hout =>
      obtain ⟨hgone', hout'⟩ := hbroken hgone hout
      exact .broken hgone' hout'
  | reported hin' hprinted' hout =>
      exact .reported (hin.trans hin') (hprinted.trans hprinted') (hcarries _ hout)

theorem Session.killed (h : Session t link due) : Session t link.killed due :=
  h.of_link rfl rfl (fun _ => Link.Carries.killed) fun _ hout => ⟨rfl, hout⟩

theorem Session.emit (h : Session t link due) {left : List UInt8}
    (hleft : link.process = .writing left) (count : ℕ) :
    Session t { link with
      process := .write (left.drop count), stdout := link.stdout ++ left.take count } due := by
  refine h.of_link rfl rfl (fun _ hcarries => hcarries.emit hleft count) fun hgone => ?_
  rw [hleft] at hgone
  cases hgone

theorem Healthy.of_process (h : Healthy t link) (hprocess : link.process ≠ .gone)
    (hprocess' : link'.process ≠ .gone) : Healthy t link' := by
  cases t with
  | spawning lastGroup => exact absurd h hprocess
  | ended => exact absurd h hprocess
  | reporting case result =>
      cases result with
      | ok result => exact hprocess'
      | error e => exact h
  | failed e => exact h
  | stranded cases e => exact h
  | _ => exact hprocess'

theorem readFrom_nil : Request.readFrom false [] = .ended .blocked := rfl

theorem readFrom_run {name : Text} (hname : OneLine name) :
    Request.readFrom false (Request.run name).bytes = .item (.run name) [] := by
  have hrequest : (Request.run name).OneLine := hname
  have hread : Request.readFrom false ((Request.run name).bytes ++ []) = _ :=
    Request.readFrom_bytes hrequest []
  rwa [List.append_nil] at hread

def CaseRun.lines (run : CaseRun) (name : Text) : List Line :=
  .control (.start name) :: (run.printed.map .output ++
    [.control (.end_ run.status run.millis run.message)])

theorem CaseRun.bytes_eq (run : CaseRun) (name : Text) :
    run.bytes name = (run.lines name).flatMap Line.bytes := by
  rw [bytes, runOne, outputBytes, lines, List.flatMap_cons, List.flatMap_append,
    List.flatMap_singleton, List.append_assoc]
  rfl

theorem CaseRun.sound_lines (run : CaseRun) {name : Text} (hname : OneLine name) :
    ∀ line ∈ run.lines name, line.Sound := by
  intro line hline
  rcases List.mem_cons.mp hline with rfl | hline
  · exact hname
  · rcases List.mem_append.mp hline with hline | hline
    · obtain ⟨text, htext, rfl⟩ := List.mem_map.mp hline
      exact run.plain text htext
    · obtain rfl := List.mem_singleton.mp hline
      trivial

theorem Script.outputs {name : Text} {result : CaseResult} (texts : List Text)
    {output : List Text} (h : Script name (output ++ texts) items result) :
    Script name output (texts.map .output ++ items) result := by
  induction texts generalizing output with
  | nil => simpa using h
  | cons text texts ih =>
      refine .output text (ih ?_)
      rwa [List.append_assoc, List.singleton_append]

theorem CaseRun.script (run : CaseRun) (name : Text) (output : List Text) :
    Script name output (run.lines name)
      ⟨name, run.status, run.millis, run.message.text, output ++ run.printed⟩ :=
  .start name (.outputs run.printed (.end_ run.status run.millis run.message))

theorem perform_settles (h : Session t link due) {run : CaseRun} {name : Text}
    {rest : List UInt8} (hwaiting : link.process = .waiting)
    (hasked : Request.readFrom false link.stdin = .item (.run name) rest) :
    ∃ due', Settles debug t link due (.worker (.perform run)) t
      { link with process := .write (run.bytes name), stdin := rest, printed := [] } due' 0
      {⟨name, run.status, run.millis, run.message.text, link.printed ++ run.printed⟩} := by
  -- A worker runs a case only for a request it has read.
  have hidle (hin : link.stdin = []) : False := by
    rw [hin, readFrom_nil] at hasked
    cases hasked
  cases h with
  | apart h =>
      refine ⟨0, .apart h, ⟨0, 0, by simp, by simp, by simp⟩, fun hhealthy _ => ?_⟩
      cases t with
      | spawning lastGroup => exact absurd (hwaiting.symm.trans hhealthy) nofun
      | ended => exact absurd (hwaiting.symm.trans hhealthy) nofun
      | reporting case result =>
          cases result with
          | ok result => exact h.elim
          | error e => exact hhealthy.elim
      | failed e => exact hhealthy.elim
      | stranded cases e => exact hhealthy.elim
      | _ => exact h.elim
  | quiet h hin hout => exact (hidle hin).elim
  | @asked case output texts _ hname hin hprinted hout =>
      have hread := readFrom_run hname
      rw [← hin, hasked] at hread
      cases hread
      have hscript : Script case.name output (texts.map .output ++ run.lines case.name)
          ⟨case.name, run.status, run.millis, run.message.text, link.printed ++ run.printed⟩ := by
        rw [hprinted]
        exact .outputs texts (run.script case.name (output ++ texts))
      refine ⟨_, .answered rfl rfl hscript ?_, ⟨0, 0, by simp, by simp, by simp⟩, fun _ _ => ?_⟩
      · rw [run.bytes_eq]
        exact hout.perform hwaiting (run.sound_lines hname) [] []
      · have halive := Process.write_ne_gone (run.bytes case.name)
        exact ⟨halive, by simp⟩
  | answered hin hprinted hscript hout => exact (hidle hin).elim
  | broken hgone hout => exact absurd (hwaiting.symm.trans hgone) nofun
  | reported hin hprinted hout => exact (hidle hin).elim

theorem work_settles (debug : Text → Text) (h : Session t link due) {deed : Deed}
    {done : List CaseResult} (hwork : link.work deed = some (link', done)) :
    ∃ due', Settles debug t link due (.worker deed) t link' due' 0 done := by
  cases deed with
  | perform run =>
      rw [Link.work] at hwork
      split at hwork
      · next name rest hwaiting hasked =>
          cases hwork
          exact perform_settles h hwaiting hasked
      · cases hwork
  | emit count =>
      rw [Link.work] at hwork
      split at hwork
      · next left hleft =>
          cases hwork
          refine ⟨due, .of_same (h.emit hleft count) fun hhealthy _ => ?_⟩
          exact hhealthy.of_process (by simp [hleft]) (Process.write_ne_gone _)
      · cases hwork
  | die =>
      cases hwork
      exact ⟨due, .of_same h.killed nofun⟩

/-! ### What the runner does -/

theorem broken_settles {case : Case} {output : List Text} (hgone : link.process = .gone)
    (hbroken : Broken received link')
    (hadvance : advance debug seconds shared (.running case output) (.receive received) =
      some (t', shared')) :
    shared'.results = shared.results ∧
      Settles debug (.running case output) link due (.runner .read) t' link' 0 0 0 := by
  have hfault : ¬(Healthy (.running case output) link ∧ (Motion.runner .read).isFault = false) :=
    fun h => h.1 hgone
  rcases hbroken with ⟨e, rfl⟩ | rfl | ⟨line, rfl, hend, hgone', hout⟩
  · cases hadvance
    exact ⟨rfl, .of_lost (.apart trivial) hfault⟩
  · cases hadvance
    exact ⟨rfl, .of_lost (.apart trivial) hfault⟩
  · rcases line with (name | ⟨status, millis, message⟩) | text
    · cases hadvance
      exact ⟨rfl, .of_lost (.broken hgone' hout) hfault⟩
    · cases hend
    · cases hadvance
      exact ⟨rfl, .of_lost (.broken hgone' hout) hfault⟩

theorem read_settles {case : Case} {output : List Text}
    (h : Session (.running case output) link due) (hread : link.read = some (received, link'))
    (hadvance : advance debug seconds shared (.running case output) (.receive received) =
      some (t', shared')) :
    shared'.results = shared.results ∧
      ∃ due', Settles debug (.running case output) link due (.runner .read) t' link' due' 0 0 := by
  -- Where nothing more will come, the runner learns that the worker is gone.
  have hempty (hout : link.stdout = []) : link.process = .gone ∧ Broken received link' := by
    rw [Link.read_nil hout] at hread
    split at hread
    · next hgone =>
        cases hread
        exact ⟨Process.isGone_iff.mp hgone, .inr (.inl rfl)⟩
    · cases hread
  have hlost (hgone : link.process = .gone) (hbroken : Broken received link') :
      shared'.results = shared.results ∧ ∃ due',
        Settles debug (.running case output) link due (.runner .read) t' link' due' 0 0 := by
    obtain ⟨hresults, hsettles⟩ := broken_settles hgone hbroken hadvance
    exact ⟨hresults, 0, hsettles⟩
  -- A line that is received goes on as the script says; a cut one ends the case as broken.
  cases h with
  | apart h => exact h.elim
  | quiet h hin hout => exact h.elim
  | @asked _ _ texts _ hname hin hprinted hout =>
      cases texts with
      | nil =>
          obtain ⟨hgone, hbroken⟩ := hempty hout.stdout_nil
          exact hlost hgone hbroken
      | cons text texts =>
          rcases hout.read hread with ⟨rest, rfl, rfl, hcarries, -⟩ | ⟨hgone, hbroken⟩
          · cases hadvance
            refine ⟨rfl, 0, .of_same (.asked hname hin ?_ hcarries) fun hhealthy _ => hhealthy⟩
            rw [List.append_assoc]
            exact hprinted
          · exact hlost hgone hbroken
  | answered hin hprinted hscript hout =>
      cases hscript with
      | end_ status millis message =>
          rcases hout.read hread with ⟨rest, rfl, rfl, hcarries, -⟩ | ⟨hgone, hbroken⟩
          · cases hadvance
            exact ⟨rfl, _, .of_same (.reported hin hprinted hcarries) fun hhealthy _ => hhealthy⟩
          · exact hlost hgone hbroken
      | output text hscript =>
          rcases hout.read hread with ⟨rest, rfl, rfl, hcarries, -⟩ | ⟨hgone, hbroken⟩
          · cases hadvance
            exact ⟨rfl, _, .of_same (.answered hin hprinted hscript hcarries)
              fun hhealthy _ => hhealthy⟩
          · exact hlost hgone hbroken
      | start started hscript =>
          rcases hout.read hread with ⟨rest, rfl, rfl, hcarries, -⟩ | ⟨hgone, hbroken⟩
          · cases hadvance
            exact ⟨rfl, _, .of_same (.answered hin hprinted hscript hcarries)
              fun hhealthy _ => hhealthy⟩
          · exact hlost hgone hbroken
  | broken hgone hout =>
      obtain ⟨hgone, hbroken⟩ := hempty hout
      exact hlost hgone hbroken

theorem carries_started (setup : Setup) :
    (Link.started setup).Carries ((Link.started setup).printed.map .output) := by
  refine ⟨fun line hline => ?_, _, rfl, .inr (Process.left_write _)⟩
  obtain ⟨text, htext, rfl⟩ := List.mem_map.mp hline
  exact setup.plain text htext

theorem take_cases {lastGroup : Option Text}
    (hadvance : advance debug seconds shared (.idle lastGroup) .take = some (t', shared')) :
    shared'.results = shared.results ∧ ((∃ case, t' = .leased case) ∨ t' = .shuttingDown) := by
  obtain ⟨⟨given, rest⟩, htake, heq⟩ := Option.map_eq_some_iff.mp hadvance
  cases given with
  | some case =>
      cases heq
      exact ⟨rfl, .inl ⟨case, rfl⟩⟩
  | none =>
      cases heq
      exact ⟨rfl, .inr rfl⟩

def Activity.Awaits (t : Activity) : Happening → Prop
  | .spawn _ => ∃ lastGroup, t = .spawning lastGroup
  | .take => ∃ lastGroup, t = .idle lastGroup
  | .write _ => ∃ case, t = .leased case
  | .receive _ => ∃ case output, t = .running case output
  | .report => (∃ case result, t = .reporting case result) ∨ ∃ cases e, t = .stranded cases e
  | .drain => ∃ e, t = .failed e
  | .shutdown => t = .shuttingDown

theorem awaits_of_advance {happening : Happening} {r : Activity × Shared} :
    advance debug seconds shared t happening = some r → t.Awaits happening := by
  fun_cases advance debug seconds shared t happening with
  | case13 =>
      intro h
      cases h
  | case1 lastGroup => exact fun _ => ⟨lastGroup, rfl⟩
  | case2 lastGroup => exact fun _ => ⟨lastGroup, rfl⟩
  | case3 lastGroup => exact fun _ => ⟨lastGroup, rfl⟩
  | case4 case => exact fun _ => ⟨case, rfl⟩
  | case5 case => exact fun _ => ⟨case, rfl⟩
  | case6 case output => exact fun _ => ⟨case, output, rfl⟩
  | case7 case output => exact fun _ => ⟨case, output, rfl⟩
  | case8 case result => exact fun _ => .inl ⟨case, .ok result, rfl⟩
  | case9 case e => exact fun _ => .inl ⟨case, .error e, rfl⟩
  | case10 e => exact fun _ => ⟨e, rfl⟩
  | case11 cases e => exact fun _ => .inr ⟨cases, e, rfl⟩
  | case12 => exact fun _ => rfl

theorem Session.eq_zero_of_apart (h : Session t link due) (ht : t.Apart) : due = 0 := by
  cases h with
  | apart h => rfl
  | quiet h => rfl
  | asked => rfl
  | answered => exact ht.elim
  | broken => rfl
  | reported => exact ht.elim

theorem Session.quiet_of (h : Session t link due) (ht : t.Quiet) :
    due = 0 ∧ link.stdin = [] ∧ link.Carries (link.printed.map .output) := by
  cases h with
  | quiet h hin hout => exact ⟨rfl, hin, hout⟩
  | apart h =>
      cases t with
      | reporting case result => exact ht.elim
      | idle lastGroup => exact h.elim
      | leased case => exact h.elim
      | shuttingDown => exact h.elim
      | _ => exact ht.elim
  | _ => exact ht.elim

/-- What is reported is added to the results. -/
theorem report_settles (h : Session t link due)
    (hadvance : advance debug seconds shared t .report = some (t', shared')) :
    ∃ added due', shared'.results = shared.results ++ added ∧
      Settles debug t link due (.runner .report) t' link due' added 0 := by
  rcases awaits_of_advance hadvance with ⟨case, result, rfl⟩ | ⟨cases, e, rfl⟩
  · cases result with
    | ok result =>
        cases hadvance
        cases h with
        | apart h => exact h.elim
        | quiet h => exact h.elim
        | reported hin hprinted hout =>
            refine ⟨[result], 0, rfl, .quiet trivial hin ?_,
              ⟨{result}, 0, by simp, by simp, by simp⟩,
              fun hhealthy _ => ⟨hhealthy, by simp⟩⟩
            rw [hprinted]
            exact hout
    | error e =>
        obtain rfl := h.eq_zero_of_apart trivial
        cases hadvance
        refine ⟨[crashed debug case.name e], 0, rfl, .apart trivial,
          ⟨0, {crashed debug case.name e}, by simp, by simp, fun r hr => ?_⟩,
          fun hhealthy _ => hhealthy.elim⟩
        exact ⟨case.name, e, Multiset.mem_singleton.mp hr⟩
  · obtain rfl := h.eq_zero_of_apart trivial
    cases hadvance
    refine ⟨cases.map fun case => crashed debug case.name e, 0, rfl, .apart trivial,
      ⟨0, cases.map fun case => crashed debug case.name e, by simp, by simp, fun r hr => ?_⟩,
      fun hhealthy _ => hhealthy.elim⟩
    obtain ⟨case, -, rfl⟩ := List.mem_map.mp (Multiset.mem_coe.mp hr)
    exact ⟨case.name, e, rfl⟩

/-- One move of a thread of the runner. -/
theorem meet_settles (h : Session t link due) (hheld : ∀ name ∈ t.held, OneLine name)
    {move : Move} {happening : Happening} (hmeet : link.meet t move = some (happening, link'))
    (hadvance : advance debug seconds shared t happening = some (t', shared')) :
    ∃ added due', shared'.results = shared.results ++ added ∧
      Settles debug t link due (.runner move) t' link' due' added 0 := by
  have hnothing : shared.results = shared.results ++ [] := (List.append_nil _).symm
  cases move with
  | spawn outcome =>
      cases outcome with
      | ok setup =>
          cases hmeet
          -- A thread with a new worker starts a session: nothing is owed to it yet.
          obtain ⟨lastGroup, rfl⟩ := awaits_of_advance hadvance
          obtain rfl := h.eq_zero_of_apart trivial
          cases hadvance
          refine ⟨[], 0, hnothing, .of_same ?_ fun _ _ => ?_⟩
          · exact .quiet trivial rfl (carries_started setup)
          · exact Process.write_ne_gone (outputBytes setup.printed)
      | error e =>
          cases hmeet
          obtain ⟨lastGroup, rfl⟩ := awaits_of_advance hadvance
          obtain rfl := h.eq_zero_of_apart trivial
          cases hadvance
          exact ⟨[], 0, hnothing, .of_same (.apart trivial) nofun⟩
  | take =>
      cases hmeet
      obtain ⟨lastGroup, rfl⟩ := awaits_of_advance hadvance
      obtain ⟨rfl, hin, hout⟩ := h.quiet_of trivial
      obtain ⟨hresults, ⟨case, rfl⟩ | rfl⟩ := take_cases hadvance
      · exact ⟨[], 0, hresults ▸ hnothing, .of_same (.quiet trivial hin hout)
          fun hhealthy _ => hhealthy⟩
      · exact ⟨[], 0, hresults ▸ hnothing, .of_same (.quiet trivial hin hout)
          fun hhealthy _ => hhealthy⟩
  | write outcome =>
      cases outcome with
      | ok u =>
          cases t with
          | leased case =>
              cases hmeet
              cases hadvance
              obtain ⟨rfl, hin, hout⟩ := h.quiet_of trivial
              refine ⟨[], 0, hnothing, .of_same ?_ fun hhealthy _ => hhealthy⟩
              refine .asked (hheld _ (Multiset.mem_singleton_self _)) ?_ rfl
                ⟨hout.sound, hout.bytes⟩
              rw [hin, List.nil_append]
          | _ => cases hmeet
      | error e =>
          cases hmeet
          obtain ⟨case, rfl⟩ := awaits_of_advance hadvance
          obtain ⟨rfl, -, -⟩ := h.quiet_of trivial
          cases hadvance
          exact ⟨[], 0, hnothing, .of_same (.apart trivial) nofun⟩
  | read =>
      obtain ⟨⟨received, link''⟩, hread, heq⟩ := Option.map_eq_some_iff.mp hmeet
      cases heq
      obtain ⟨case, output, rfl⟩ := awaits_of_advance hadvance
      obtain ⟨hresults, due', hsettles⟩ := read_settles h hread hadvance
      exact ⟨[], due', hresults ▸ hnothing, hsettles⟩
  | giveUp =>
      cases hmeet
      obtain ⟨case, output, rfl⟩ := awaits_of_advance hadvance
      -- The case may still be running; its verdict is lost with the worker.
      cases hadvance
      exact ⟨[], 0, hnothing, .of_lost (.apart trivial) nofun⟩
  | report =>
      cases hmeet
      exact report_settles h hadvance
  | drain =>
      cases hmeet
      obtain ⟨e, rfl⟩ := awaits_of_advance hadvance
      obtain rfl := h.eq_zero_of_apart trivial
      cases hadvance
      exact ⟨[], 0, hnothing, .of_same (.apart trivial) fun hhealthy _ => hhealthy⟩
  | shutdown =>
      cases hmeet
      obtain rfl := awaits_of_advance hadvance
      obtain ⟨rfl, -, -⟩ := h.quiet_of trivial
      cases hadvance
      exact ⟨[], 0, hnothing, .of_same (.apart trivial) fun _ _ => rfl⟩

end Idakit.Runner
