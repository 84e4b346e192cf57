import Idakit.Runner.SessionSteps

/-!
What comes out of a run with its workers. However their bytes are cut up, and
whatever dies in between, a result is the one that a worker reached for that
case, with all that it printed, or says that the case was lost. Where nothing
goes wrong none is lost, and the run can be finished.
-/

namespace Idakit.Runner

open Idakit.Library
open Idakit.Types

variable {debug : Text → Text} {seconds : ℕ} {shared shared' : Shared} {t t' : Activity}
  {link link' : Link} {items : List Line} {line : Line} {due : Multiset CaseResult}

/-! ### Whole runs -/

variable {cases : List Case} {p p' : Plant} {i : ℕ}
  {tagged : List ((Activity × Link) × Multiset CaseResult)}

structure Plant.Tagged (p : Plant) (tagged : List ((Activity × Link) × Multiset CaseResult)) :
    Prop where
  threads : tagged.map Prod.fst = p.threads
  sessions : ∀ s ∈ tagged, Session s.1.1 s.1.2 s.2

structure Step (debug : Text → Text) (cases : List Case) (p p' : Plant) (motion : Motion)
    (tagged : List ((Activity × Link) × Multiset CaseResult)) (i : ℕ)
    (s s' : (Activity × Link) × Multiset CaseResult) (added done : List CaseResult) : Prop where
  here : tagged[i]? = some s
  tagged : p'.Tagged (tagged.set i s')
  settles : Settles debug s.1.1 s.1.2 s.2 motion s'.1.1 s'.1.2 s'.2 added done
  results : p'.shared.results = p.shared.results ++ added
  performed : p'.performed = p.performed ++ done
  accounts : Accounts cases p'.pool

theorem Accounts.oneLine_held {q : Pool} (h : Accounts cases q)
    (hnames : ∀ case ∈ cases, OneLine case.name) (ht : q.threads[i]? = some t) :
    ∀ name ∈ t.held, OneLine name := by
  intro name hname
  have hsum : t.held ≤ (q.threads.map Activity.held).sum := by
    have hset := sum_map_set Activity.held .ended ht
    rw [← add_zero (q.threads.map Activity.held).sum]
    exact hset ▸ Multiset.le_add_left _ _
  have hle : t.held ≤ (cases.map Case.name : List Text) := by
    rw [← h.names]
    exact hsum.trans ((Multiset.le_add_left _ _).trans (Multiset.le_add_right _ _))
  obtain ⟨case, hcase, rfl⟩ := List.mem_map.mp (Multiset.mem_coe.mp (Multiset.mem_of_le hle hname))
  exact hnames case hcase

theorem step_settles (hnames : ∀ case ∈ cases, OneLine case.name)
    (haccounts : Accounts cases p.pool) (htagged : p.Tagged tagged) {motion : Motion}
    (hstep : p.step debug seconds (i, motion) = some p') :
    ∃ s s' added done, Step debug cases p p' motion tagged i s s' added done := by
  obtain ⟨⟨t, link⟩, hthread, hstep⟩ := Option.bind_eq_some_iff.mp hstep
  obtain ⟨⟨⟨t', link'⟩, shared', done⟩, hmove, rfl⟩ := Option.map_eq_some_iff.mp hstep
  have hpool : p.pool.threads[i]? = some t := by
    show (p.threads.map Prod.fst)[i]? = _
    rw [List.getElem?_map, hthread]
    rfl
  obtain ⟨⟨_, due⟩, hhere, heq⟩ : ∃ s, tagged[i]? = some s ∧ s.1 = (t, link) := by
    rw [← htagged.threads, List.getElem?_map] at hthread
    exact Option.map_eq_some_iff.mp hthread
  cases heq
  have hsession := htagged.sessions _ (List.mem_of_getElem? hhere)
  -- Only the thread that moves gets another tag.
  have htagged' {due' : Multiset CaseResult} (h : Session t' link' due') :
      Plant.Tagged ⟨p.threads.set i (t', link'), shared', p.performed ++ done⟩
        (tagged.set i ((t', link'), due')) := by
    refine ⟨?_, fun s hs => ?_⟩
    · rw [List.map_set, htagged.threads]
    · rcases mem_set_cases hs with rfl | hs
      · exact h
      · exact htagged.sessions s hs
  cases motion with
  | runner move =>
      obtain ⟨⟨happening, link''⟩, hmeet, hmove⟩ := Option.bind_eq_some_iff.mp hmove
      obtain ⟨⟨t'', shared''⟩, hadvance, heq⟩ := Option.map_eq_some_iff.mp hmove
      obtain ⟨rfl, rfl, rfl, rfl⟩ : t'' = t' ∧ link'' = link' ∧ shared'' = shared' ∧ [] = done := by
        simpa [and_assoc] using heq
      obtain ⟨added, due', hresults, hsettles⟩ :=
        meet_settles hsession (haccounts.oneLine_held hnames hpool) hmeet hadvance
      refine ⟨_, _, added, [], hhere, htagged' hsettles.session, hsettles, hresults, rfl, ?_⟩
      have hstep : p.pool.step debug seconds (i, happening) =
          some ⟨p.pool.threads.set i t'', shared''⟩ := by
        show (p.pool.threads[i]?).bind _ = _
        rw [hpool, Option.bind_some]
        show Option.map _ (advance debug seconds p.shared t happening) = _
        rw [hadvance]
        rfl
      show Accounts cases ⟨(p.threads.set i (t'', link'')).map Prod.fst, shared''⟩
      rw [List.map_set]
      exact accounts_step haccounts hstep
  | worker deed =>
      obtain ⟨⟨link'', done'⟩, hwork, heq⟩ := Option.map_eq_some_iff.mp hmove
      obtain ⟨rfl, rfl, rfl, rfl⟩ :
          t = t' ∧ link'' = link' ∧ p.shared = shared' ∧ done' = done := by
        simpa [and_assoc] using heq
      -- A worker moves behind its runner's back: the pool is as it was.
      obtain ⟨due', hsettles⟩ := work_settles debug hsession hwork
      refine ⟨_, _, [], done', hhere, htagged' hsettles.session, hsettles,
        (List.append_nil _).symm, rfl, ?_⟩
      obtain ⟨hlt, hget⟩ := List.getElem?_eq_some_iff.mp hpool
      rw [Plant.pool, List.map_set, ← hget]
      show Accounts cases ⟨p.pool.threads.set i p.pool.threads[i], p.pool.shared⟩
      rw [List.set_getElem_self]
      exact haccounts

/-- Where the results come from: a worker that reached them, each once, or a
worker that was lost. -/
structure Plant.Sound (debug : Text → Text) (cases : List Case) (p : Plant) : Prop where
  accounts : Accounts cases p.pool
  results : ∃ tagged own lost, p.Tagged tagged ∧
    (p.shared.results : Multiset CaseResult) = own + lost ∧
    own + (tagged.map Prod.snd).sum ≤ p.performed ∧ ∀ r ∈ lost, Lost debug r

/-- Nothing has gone wrong: every result that a worker has reached is in the list
or on its way there. -/
structure Plant.Calm (cases : List Case) (p : Plant) : Prop where
  accounts : Accounts cases p.pool
  results : ∃ tagged, p.Tagged tagged ∧ (∀ s ∈ tagged, Healthy s.1.1 s.1.2) ∧
    (p.shared.results : Multiset CaseResult) + (tagged.map Prod.snd).sum = p.performed

theorem step_of_calmStep {a : ℕ × Motion} (hstep : p.calmStep debug seconds a = some p') :
    a.2.isFault = false ∧ p.step debug seconds a = some p' := by
  rw [Plant.calmStep] at hstep
  split at hstep
  · cases hstep
  · next hfault => exact ⟨by simpa using hfault, hstep⟩

theorem calm_step (hnames : ∀ case ∈ cases, OneLine case.name) (h : p.Calm cases)
    {a : ℕ × Motion} (hstep : p.calmStep debug seconds a = some p') : p'.Calm cases := by
  obtain ⟨hfault, hstep⟩ := step_of_calmStep hstep
  obtain ⟨tagged, htagged, hhealthy, hresults⟩ := h.results
  obtain ⟨s, s', added, done, hstep⟩ := step_settles hnames h.accounts htagged hstep
  obtain ⟨hhealthy', hadded⟩ :=
    hstep.settles.healthy (hhealthy s (List.mem_of_getElem? hstep.here)) hfault
  refine ⟨hstep.accounts, _, hstep.tagged, fun u hu => ?_, ?_⟩
  · rcases mem_set_cases hu with rfl | hu
    · exact hhealthy'
    · exact hhealthy u hu
  · have hsum := sum_map_set Prod.snd s' hstep.here
    rw [hstep.results, hstep.performed, ← Multiset.coe_add, ← Multiset.coe_add, ← hresults]
    apply add_right_cancel (b := s.2)
    calc p.shared.results + added + ((tagged.set a.1 s').map Prod.snd).sum + s.2
      _ = p.shared.results + added + (((tagged.set a.1 s').map Prod.snd).sum + s.2) := by abel
      _ = p.shared.results + (tagged.map Prod.snd).sum + (added + s'.2) := by
          rw [hsum]
          abel
      _ = p.shared.results + (tagged.map Prod.snd).sum + done + s.2 := by
          rw [hadded]
          abel

def Process.unwritten : Process → ℕ
  | .writing left => 2 * left.length + 1
  | _ => 0

/-- What is still to be written and read. A byte of a request makes less than
ten of an answer. -/
def Link.left (link : Link) : ℕ :=
  10 * link.stdin.length + link.stdout.length + link.process.unwritten

theorem Process.unwritten_write (left : List UInt8) :
    (Process.write left).unwritten ≤ 2 * left.length + 1 := by
  cases left <;> simp [Process.write, Process.unwritten]

def CaseRun.silent : CaseRun := ⟨[], .passed, 0, ⟨[], by decide⟩, nofun⟩

theorem length_silent (name : Text) :
    2 * (CaseRun.silent.bytes name).length + 1 < 10 * (Request.run name).bytes.length := by
  have hend : (Event.end_ .passed 0 ⟨[], by decide⟩).bytes.length = 12 := by decide
  have hstart : (controlPrefix.asBytes ++ Text.asBytes "START ".toList).length = 7 := by decide
  have hword : (Text.asBytes "RUN ".toList).length = 4 := by decide
  have hanswer : (CaseRun.silent.bytes name).length = name.asBytes.length + 20 := by
    show ((Event.start name).bytes ++ [] ++ (Event.end_ .passed 0 ⟨[], by decide⟩).bytes).length = _
    rw [List.append_nil, List.length_append, hend, Event.bytes]
    simp only [asBytes_append, asBytes_newline, List.length_append, List.length_singleton] at *
    omega
  have hrequest : (Request.run name).bytes.length = name.asBytes.length + 5 := by
    rw [Request.bytes]
    simp only [asBytes_append, asBytes_newline, List.length_append, List.length_singleton]
    omega
  omega

/-- A motion in which nothing goes wrong, and which leaves less to do. -/
def CanGo (debug : Text → Text) (seconds : ℕ) (shared : Shared) (t : Activity) (link : Link) :
    Prop :=
  ∃ motion t' link' shared' done,
    moveThread debug seconds shared t link motion = some ((t', link'), shared', done) ∧
      motion.isFault = false ∧
      (t'.weight + 5 * shared'.scheduler.pending.length <
          t.weight + 5 * shared.scheduler.pending.length ∨
        t'.weight + 5 * shared'.scheduler.pending.length ≤
          t.weight + 5 * shared.scheduler.pending.length ∧ link'.left < link.left)

theorem CanGo.of_advance (hnamed : t.Named) (move : Move) {happening : Happening}
    (hmeet : link.meet t move = some (happening, link'))
    (hadvance : (advance debug seconds shared t happening).isSome)
    (hcalm : (Motion.runner move).isFault = false) (hline : happening.isLine = false) :
    CanGo debug seconds shared t link := by
  obtain ⟨⟨t', shared'⟩, hadvance⟩ := Option.isSome_iff_exists.mp hadvance
  have hweight := (advance_keeps hnamed hadvance).weight
  simp only [hline, Bool.false_eq_true, if_false] at hweight
  refine ⟨.runner move, t', link', shared', [], ?_, hcalm, .inl (by omega)⟩
  rw [moveThread, hmeet, Option.bind_some, hadvance]
  rfl

/-- A worker that waits has written all of its lines. -/
theorem Link.Carries.read_of_waiting (h : link.Carries (line :: items))
    (hwaiting : link.process = .waiting) :
    ∃ rest, link.read = some (.line line, { link with stdout := rest }) ∧
      rest.length < link.stdout.length := by
  obtain ⟨unwritten, hbytes, hprocess⟩ := h.bytes
  rw [hwaiting] at hprocess
  rcases hprocess with hgone | rfl
  · cases hgone
  · have hitem : readLine link.process.isGone (line.bytes ++ items.flatMap Line.bytes) = _ :=
      readLine_line (h.sound line List.mem_cons_self) _
    have hstdout : link.stdout = line.bytes ++ items.flatMap Line.bytes := by
      rw [← List.flatMap_cons, ← hbytes]
      exact (List.append_nil _).symm
    rw [← hstdout] at hitem
    refine ⟨_, ?_, readLine_shrinks hitem⟩
    rw [Link.read, hitem]

theorem canGo_of_read {case : Case} {output : List Text} (h : link.Carries (line :: items))
    (hwaiting : link.process = .waiting) :
    CanGo debug seconds shared (.running case output) link := by
  obtain ⟨rest, hread, hshorter⟩ := h.read_of_waiting hwaiting
  have hless : 10 * link.stdin.length + rest.length + link.process.unwritten < link.left := by
    rw [Link.left]
    omega
  have hmeet : link.meet (.running case output) .read =
      some (.receive (.line line), { link with stdout := rest }) := by
    rw [Link.meet, hread]
    rfl
  rcases hturn : receive case.name seconds output (.line line) with output' | result
  · refine ⟨.runner .read, .running case output', { link with stdout := rest }, shared, [], ?_,
      rfl, .inr ⟨Nat.le_refl _, hless⟩⟩
    rw [moveThread, hmeet, Option.bind_some, advance, hturn]
    rfl
  · refine ⟨.runner .read, .reporting case result, { link with stdout := rest }, shared, [], ?_,
      rfl, .inl (Nat.add_lt_add_right (Nat.lt_succ_self _) _)⟩
    rw [moveThread, hmeet, Option.bind_some, advance, hturn]
    rfl

theorem canGo_running {case : Case} {output : List Text}
    (h : Session (.running case output) link due) (halive : link.process ≠ .gone) :
    CanGo debug seconds shared (.running case output) link := by
  cases hprocess : link.process with
  | gone => exact absurd hprocess halive
  | writing left =>
      refine ⟨.worker (.emit left.length), _, { link with
        process := .waiting, stdout := link.stdout ++ left }, shared, [], ?_, rfl,
        .inr ⟨Nat.le_refl _, ?_⟩⟩
      · rw [moveThread, Link.work, hprocess]
        simp [Process.write]
      · rw [Link.left, Link.left, hprocess]
        simp only [Process.unwritten, List.length_append]
        omega
  | waiting =>
      cases h with
      | apart h => exact h.elim
      | quiet h => exact h.elim
      | broken hgone hout => exact absurd hgone halive
      -- A worker that was asked can always run a case that prints nothing.
      | asked hname hin hprinted hout =>
          have hread := readFrom_run hname
          rw [← hin] at hread
          refine ⟨.worker (.perform .silent), .running case output, { link with
            process := .write (CaseRun.silent.bytes case.name), stdin := [], printed := [] },
            shared, [⟨case.name, .passed, 0, [], link.printed ++ []⟩], ?_, rfl,
            .inr ⟨Nat.le_refl _, ?_⟩⟩
          · rw [moveThread, Link.work, hprocess, hread]
            rfl
          · have hshort := length_silent case.name
            have hunwritten := Process.unwritten_write (CaseRun.silent.bytes case.name)
            have hwaiting : link.left = 10 * (Request.run case.name).bytes.length +
                link.stdout.length + 0 := by
              rw [Link.left, hprocess, hin]
              rfl
            rw [hwaiting]
            show 10 * 0 + link.stdout.length +
              (Process.write (CaseRun.silent.bytes case.name)).unwritten < _
            omega
      | answered hin hprinted hscript hout =>
          cases hscript with
          | end_ => exact canGo_of_read hout hprocess
          | output => exact canGo_of_read hout hprocess
          | start => exact canGo_of_read hout hprocess

theorem canGo (h : Session t link due) (hhealthy : Healthy t link) (hnamed : t.Named)
    (hne : t ≠ .ended) : CanGo debug seconds shared t link := by
  cases t with
  | spawning lastGroup => exact .of_advance hnamed (.spawn (.ok ⟨[], nofun⟩)) rfl rfl rfl rfl
  | idle lastGroup =>
      obtain ⟨given, rest, htake, -⟩ := shared.scheduler.take_gives lastGroup
      refine .of_advance hnamed .take rfl ?_ rfl rfl
      rw [advance, htake]
      rfl
  | leased case => exact .of_advance hnamed (.write (.ok ())) rfl rfl rfl rfl
  | running case output => exact canGo_running h hhealthy
  | reporting case result =>
      cases result with
      | ok result => exact .of_advance hnamed .report rfl rfl rfl rfl
      | error e => exact hhealthy.elim
  | failed e => exact hhealthy.elim
  | stranded cases e => exact hhealthy.elim
  | shuttingDown => exact .of_advance hnamed .shutdown rfl rfl rfl rfl
  | ended => exact absurd rfl hne

def Plant.left (p : Plant) : ℕ := (p.threads.map fun t => t.2.left).sum

theorem weight_pool (p : Plant) : p.pool.weight =
    (p.threads.map fun t => t.1.weight).sum + 5 * p.shared.scheduler.pending.length := by
  rw [Pool.weight, Plant.pool, List.map_map]
  rfl

/-- A calm run that is not over has a step in which nothing goes wrong. -/
theorem Plant.Calm.exists_step (hnames : ∀ case ∈ cases, OneLine case.name) (h : p.Calm cases)
    (hover : ¬p.pool.Over) :
    ∃ a p', p.calmStep debug seconds a = some p' ∧ p'.Calm cases ∧
      (p'.pool.weight < p.pool.weight ∨ p'.pool.weight ≤ p.pool.weight ∧ p'.left < p.left) := by
  obtain ⟨tagged, htagged, hhealthy, -⟩ := h.results
  obtain ⟨t, ht, hne⟩ : ∃ t ∈ p.pool.threads, t ≠ .ended := by
    simpa [Pool.Over] using hover
  obtain ⟨⟨t, link⟩, hthread, rfl⟩ := List.mem_map.mp ht
  obtain ⟨⟨u, due⟩, hmem, hu⟩ : ∃ s ∈ tagged, s.1 = (t, link) := by
    rw [← htagged.threads] at hthread
    exact List.mem_map.mp hthread
  obtain rfl : u = (t, link) := hu
  obtain ⟨i, hi⟩ := List.getElem?_of_mem hthread
  have hcan : CanGo debug seconds p.shared t link :=
    canGo (htagged.sessions _ hmem) (hhealthy _ hmem) (h.accounts.named _ ht) hne
  obtain ⟨motion, t', link', shared', done, hmove, hcalm, hless⟩ := hcan
  have hstep : p.calmStep debug seconds (i, motion) =
      some ⟨p.threads.set i (t', link'), shared', p.performed ++ done⟩ := by
    rw [Plant.calmStep, if_neg (by simp [hcalm]), Plant.step, hi, Option.bind_some, hmove]
    rfl
  refine ⟨_, _, hstep, calm_step hnames h hstep, ?_⟩
  have hweight := sum_map_set (fun t => t.1.weight) (t', link') hi
  have hleft := sum_map_set (fun t => t.2.left) (t', link') hi
  rw [weight_pool, weight_pool, Plant.left, Plant.left]
  simp only at hweight hleft hless ⊢
  omega

end Idakit.Runner
