import Mathlib.Algebra.Order.Group.Multiset
import Mathlib.Tactic.Abel
import Idakit.Library.Transition
import Idakit.Runner.Scheduler
import Idakit.Runner.Worker

/-!
A run: some threads, each with one worker process at a time, take cases from
the shared scheduler and put their results into one list. A worker can fail to
start, a request to reach it, and a case can end in any way; a thread whose
worker does not start drains the scheduler.

Every step between two accesses to shared state is one action of one thread,
in any order. That threads of the runner itself can be created and that the
deadlines are representable instants is taken for granted.

A name is where its case is: with the results, in the hands of one thread, or
pending. No step loses or adds one.
-/

namespace Idakit.Runner

open Idakit.Library
open Idakit.Types

set_option linter.dupNamespace false

structure Runner where
  workers : ℕ
  timeout : ℕ
  workers_pos : 0 < workers

/-- Set how many workers run. Zero is treated as one. -/
def Runner.withWorkers (r : Runner) (workers : ℕ) : Runner where
  workers := if workers = 0 then 1 else workers
  timeout := r.timeout
  workers_pos := by
    split
    · exact Nat.one_pos
    · next h => exact Nat.pos_of_ne_zero h

inductive Activity
  /-- Before it starts a worker, the first one or a replacement. -/
  | spawning (lastGroup : Option Text)
  /-- Before it takes a case. -/
  | idle (lastGroup : Option Text)
  /-- Before the request is written. -/
  | leased (case : Case)
  /-- Waiting for the end of a case. -/
  | running (case : Case) (output : List Text)
  /-- Before the result is put into the list. -/
  | reporting (case : Case) (result : Except IoError CaseResult)
  /-- Before the scheduler is drained. -/
  | failed (e : IoError)
  /-- Before the drained cases are reported. -/
  | stranded (cases : List Case) (e : IoError)
  /-- Before the worker is shut down. -/
  | shuttingDown
  | ended

inductive Happening
  | spawn (outcome : Except IoError Unit)
  | take
  | write (outcome : Except IoError Unit)
  | receive (received : Received)
  | report
  | drain
  | shutdown

structure Shared where
  scheduler : Scheduler
  results : List CaseResult

def crashed (debug : Text → Text) (name : Text) (e : IoError) : CaseResult :=
  ⟨name, .failed, 0, e.toText debug, []⟩

variable (debug : Text → Text)

/-- One action of a thread. There is none that does not come next, and none
that would panic. -/
def advance (seconds : ℕ) (shared : Shared) : Activity → Happening → Option (Activity × Shared)
  | .spawning lastGroup, .spawn (.ok _) => some (.idle lastGroup, shared)
  | .spawning _, .spawn (.error e) => some (.failed e, shared)
  | .idle lastGroup, .take =>
      (shared.scheduler.take lastGroup).map fun p =>
        match p.1 with
        | some case => (.leased case, { shared with scheduler := p.2 })
        | none => (.shuttingDown, { shared with scheduler := p.2 })
  | .leased case, .write (.ok _) => some (.running case [], shared)
  | .leased case, .write (.error e) => some (.reporting case (.error e), shared)
  | .running case output, .receive received =>
      match Runner.receive case.name seconds output received with
      | .again output => some (.running case output, shared)
      | .over result => some (.reporting case result, shared)
  | .reporting case (.ok result), .report =>
      some (.idle case.group, { shared with results := shared.results ++ [result] })
  | .reporting case (.error e), .report =>
      -- the replacement inherits the group claim
      some (.spawning case.group,
        { shared with results := shared.results ++ [crashed debug case.name e] })
  | .failed e, .drain =>
      some (.stranded shared.scheduler.drain.1 e,
        { shared with scheduler := shared.scheduler.drain.2 })
  | .stranded cases e, .report =>
      some (.ended, { shared with
        results := shared.results ++ cases.map fun case => crashed debug case.name e })
  | .shuttingDown, .shutdown => some (.ended, shared)
  | _, _ => none

structure Pool where
  threads : List Activity
  shared : Shared

def Pool.step (seconds : ℕ) (p : Pool) (a : ℕ × Happening) : Option Pool :=
  (p.threads[a.1]?).bind fun t =>
    (advance debug seconds p.shared t a.2).map fun r => ⟨p.threads.set a.1 r.1, r.2⟩

/-- A run at its start, with no more threads than cases. -/
def Runner.start (r : Runner) (cases : List Case) : Pool :=
  ⟨List.replicate (min r.workers cases.length) (.spawning none), ⟨⟨cases, .empty⟩, []⟩⟩

def Pool.Over (p : Pool) : Prop := ∀ t ∈ p.threads, t = .ended

/-- What `run` returns, in some order of the actions of its threads. -/
def Runner.Returns (r : Runner) (cases : List Case) (results : List CaseResult) : Prop :=
  cases = [] ∧ results = [] ∨
    cases ≠ [] ∧ ∃ p, Reaches (Pool.step debug r.timeout) (r.start cases) p ∧
      p.Over ∧ p.shared.results = results

/-! ### Where the cases are -/

def Activity.held : Activity → Multiset Text
  | .leased case => {case.name}
  | .running case _ => {case.name}
  | .reporting case _ => {case.name}
  | .stranded cases _ => cases.map Case.name
  | _ => 0

def Activity.FoundNone : Activity → Prop
  | .stranded _ _ => True
  | .shuttingDown => True
  | .ended => True
  | _ => False

def Shared.reported (shared : Shared) : Multiset Text := shared.results.map CaseResult.name

def Shared.pending (shared : Shared) : Multiset Text :=
  shared.scheduler.pending.map Case.name

/-- A thread with a case to report, reports it under its own name. -/
def Activity.Named : Activity → Prop
  | .reporting case (.ok result) => result.name = case.name
  | _ => True

def Activity.weight : Activity → ℕ
  | .leased _ => 6
  | .running _ _ => 5
  | .reporting _ _ => 4
  | .spawning _ => 3
  | .idle _ => 2
  | .failed _ => 2
  | .stranded _ _ => 1
  | .shuttingDown => 1
  | .ended => 0

/-- Lines of output come as long as the worker writes them. -/
def Happening.isLine : Happening → Bool
  | .receive (.line _) => true
  | _ => false

structure Keeps (shared : Shared) (t : Activity) (happening : Happening) (shared' : Shared)
    (t' : Activity) : Prop where
  names : shared'.reported + t'.held + shared'.pending = shared.reported + t.held + shared.pending
  named : t'.Named
  nothing : shared.scheduler.pending = [] → shared'.scheduler.pending = []
  found : t'.FoundNone → t.FoundNone ∨ shared'.scheduler.pending = []
  weight : t'.weight + 5 * shared'.scheduler.pending.length + (if happening.isLine then 0 else 1) ≤
    t.weight + 5 * shared.scheduler.pending.length

variable {debug} {seconds : ℕ} {shared shared' : Shared} {t t' : Activity} {happening : Happening}

theorem Keeps.of_scheduler (h : shared'.scheduler = shared.scheduler)
    (names : shared'.reported + t'.held = shared.reported + t.held) (named : t'.Named)
    (found : t'.FoundNone → t.FoundNone)
    (weight : t'.weight + (if happening.isLine then 0 else 1) ≤ t.weight) :
    Keeps shared t happening shared' t' where
  names := by rw [names, Shared.pending, Shared.pending, h]
  named := named
  nothing hnone := by rw [h, hnone]
  found hfound := .inl (found hfound)
  weight := by
    rw [h]
    omega

theorem receive_over_name {name : Text} {output : List Text} {received : Received}
    {result : CaseResult} (h : receive name seconds output received = .over (.ok result)) :
    result.name = name := by
  rcases received with (⟨_ | _⟩ | text) | e | _ | _
  · cases h
  · cases h
    rfl
  all_goals cases h

theorem receive_again_isLine {name : Text} {output output' : List Text} {received : Received}
    (h : receive name seconds output received = .again output') :
    (Happening.receive received).isLine = true := by
  cases received with
  | line line => rfl
  | _ => cases h

theorem reported_append (shared : Shared) (results : List CaseResult) :
    { shared with results := shared.results ++ results }.reported =
      shared.reported + (results.map CaseResult.name : List Text) := by
  show ((shared.results ++ results).map CaseResult.name : Multiset Text) = _
  rw [List.map_append, ← Multiset.coe_add]
  rfl

/-- A thread takes a pending case. -/
theorem keeps_of_perm {lastGroup : Option Text} {case : Case} {rest : Scheduler}
    (hperm : shared.scheduler.pending.Perm (case :: rest.pending)) :
    Keeps shared (.idle lastGroup) .take { shared with scheduler := rest } (.leased case) := by
  have hlength := hperm.length_eq
  refine ⟨?_, trivial, ?_, nofun, ?_⟩
  · have hnames : shared.pending = {case.name} + (rest.pending.map Case.name : List Text) :=
      Multiset.coe_eq_coe.mpr (hperm.map Case.name)
    show shared.reported + {case.name} + (rest.pending.map Case.name : List Text) =
      shared.reported + 0 + shared.pending
    rw [hnames, add_zero, add_assoc]
  · intro hnone
    rw [hnone] at hlength
    cases hlength
  · rw [hlength, List.length_cons]
    show 6 + 5 * rest.pending.length + 1 ≤ 2 + 5 * (rest.pending.length + 1)
    omega

/-- A thread finds nothing pending. -/
theorem keeps_of_none {lastGroup : Option Text} {rest : Scheduler}
    (hnone : shared.scheduler.pending = []) (hrest : rest.pending = []) :
    Keeps shared (.idle lastGroup) .take { shared with scheduler := rest } .shuttingDown := by
  refine ⟨?_, trivial, fun _ => hrest, fun _ => .inr hrest, ?_⟩
  · show shared.reported + 0 + (rest.pending.map Case.name : List Text) =
      shared.reported + 0 + shared.pending
    rw [Shared.pending, hrest, hnone]
  · show 1 + 5 * rest.pending.length + 1 ≤ 2 + 5 * shared.scheduler.pending.length
    rw [hrest, hnone]
    show 1 + 5 * 0 + 1 ≤ 2 + 5 * 0
    omega

theorem advance_keeps (hnamed : t.Named) :
    advance debug seconds shared t happening = some (t', shared') →
      Keeps shared t happening shared' t' := by
  fun_cases advance debug seconds shared t happening with
  -- The scheduler is asked for a case.
  | case3 lastGroup =>
      intro h
      obtain ⟨given, rest, htake, hgives⟩ := shared.scheduler.take_gives lastGroup
      rw [htake] at h
      cases given with
      | some case =>
          cases h
          exact keeps_of_perm hgives
      | none =>
          cases h
          exact keeps_of_none hgives.1 hgives.2
  -- The worker's output goes on, or has come to the end of the case.
  | case6 case output received output' hturn =>
      intro h
      cases h
      refine .of_scheduler rfl rfl trivial id ?_
      rw [receive_again_isLine hturn]
      exact Nat.le_refl _
  | case7 case output received result hturn =>
      intro h
      cases h
      refine .of_scheduler rfl rfl ?_ nofun ?_
      · cases result with
        | ok result => exact receive_over_name hturn
        | error e => trivial
      · show 4 + (if _ then 0 else 1) ≤ 5
        split <;> omega
  -- A case is reported under its own name, or one for each that nobody ran.
  | case8 case result =>
      intro h
      cases h
      refine .of_scheduler rfl ?_ trivial nofun (by simp [Activity.weight, Happening.isLine])
      rw [reported_append]
      show shared.reported + {result.name} + 0 = shared.reported + {case.name}
      rw [show result.name = case.name from hnamed, add_zero]
  | case9 case e =>
      intro h
      cases h
      refine .of_scheduler rfl ?_ trivial nofun (by simp [Activity.weight, Happening.isLine])
      rw [reported_append]
      show shared.reported + {case.name} + 0 = shared.reported + {case.name}
      rw [add_zero]
  | case10 e =>
      intro h
      cases h
      refine ⟨?_, trivial, fun _ => rfl, fun _ => .inr rfl, ?_⟩
      · show shared.reported + shared.pending + 0 = shared.reported + 0 + shared.pending
        rw [add_zero, add_zero]
      · show 1 + 5 * 0 + 1 ≤ 2 + 5 * shared.scheduler.pending.length
        omega
  | case11 cases e =>
      intro h
      cases h
      refine .of_scheduler rfl ?_ trivial (fun _ => trivial) (by simp [Activity.weight, Happening.isLine])
      rw [reported_append, List.map_map]
      show shared.reported + (cases.map Case.name : List Text) + 0 = _
      rw [add_zero]
      rfl
  | case13 => exact nofun
  | _ =>
      intro h
      cases h
      exact .of_scheduler rfl rfl trivial id (by simp [Activity.weight, Happening.isLine])

/-- What a thread that has not ended can do next. -/
theorem exists_advance (debug : Text → Text) (seconds : ℕ) (shared : Shared) (h : t ≠ .ended) :
    ∃ happening r, advance debug seconds shared t happening = some r ∧
      happening.isLine = false := by
  cases t with
  | spawning lastGroup => exact ⟨.spawn (.ok ()), _, rfl, rfl⟩
  | idle lastGroup =>
      obtain ⟨given, rest, htake, -⟩ := shared.scheduler.take_gives lastGroup
      have hadvance : (advance debug seconds shared (.idle lastGroup) .take).isSome := by
        rw [advance, htake]
        rfl
      obtain ⟨r, hr⟩ := Option.isSome_iff_exists.mp hadvance
      exact ⟨.take, r, hr, rfl⟩
  | leased case => exact ⟨.write (.ok ()), _, rfl, rfl⟩
  | running case output => exact ⟨.receive .disconnected, _, rfl, rfl⟩
  | reporting case result =>
      cases result with
      | ok result => exact ⟨.report, _, rfl, rfl⟩
      | error e => exact ⟨.report, _, rfl, rfl⟩
  | failed e => exact ⟨.drain, _, rfl, rfl⟩
  | stranded cases e => exact ⟨.report, _, rfl, rfl⟩
  | shuttingDown => exact ⟨.shutdown, _, rfl, rfl⟩
  | ended => exact absurd rfl h

/-! ### Runs -/

variable {cases : List Case} {p p' : Pool} {a : ℕ × Happening}

/-- Every case is in one place, and a thread has found none pending only if none
is. -/
structure Accounts (cases : List Case) (p : Pool) : Prop where
  names : p.shared.reported + (p.threads.map Activity.held).sum + p.shared.pending =
    (cases.map Case.name : List Text)
  named : ∀ t ∈ p.threads, t.Named
  found : ∀ t ∈ p.threads, t.FoundNone → p.shared.scheduler.pending = []
  threads : p.threads ≠ []

def Pool.weight (p : Pool) : ℕ :=
  (p.threads.map Activity.weight).sum + 5 * p.shared.scheduler.pending.length

theorem step_keeps (hnamed : ∀ t ∈ p.threads, t.Named)
    (h : p.step debug seconds a = some p') :
    ∃ t t', p.threads[a.1]? = some t ∧ p'.threads = p.threads.set a.1 t' ∧
      Keeps p.shared t a.2 p'.shared t' := by
  obtain ⟨t, ht, h⟩ := Option.bind_eq_some_iff.mp h
  obtain ⟨⟨t', shared'⟩, hadvance, rfl⟩ := Option.map_eq_some_iff.mp h
  exact ⟨t, t', ht, rfl, advance_keeps (hnamed t (List.mem_of_getElem? ht)) hadvance⟩

theorem accounts_step (hp : Accounts cases p) (h : p.step debug seconds a = some p') :
    Accounts cases p' := by
  obtain ⟨t, t', ht, hthreads, hkeeps⟩ := step_keeps hp.named h
  refine ⟨?_, ?_, ?_, ?_⟩
  · have hsum := sum_map_set Activity.held t' ht
    rw [← hp.names, hthreads]
    apply add_right_cancel (b := t.held)
    calc p'.shared.reported + ((p.threads.set a.1 t').map Activity.held).sum + p'.shared.pending +
          t.held
      _ = p'.shared.reported + (((p.threads.set a.1 t').map Activity.held).sum + t.held) +
          p'.shared.pending := by abel
      _ = p'.shared.reported + t'.held + p'.shared.pending + (p.threads.map Activity.held).sum := by
          rw [hsum]
          abel
      _ = p.shared.reported + (p.threads.map Activity.held).sum + p.shared.pending + t.held := by
          rw [hkeeps.names]
          abel
  · intro u hu
    rcases mem_set_cases (hthreads ▸ hu) with rfl | hu
    · exact hkeeps.named
    · exact hp.named u hu
  · intro u hu hfound
    rcases mem_set_cases (hthreads ▸ hu) with rfl | hu
    · rcases hkeeps.found hfound with hold | hnone
      · exact hkeeps.nothing (hp.found t (List.mem_of_getElem? ht) hold)
      · exact hnone
    · exact hkeeps.nothing (hp.found u hu hfound)
  · intro hnil
    rw [hthreads, List.set_eq_nil_iff] at hnil
    exact hp.threads hnil

theorem weight_step (hnamed : ∀ t ∈ p.threads, t.Named) (h : p.step debug seconds a = some p') :
    p'.weight + (if a.2.isLine then 0 else 1) ≤ p.weight := by
  obtain ⟨t, t', ht, hthreads, hkeeps⟩ := step_keeps hnamed h
  have hsum := sum_map_set Activity.weight t' ht
  have hweight := hkeeps.weight
  rw [Pool.weight, Pool.weight, hthreads]
  omega

theorem accounts_start (r : Runner) (h : cases ≠ []) : Accounts cases (r.start cases) := by
  have hlength : 0 < min r.workers cases.length := by
    have hcases := List.length_pos_iff.mpr h
    have hworkers := r.workers_pos
    omega
  refine ⟨?_, ?_, ?_, ?_⟩
  · show (0 : Multiset Text) +
      ((List.replicate (min r.workers cases.length) (.spawning none)).map Activity.held).sum +
        (cases.map Case.name : List Text) = _
    rw [List.map_replicate, List.sum_replicate]
    show 0 + _ • (0 : Multiset Text) + _ = _
    rw [nsmul_zero, add_zero, zero_add]
  · intro t ht
    rw [List.eq_of_mem_replicate ht]
    trivial
  · intro t ht hfound
    rw [List.eq_of_mem_replicate ht] at hfound
    cases hfound
  · intro hnil
    have hzero := congrArg List.length hnil
    rw [Runner.start, List.length_replicate] at hzero
    exact absurd hzero hlength.ne'

theorem accounts_of_reaches {r : Runner} (h : cases ≠ [])
    (hp : Reaches (Pool.step debug r.timeout) (r.start cases) p) : Accounts cases p :=
  hp.invariant (fun _ _ _ => accounts_step) (accounts_start r h)

/-- When every thread has ended, every case is with the results. -/
theorem Accounts.reported_of_over (hp : Accounts cases p) (hover : p.Over) :
    (p.shared.results.map CaseResult.name).Perm (cases.map Case.name) := by
  have hheld : (p.threads.map Activity.held).sum = 0 := by
    refine List.sum_eq_zero fun held hmem => ?_
    obtain ⟨t, ht, rfl⟩ := List.mem_map.mp hmem
    rw [hover t ht]
    rfl
  have hpending : p.shared.scheduler.pending = [] := by
    obtain ⟨t, ht⟩ := List.exists_mem_of_ne_nil _ hp.threads
    refine hp.found t ht ?_
    rw [hover t ht]
    trivial
  have hnames := hp.names
  rw [hheld, add_zero, Shared.pending, hpending] at hnames
  have hreported : p.shared.reported + 0 = (cases.map Case.name : List Text) := hnames
  rw [add_zero] at hreported
  exact Multiset.coe_eq_coe.mp hreported

/-- Wherever a run stands, it can still return. -/
theorem Accounts.exists_over (hp : Accounts cases p) :
    ∃ p', Reaches (Pool.step debug seconds) p p' ∧ p'.Over := by
  suffices h : ∃ p', Reaches (Pool.step debug seconds) p p' ∧ Accounts cases p' ∧ p'.Over by
    obtain ⟨p', hreaches, -, hover⟩ := h
    exact ⟨p', hreaches, hover⟩
  refine exists_reaches_of_measure Pool.weight ?_ hp
  intro p hp hover
  obtain ⟨t, ht, hne⟩ : ∃ t ∈ p.threads, t ≠ .ended := by
    simpa [Pool.Over] using hover
  obtain ⟨i, hi⟩ := List.getElem?_of_mem ht
  obtain ⟨happening, r, hr, hline⟩ := exists_advance debug seconds p.shared hne
  have hstep : p.step debug seconds (i, happening) = some ⟨p.threads.set i r.1, r.2⟩ := by
    rw [Pool.step, hi, Option.bind_some, hr]
    rfl
  have hweight := weight_step hp.named hstep
  rw [hline] at hweight
  exact ⟨_, _, hstep, accounts_step hp hstep, hweight⟩

/-- A run takes no more actions than its cases and workers ask for, and one for
each line that a worker writes. -/
theorem length_le_of_run {r : Runner} (h : cases ≠ []) {as : List (ℕ × Happening)}
    (hrun : runSteps (Pool.step debug r.timeout) (r.start cases) as = some p) :
    as.length ≤ (r.start cases).weight + as.countP fun a => a.2.isLine := by
  refine runSteps_length_le (I := Accounts cases) (fun _ _ _ => accounts_step) ?_ ?_
    (accounts_start r h) hrun
  · intro p a p' hp hstep hline
    have hweight := weight_step hp.named hstep
    rw [hline] at hweight
    exact hweight
  · intro p a p' hp hstep
    have hweight := weight_step hp.named hstep
    omega

/-- Whatever happens in a run, it returns one result for each case and no other;
and it does return, as long as no worker writes for ever. -/
theorem each_case_once (debug : Text → Text) (r : Runner) (workers : ℕ) {cases : List Case}
    (hnames : (cases.map Case.name).Nodup) :
    (∀ results, (r.withWorkers workers).Returns debug cases results →
      (results.map CaseResult.name).Perm (cases.map Case.name) ∧
        ∀ case ∈ cases, results.countP (·.name = case.name) = 1) ∧
      ∀ (as : List (ℕ × Happening)) (p : Pool), cases ≠ [] →
        runSteps (Pool.step debug r.timeout) ((r.withWorkers workers).start cases) as = some p →
          (∃ p', Reaches (Pool.step debug r.timeout) p p' ∧ p'.Over) ∧
            as.length ≤ ((r.withWorkers workers).start cases).weight +
              as.countP fun a => a.2.isLine := by
  refine ⟨fun results hreturns => ?_, fun as p hne hrun => ⟨?_, ?_⟩⟩
  · have hperm : (results.map CaseResult.name).Perm (cases.map Case.name) := by
      rcases hreturns with ⟨rfl, rfl⟩ | ⟨hne, p, hreaches, hover, rfl⟩
      · exact .refl _
      · exact (accounts_of_reaches hne hreaches).reported_of_over hover
    refine ⟨hperm, fun case hcase => ?_⟩
    have hcount : (results.map CaseResult.name).count case.name = 1 := by
      rw [hperm.count_eq]
      exact List.count_eq_one_of_mem hnames (List.mem_map_of_mem hcase)
    rw [← hcount, List.count, List.countP_map]
    exact List.countP_congr fun result _ => by simp
  · exact (accounts_of_reaches (r := r.withWorkers workers) hne ⟨as, hrun⟩).exists_over
  · exact length_le_of_run (r := r.withWorkers workers) hne hrun

theorem each_case_once_two :
    ∃ results, Runner.Returns id ⟨2, 180, Nat.two_pos⟩
        [⟨"one".toList, none⟩, ⟨"two".toList, some "db".toList⟩] results ∧
      (results.map CaseResult.name).Perm ["one".toList, "two".toList] := by
  have hnames : (List.map Case.name
      [⟨"one".toList, none⟩, ⟨"two".toList, some "db".toList⟩]).Nodup := by decide
  have honce := each_case_once id ⟨2, 180, Nat.two_pos⟩ 2 hnames
  obtain ⟨p, hreaches, hover⟩ := (honce.2 [] _ (List.cons_ne_nil _ _) rfl).1
  have hreturns : Runner.Returns id _ _ p.shared.results :=
    .inr ⟨List.cons_ne_nil _ _, p, hreaches, hover, rfl⟩
  exact ⟨p.shared.results, hreturns, (honce.1 _ hreturns).1⟩

end Idakit.Runner
