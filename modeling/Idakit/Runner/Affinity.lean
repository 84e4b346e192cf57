import Idakit.Runner.Choice
import Idakit.Runner.Pool

/-!
How the scheduler keeps count of the workers on each group. A thread holds the
group of the case it got last, through the crash of its worker and the start of
another one, until the scheduler gives it a case of another group or none. The
count of a group is the number of threads that hold it.

Only a thread whose worker dies in a group and cannot be replaced leaves its
count behind. Such a thread takes every pending case out of the queue.
-/

namespace Idakit.Runner

open Idakit.Library
open Idakit.Types

/-! ### What taking a case does to the counts -/

namespace Scheduler

variable {s s' : Scheduler} {given : Option Case}

/-- One for the group of the case that is given. -/
theorem takeBest_on (h : s.takeBest = some (given, s')) (g : Text) :
    s'.workers.on g = s.workers.on g + if given.bind Case.group = some g then 1 else 0 := by
  rw [takeBest] at h
  split at h
  · cases h
    rfl
  · obtain ⟨⟨c, rest⟩, hremove, hgiven⟩ := Option.map_eq_some_iff.mp h
    obtain ⟨c, -, ⟨⟩⟩ := Option.map_eq_some_iff.mp hremove
    dsimp only at hgiven
    split at hgiven
    · next hgroup =>
        cases hgiven
        simp [hgroup]
    · next group hgroup =>
        cases hgiven
        simp [hgroup, GroupWorkers.on_enter, eq_comm]

/-- The caller moves from its last group to that of the case it is given. -/
theorem take_on {current : Option Text} (h : s.take current = some (given, s'))
    (hcurrent : ∀ group, current = some group → 0 < s.workers.on group) (g : Text) :
    s'.workers.on g + (if current = some g then 1 else 0) =
      s.workers.on g + if given.bind Case.group = some g then 1 else 0 := by
  cases current with
  | none =>
      rw [takeBest_on h]
      simp
  | some group =>
      rw [take] at h
      split at h
      · next index hindex =>
          obtain ⟨before, c, after, hpending, rfl, hc, -⟩ := findIdx_split hindex
          rw [remove_of_split hpending] at h
          cases h
          simp [hc]
      · have hpos := hcurrent group rfl
        rw [takeBest_on h]
        show (s.workers.leave group).on g + _ + _ = _
        rw [GroupWorkers.on_leave]
        by_cases hg : g = group
        · subst hg
          simp only [if_true]
          omega
        · simp [hg, Ne.symm hg]

end Scheduler

/-! ### The groups that are held -/

/-- The group of the case that a thread got last, while it serves. -/
def Activity.group : Activity → Option Text
  | .spawning lastGroup => lastGroup
  | .idle lastGroup => lastGroup
  | .leased case => case.group
  | .running case _ => case.group
  | .reporting case _ => case.group
  | _ => none

def Activity.stopped : Activity → Bool
  | .failed _ => true
  | .stranded _ _ => true
  | .shuttingDown => true
  | .ended => true
  | _ => false

/-- The worker of a thread died in a group, and there is no other to replace
it. -/
def lost (group : Text) : Activity → Happening → Bool
  | .spawning lastGroup, .spawn (.error _) => lastGroup = some group
  | _, _ => false

def Pool.serving (p : Pool) (group : Text) : ℕ := p.threads.countP (·.group = some group)

def Pool.stopped (p : Pool) : ℕ := p.threads.countP Activity.stopped

variable {debug : Text → Text} {seconds : ℕ} {shared shared' : Shared} {t t' : Activity}
  {happening : Happening}

/-- What one action does to the count of a group: it follows the thread, unless
that is lost. -/
structure Follows (group : Text) (shared : Shared) (t : Activity) (happening : Happening)
    (shared' : Shared) (t' : Activity) : Prop where
  on : shared'.scheduler.workers.on group + (if t.group = some group then 1 else 0) =
    shared.scheduler.workers.on group + (if t'.group = some group then 1 else 0) +
      if lost group t happening then 1 else 0
  stopped : (if t.stopped then 1 else 0) + (if lost group t happening then 1 else 0) ≤
    if t'.stopped then 1 else 0
  pending : shared'.scheduler.pending.length ≤ shared.scheduler.pending.length

theorem Follows.of_workers {group : Text}
    (hworkers : shared'.scheduler.workers = shared.scheduler.workers)
    (hpending : shared'.scheduler.pending.length ≤ shared.scheduler.pending.length)
    (hgroup : t'.group = t.group) (hlost : lost group t happening = false)
    (hstopped : t.stopped = true → t'.stopped = true) :
    Follows group shared t happening shared' t' where
  on := by
    rw [hworkers, hgroup, hlost]
    rfl
  stopped := by
    rw [hlost]
    cases ht : t.stopped with
    | false => exact Nat.zero_le _
    | true =>
        rw [hstopped ht]
        exact Nat.le_refl _
  pending := hpending

theorem advance_follows (group : Text)
    (hheld : ∀ g, t.group = some g → 0 < shared.scheduler.workers.on g) :
    advance debug seconds shared t happening = some (t', shared') →
      Follows group shared t happening shared' t' := by
  fun_cases advance debug seconds shared t happening with
  -- A spawn that fails leaves the thread's last group counted.
  | case2 lastGroup e =>
      intro h
      cases h
      refine ⟨?_, ?_, Nat.le_refl _⟩
      · by_cases hg : lastGroup = some group <;> simp [Activity.group, lost, hg]
      · simp only [Activity.stopped, Bool.false_eq_true, if_false, if_true, Nat.zero_add]
        split <;> omega
  | case3 lastGroup =>
      intro h
      obtain ⟨given, rest, htake, hgives⟩ := shared.scheduler.take_gives lastGroup
      have hon := Scheduler.take_on htake hheld group
      rw [htake] at h
      cases given with
      | some case =>
          cases h
          refine ⟨hon, by simp [Activity.stopped, lost], ?_⟩
          rw [hgives.length_eq]
          exact Nat.le_succ _
      | none =>
          cases h
          refine ⟨hon, by simp [Activity.stopped, lost], ?_⟩
          show rest.pending.length ≤ _
          rw [hgives.2]
          exact Nat.zero_le _
  | case10 e =>
      intro h
      cases h
      exact .of_workers rfl (Nat.zero_le _) rfl rfl id
  | case13 => simp
  | _ =>
      intro h
      cases h
      exact .of_workers rfl (Nat.le_refl _) rfl rfl id

/-! ### Runs -/

variable {cases : List Case} {p p' : Pool} {a : ℕ × Happening} {n : ℕ}

def Pool.start (n : ℕ) (cases : List Case) : Pool :=
  ⟨List.replicate n (.spawning none), ⟨⟨cases, .empty⟩, []⟩⟩

/-- Every thread that serves in a group is counted, and at most the stopped
ones besides. -/
structure Bounded (n : ℕ) (cases : List Case) (p : Pool) : Prop where
  le_on : ∀ group, p.serving group ≤ p.shared.scheduler.workers.on group
  on_le : ∀ group, p.shared.scheduler.workers.on group ≤ p.serving group + p.stopped
  threads : p.threads.length = n
  pending : p.shared.scheduler.pending.length ≤ cases.length

theorem Bounded.held (hp : Bounded n cases p) {i : ℕ} (ht : p.threads[i]? = some t) (group : Text)
    (hgroup : t.group = some group) : 0 < p.shared.scheduler.workers.on group := by
  have hserving : 0 < p.serving group :=
    List.countP_pos_iff.mpr ⟨t, List.mem_of_getElem? ht, decide_eq_true hgroup⟩
  exact Nat.lt_of_lt_of_le hserving (hp.le_on group)

/-- What one step of a run does to the count of a group. -/
theorem step_follows (hp : Bounded n cases p) (h : p.step debug seconds a = some p')
    (group : Text) :
    ∃ t t', p.threads[a.1]? = some t ∧ p'.threads = p.threads.set a.1 t' ∧
      Follows group p.shared t a.2 p'.shared t' := by
  obtain ⟨t, ht, h⟩ := Option.bind_eq_some_iff.mp h
  obtain ⟨⟨t', shared'⟩, hadvance, rfl⟩ := Option.map_eq_some_iff.mp h
  exact ⟨t, t', ht, rfl, advance_follows group (hp.held ht) hadvance⟩

theorem serving_set {i : ℕ} (ht : p.threads[i]? = some t) (hthreads : p'.threads = p.threads.set i t')
    (group : Text) :
    p'.serving group + (if t.group = some group then 1 else 0) =
      p.serving group + (if t'.group = some group then 1 else 0) := by
  have hcount := countP_set_add (fun t => decide (t.group = some group)) t' ht
  simp only [decide_eq_true_eq] at hcount
  rw [Pool.serving, hthreads]
  exact hcount

theorem stopped_set {i : ℕ} (ht : p.threads[i]? = some t) (hthreads : p'.threads = p.threads.set i t') :
    p'.stopped + (if t.stopped then 1 else 0) = p.stopped + (if t'.stopped then 1 else 0) := by
  rw [Pool.stopped, hthreads]
  exact countP_set_add Activity.stopped t' ht

theorem bounded_step (hp : Bounded n cases p) (h : p.step debug seconds a = some p') :
    Bounded n cases p' := by
  refine ⟨fun group => ?_, fun group => ?_, ?_, ?_⟩
  · obtain ⟨t, t', ht, hthreads, hfollows⟩ := step_follows hp h group
    have hserving := serving_set ht hthreads group
    have hon := hfollows.on
    have hle := hp.le_on group
    omega
  · obtain ⟨t, t', ht, hthreads, hfollows⟩ := step_follows hp h group
    have hserving := serving_set ht hthreads group
    have hstopped := stopped_set ht hthreads
    have hon := hfollows.on
    have hmore := hfollows.stopped
    have hle := hp.on_le group
    omega
  · obtain ⟨t, t', -, hthreads, -⟩ := step_follows hp h []
    rw [hthreads, List.length_set, hp.threads]
  · obtain ⟨t, t', -, -, hfollows⟩ := step_follows hp h []
    exact hfollows.pending.trans hp.pending

theorem serving_start (group : Text) : (Pool.start n cases).serving group = 0 := by
  rw [Pool.serving, Pool.start, List.countP_replicate]
  rfl

theorem bounded_start (n : ℕ) (cases : List Case) : Bounded n cases (.start n cases) where
  le_on group := by
    rw [serving_start]
    exact Nat.zero_le _
  on_le group := Nat.zero_le _
  threads := List.length_replicate
  pending := Nat.le_refl _

theorem bounded_of_reaches (hp : Reaches (Pool.step debug seconds) (.start n cases) p) :
    Bounded n cases p :=
  hp.invariant (fun _ _ _ => bounded_step) (bounded_start n cases)

/-- A thread that has stopped serves in no group. -/
theorem serving_add_stopped_le (p : Pool) (group : Text) :
    p.serving group + p.stopped ≤ p.threads.length := by
  have hstopped : ∀ t : Activity, t.stopped = true → ¬t.group = some group := by
    rintro (_ | _ | _ | _ | _ | _ | _ | _ | _) <;> simp [Activity.stopped, Activity.group]
  have hle : p.stopped ≤ p.threads.countP fun t => decide ¬t.group = some group :=
    List.countP_mono_left fun t _ ht => decide_eq_true (hstopped t ht)
  have hlength :=
    p.threads.length_eq_countP_add_countP fun t => decide (t.group = some group)
  simp only [decide_eq_true_eq] at hlength
  rw [Pool.serving]
  omega

/-- There are no more workers on a group than threads. -/
theorem Bounded.on_le_threads (hp : Bounded n cases p) (group : Text) :
    p.shared.scheduler.workers.on group ≤ n := by
  rw [← hp.threads]
  exact (hp.on_le group).trans (serving_add_stopped_le p group)

/-- The products that a choice compares fit into 64 bits, in a run of fewer than
2^32 cases. -/
theorem products_lt (r : Runner) (hcases : cases.length < 2 ^ 32)
    (hp : Reaches (Pool.step debug seconds) (r.start cases) p) (c d : Case) (i j : ℕ) :
    (p.shared.scheduler.score c i).cases * (p.shared.scheduler.score d j).workers < 2 ^ 64 := by
  have hbounded := bounded_of_reaches (n := min r.workers cases.length) hp
  have hleft : (p.shared.scheduler.score c i).cases ≤ 2 ^ 32 - 1 := by
    rw [Scheduler.score]
    split
    · show 1 ≤ _
      omega
    · show List.countP _ _ ≤ _
      have hpending := hbounded.pending
      exact List.countP_le_length.trans (by omega)
  have hright : (p.shared.scheduler.score d j).workers ≤ 2 ^ 32 := by
    rw [Scheduler.score]
    split
    · show 1 ≤ _
      omega
    · next group _ =>
        have hon := hbounded.on_le_threads group
        show p.shared.scheduler.workers.on group + 1 ≤ _
        omega
  calc (p.shared.scheduler.score c i).cases * (p.shared.scheduler.score d j).workers
    _ ≤ (2 ^ 32 - 1) * 2 ^ 32 := Nat.mul_le_mul hleft hright
    _ < 2 ^ 64 := by decide

def Pool.Replaces (p : Pool) (a : ℕ × Happening) : Prop :=
  ∀ t group, p.threads[a.1]? = some t → lost group t a.2 = false

theorem on_eq_serving_step (hp : Bounded n cases p ∧
      ∀ group, p.shared.scheduler.workers.on group = p.serving group)
    (ha : p.Replaces a) (h : p.step debug seconds a = some p') :
    Bounded n cases p' ∧ ∀ group, p'.shared.scheduler.workers.on group = p'.serving group := by
  refine ⟨bounded_step hp.1 h, fun group => ?_⟩
  obtain ⟨t, t', ht, hthreads, hfollows⟩ := step_follows hp.1 h group
  have hserving := serving_set ht hthreads group
  have hon := hfollows.on
  have heq := hp.2 group
  rw [ha t group ht] at hon
  simp only [Bool.false_eq_true, if_false] at hon
  omega

/-- In every run in which workers that die in a group are replaced, the workers
map counts for each group the threads that serve in it, and has no other entry.
A thread that takes a case is counted in the group it comes from, and finds
none only if none is pending. -/
theorem workers_counted {as : List (ℕ × Happening)}
    (hrun : runSteps (Pool.step debug seconds) (.start n cases) as = some p)
    (hreplaced : ∀ as' a as'' q, as = as' ++ a :: as'' →
      runSteps (Pool.step debug seconds) (.start n cases) as' = some q → q.Replaces a) :
    (∀ group, p.shared.scheduler.workers.get group =
      if p.serving group = 0 then none else some (p.serving group)) ∧
    ∀ (i : ℕ) (lastGroup : Option Text), p.threads[i]? = some (.idle lastGroup) →
      (∀ group, lastGroup = some group → 0 < p.shared.scheduler.workers.on group) ∧
      ∃ given s', p.shared.scheduler.take lastGroup = some (given, s') ∧
        (given = none ↔ p.shared.scheduler.pending = []) := by
  have hstart : Bounded n cases (.start n cases) ∧ ∀ group,
      (Pool.start n cases).shared.scheduler.workers.on group =
        (Pool.start n cases).serving group :=
    ⟨bounded_start n cases, fun group => (serving_start group).symm⟩
  obtain ⟨hbounded, hon⟩ := runSteps_invariant_of
    (I := fun p => Bounded n cases p ∧
      ∀ group, p.shared.scheduler.workers.on group = p.serving group)
    Pool.Replaces (fun _ _ _ hq ha hstep => on_eq_serving_step hq ha hstep) hstart hreplaced hrun
  refine ⟨fun group => ?_, fun i lastGroup hi => ⟨hbounded.held hi, ?_⟩⟩
  · rw [GroupWorkers.get_eq, hon]
  · obtain ⟨given, s', htake, hgives⟩ := p.shared.scheduler.take_gives lastGroup
    refine ⟨given, s', htake, ?_⟩
    cases given with
    | none => exact iff_of_true rfl hgives.1
    | some c =>
        refine iff_of_false nofun fun hnone => ?_
        have hlength := hgives.length_eq
        rw [hnone] at hlength
        cases hlength

/-- Only a worker that does not start is lost. -/
theorem Pool.replaces_of_ne (p : Pool) (h : ∀ e, a.2 ≠ .spawn (.error e)) : p.Replaces a := by
  intro t group ht
  unfold lost
  split
  · next e hspawn => exact absurd hspawn (h e)
  · rfl

theorem workers_counted_two :
    ∃ p, runSteps (Pool.step id 180) (.start 2 [⟨['a'], some ['g']⟩, ⟨['b'], some ['g']⟩])
        [(0, .spawn (.ok ())), (1, .spawn (.ok ())), (0, .take), (1, .take)] = some p ∧
      p.shared.scheduler.workers.get ['g'] = some 2 := by
  obtain ⟨p, hrun⟩ : ∃ p, runSteps (Pool.step id 180)
      (.start 2 [⟨['a'], some ['g']⟩, ⟨['b'], some ['g']⟩])
      [(0, .spawn (.ok ())), (1, .spawn (.ok ())), (0, .take), (1, .take)] = some p := ⟨_, rfl⟩
  have hcounted := (workers_counted hrun fun as' a as'' q has _ => ?_).1 ['g']
  · refine ⟨p, hrun, hcounted.trans ?_⟩
    cases hrun
    rfl
  · have ha : a ∈ [(0, Happening.spawn (.ok ())), (1, .spawn (.ok ())), (0, .take), (1, .take)] := by
      simp [has]
    refine q.replaces_of_ne fun e he => ?_
    simp only [List.mem_cons, List.not_mem_nil, or_false] at ha
    rcases ha with rfl | rfl | rfl | rfl <;> cases he

end Idakit.Runner
