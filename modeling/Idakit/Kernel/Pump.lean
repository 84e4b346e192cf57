import Idakit.Library.Transition
import Mathlib.Algebra.GroupWithZero.Nat

/-!
The kernel thread and its clients. A client that holds a handle sends a job
down one channel and waits for the reply on a channel of its own; the pump
takes the jobs in the order they were sent, runs each with its panic caught,
and sends what came of it. Handles are cloned and dropped by anyone who has
one; when the last is gone the pump closes the database.

A handle is borrowed while a call is made on it, so it cannot be dropped then.
A closure comes back, with a value or with a panic, but it may first wait for a
call: for one that it makes itself, on a handle it holds, or for one that
another thread makes and that it waits for. While it waits, the pump does
nothing else.
-/

namespace Idakit.Kernel

open Idakit.Library

variable {V P : Type}

/-- What a call returns: the value of its closure, its panic, or that the kernel
thread is gone. -/
inductive CallResult (V P : Type)
  | ok (value : V)
  | panicked (payload : P)
  | disconnected

def CallResult.ofOutcome : Except P V → CallResult V P
  | .ok value => .ok value
  | .error payload => .panicked payload

inductive Phase (V P : Type)
  /-- Before the job is sent. -/
  | sending
  /-- Waiting for the reply, which may have arrived. -/
  | waiting (reply : Option (Except P V))
  | returned (result : CallResult V P)

structure Call (V P : Type) where
  handle : ℕ
  phase : Phase V P

/-- What the kernel thread does. A job is named by its call. -/
inductive Pump (V P : Type)
  | receiving
  /-- In the closure of a job, with the call that the closure waits for. -/
  | running (call : ℕ) (awaited : Option ℕ)
  /-- The closure of a job is done; before its outcome is sent. -/
  | replying (call : ℕ) (outcome : Except P V)
  /-- Before the database is closed. -/
  | closing
  | exited

/-- The handles with whether they still exist, the calls made on them, the jobs
sent and not yet received, the kernel thread, and the closures it has run. -/
structure Actor (V P : Type) where
  handles : List Bool
  calls : List (Call V P)
  queue : List ℕ
  pump : Pump V P
  ran : List (ℕ × Except P V)

def Actor.start : Actor V P := ⟨[true], [], [], .receiving, []⟩

inductive Deed (V P : Type)
  | clone (handle : ℕ)
  | drop (handle : ℕ)
  | call (handle : ℕ)
  | send (call : ℕ)
  | recv (call : ℕ)
  /-- The kernel thread receives a job, or finds every handle gone. -/
  | take
  /-- The running closure begins to wait for a call to return. -/
  | wait (call : ℕ)
  | resume
  /-- The closure of the received job comes back. -/
  | run (outcome : Except P V)
  | reply
  /-- The database is closed and the kernel thread ends. -/
  | close

def Phase.isReturned : Phase V P → Bool
  | .returned _ => true
  | _ => false

def Phase.isAnswered : Phase V P → Bool
  | .waiting (some _) => true
  | .returned _ => true
  | _ => false

def Actor.returned (s : Actor V P) (call : ℕ) : Bool :=
  (s.calls[call]?.map Call.phase).any Phase.isReturned

def Actor.answered (s : Actor V P) (call : ℕ) : Bool :=
  (s.calls[call]?.map Call.phase).any Phase.isAnswered

def Pump.has (call : ℕ) : Pump V P → Bool
  | .running c _ => c = call
  | .replying c _ => c = call
  | _ => false

def Actor.setPhase (s : Actor V P) (call : ℕ) (handle : ℕ) (phase : Phase V P) : Actor V P :=
  { s with calls := s.calls.set call ⟨handle, phase⟩ }

def Actor.step (s : Actor V P) : Deed V P → Option (Actor V P)
  | .clone h =>
      if s.handles[h]? = some true then some { s with handles := s.handles ++ [true] } else none
  | .drop h =>
      if s.handles[h]? = some true ∧ s.calls.all (fun c => c.handle != h || c.phase.isReturned) then
        some { s with handles := s.handles.set h false }
      else none
  | .call h =>
      if s.handles[h]? = some true then some { s with calls := s.calls ++ [⟨h, .sending⟩] }
      else none
  | .send c =>
      match s.calls[c]?, s.pump with
      | some ⟨h, .sending⟩, .exited => some (s.setPhase c h (.returned .disconnected))
      | some ⟨h, .sending⟩, _ =>
          some { s.setPhase c h (.waiting none) with queue := s.queue ++ [c] }
      | _, _ => none
  | .recv c =>
      match s.calls[c]? with
      | some ⟨h, .waiting (some outcome)⟩ =>
          some (s.setPhase c h (.returned (.ofOutcome outcome)))
      | some ⟨h, .waiting none⟩ =>
          -- the sender lives in the job
          if c ∈ s.queue ∨ s.pump.has c then none
          else some (s.setPhase c h (.returned .disconnected))
      | _ => none
  | .take =>
      match s.pump, s.queue with
      | .receiving, c :: queue => some { s with pump := .running c none, queue := queue }
      | .receiving, [] =>
          if s.handles.any id then none else some { s with pump := .closing }
      | _, _ => none
  | .wait d =>
      match s.pump with
      | .running c none =>
          if d < s.calls.length then some { s with pump := .running c (some d) } else none
      | _ => none
  | .resume =>
      match s.pump with
      | .running c (some d) =>
          if s.returned d then some { s with pump := .running c none } else none
      | _ => none
  | .run outcome =>
      match s.pump with
      | .running c none =>
          some { s with pump := .replying c outcome, ran := s.ran ++ [(c, outcome)] }
      | _ => none
  | .reply =>
      match s.pump with
      | .replying c outcome =>
          match s.calls[c]? with
          | some ⟨h, .waiting _⟩ =>
              some { s.setPhase c h (.waiting (some outcome)) with pump := .receiving }
          | _ => some { s with pump := .receiving }
      | _ => none
  | .close =>
      match s.pump with
      | .closing => some { s with pump := .exited, queue := [] }
      | _ => none

/-! ### Where a closure is -/

inductive Place (V P : Type)
  | away
  | running
  | replying (outcome : Except P V)

def Pump.place (call : ℕ) : Pump V P → Place V P
  | .running c _ => if c = call then .running else .away
  | .replying c outcome => if c = call then .replying outcome else .away
  | _ => .away

/-- What came of the runs of one closure. -/
def outcomes (call : ℕ) (ran : List (ℕ × Except P V)) : List (Except P V) :=
  (ran.filter fun p => p.1 = call).map Prod.snd

/-- Where a closure can be: its call, how often its job is queued, what the
kernel thread has of it, and what its runs gave. -/
inductive Stands : Option (Phase V P) → ℕ → Place V P → List (Except P V) → Prop
  | absent : Stands none 0 .away []
  | sending : Stands (some .sending) 0 .away []
  | queued : Stands (some (.waiting none)) 1 .away []
  | running : Stands (some (.waiting none)) 0 .running []
  | replying (outcome) : Stands (some (.waiting none)) 0 (.replying outcome) [outcome]
  | replied (outcome) : Stands (some (.waiting (some outcome))) 0 .away [outcome]
  | returned (outcome) : Stands (some (.returned (.ofOutcome outcome))) 0 .away [outcome]

namespace Stands

variable {phase : Option (Phase V P)} {n : ℕ} {place : Place V P} {ran : List (Except P V)}
  {outcome : Except P V}

theorem of_none (h : Stands (V := V) (P := P) none n place ran) :
    n = 0 ∧ place = .away ∧ ran = [] := by
  cases h
  exact ⟨rfl, rfl, rfl⟩

theorem of_sending (h : Stands (some .sending) n place ran) :
    n = 0 ∧ place = .away ∧ ran = [] := by
  cases h
  exact ⟨rfl, rfl, rfl⟩

theorem of_replied (h : Stands (some (.waiting (some outcome))) n place ran) :
    n = 0 ∧ place = .away ∧ ran = [outcome] := by
  cases h
  exact ⟨rfl, rfl, rfl⟩

theorem of_queued (h : Stands phase (n + 1) place ran) :
    phase = some (.waiting none) ∧ n = 0 ∧ place = .away ∧ ran = [] := by
  cases h
  exact ⟨rfl, rfl, rfl, rfl⟩

theorem of_running (h : Stands phase n .running ran) :
    phase = some (.waiting none) ∧ n = 0 ∧ ran = [] := by
  cases h
  exact ⟨rfl, rfl, rfl⟩

theorem of_replying (h : Stands phase n (.replying outcome) ran) :
    phase = some (.waiting none) ∧ n = 0 ∧ ran = [outcome] := by
  cases h
  exact ⟨rfl, rfl, rfl⟩

/-- A call whose reply has not come is queued, or in the hands of the kernel
thread. -/
theorem of_waiting (h : Stands (some (.waiting none)) n place ran) : n = 1 ∨ place ≠ .away := by
  cases h with
  | queued => exact .inl rfl
  | running => exact .inr nofun
  | replying outcome => exact .inr nofun

theorem of_returned {result : CallResult V P} (h : Stands (some (.returned result)) n place ran) :
    ∃ outcome, ran = [outcome] ∧ result = .ofOutcome outcome := by
  cases h with
  | returned outcome => exact ⟨outcome, rfl, rfl⟩

theorem length_le (h : Stands phase n place ran) : ran.length ≤ 1 := by
  cases h <;> simp

end Stands

structure Actor.Inv (s : Actor V P) : Prop where
  stands : ∀ c : ℕ, Stands ((s.calls[c]?).map Call.phase) (s.queue.count c) (s.pump.place c)
    (outcomes c s.ran)
  borrowed : ∀ call ∈ s.calls, call.phase.isReturned = false → s.handles[call.handle]? = some true
  closed : s.pump = .closing ∨ s.pump = .exited → s.queue = [] ∧ ∀ h ∈ s.handles, h = false

variable {s s' : Actor V P} {c d h : ℕ} {call : Call V P} {phase : Phase V P}

theorem phase_set {calls : List (Call V P)} (hc : calls[c]? = some call) (d : ℕ) :
    ((calls.set c ⟨h, phase⟩)[d]?).map Call.phase =
      if d = c then some phase else (calls[d]?).map Call.phase := by
  split
  · next hd =>
      rw [hd, getElem?_set_of_some hc]
      rfl
  · next hd => rw [List.getElem?_set_ne (Ne.symm hd)]

/-- A call in progress keeps its handle. -/
theorem Actor.Inv.alive (hs : s.Inv) (hc : s.calls[c]? = some call)
    (hphase : call.phase.isReturned = false) : s.handles[call.handle]? = some true :=
  hs.borrowed call (List.mem_of_getElem? hc) hphase

/-- While a handle is left, the kernel thread has not ended. -/
theorem Actor.Inv.not_closed (hs : s.Inv) (hh : s.handles[h]? = some true) :
    ¬(s.pump = .closing ∨ s.pump = .exited) := by
  intro hpump
  have hfalse := (hs.closed hpump).2 true (List.mem_of_getElem? hh)
  cases hfalse

theorem Actor.Inv.borrowed_set (hs : s.Inv) (hc : s.calls[c]? = some call)
    (hphase : call.phase.isReturned = false) (phase : Phase V P) :
    ∀ call' ∈ s.calls.set c ⟨call.handle, phase⟩, call'.phase.isReturned = false →
      s.handles[call'.handle]? = some true := by
  intro call' hcall' hphase'
  rcases mem_set_cases hcall' with rfl | hcall'
  · exact hs.borrowed call (List.mem_of_getElem? hc) hphase
  · exact hs.borrowed call' hcall' hphase'

theorem Actor.inv_clone (hs : s.Inv) (hh : s.handles[h]? = some true) :
    Actor.Inv { s with handles := s.handles ++ [true] } where
  stands := hs.stands
  borrowed call hcall hphase := by
    have halive := hs.borrowed call hcall hphase
    obtain ⟨hlt, -⟩ := List.getElem?_eq_some_iff.mp halive
    show (s.handles ++ [true])[call.handle]? = some true
    rw [List.getElem?_append_left hlt, halive]
  closed hpump := absurd hpump (hs.not_closed hh)

theorem Actor.inv_drop (hs : s.Inv)
    (hunused : s.calls.all fun c => c.handle != h || c.phase.isReturned) :
    Actor.Inv { s with handles := s.handles.set h false } where
  stands := hs.stands
  borrowed call hcall hphase := by
    have hne : call.handle ≠ h := by
      have hcase := List.all_eq_true.mp hunused call hcall
      simpa [hphase] using hcase
    show (s.handles.set h false)[call.handle]? = some true
    rw [List.getElem?_set_ne hne.symm]
    exact hs.borrowed call hcall hphase
  closed hpump := by
    refine ⟨(hs.closed hpump).1, fun b hb => ?_⟩
    rcases mem_set_cases hb with rfl | hb
    · rfl
    · exact (hs.closed hpump).2 b hb

theorem Actor.inv_call (hs : s.Inv) (hh : s.handles[h]? = some true) :
    Actor.Inv { s with calls := s.calls ++ [⟨h, .sending⟩] } where
  stands d := by
    have hd := hs.stands d
    by_cases hlt : d < s.calls.length
    · show Stands (((s.calls ++ [⟨h, .sending⟩])[d]?).map Call.phase) _ _ _
      rw [List.getElem?_append_left hlt]
      exact hd
    · -- no job has the number of a call that is not made yet
      rw [List.getElem?_eq_none (Nat.le_of_not_lt hlt)] at hd
      obtain ⟨hqueue, hpump, hran⟩ := hd.of_none
      show Stands (((s.calls ++ [⟨h, .sending⟩])[d]?).map Call.phase) (s.queue.count d)
        (s.pump.place d) (outcomes d s.ran)
      rw [hqueue, hpump, hran, List.getElem?_append_right (Nat.le_of_not_lt hlt),
        List.getElem?_singleton]
      split
      · exact .sending
      · exact .absent
  borrowed call hcall hphase := by
    rcases List.mem_append.mp hcall with hcall | hcall
    · exact hs.borrowed call hcall hphase
    · rw [List.mem_singleton.mp hcall]
      exact hh
  closed := hs.closed

theorem Actor.inv_send (hs : s.Inv) (hc : s.calls[c]? = some ⟨h, .sending⟩) :
    Actor.Inv { s.setPhase c h (.waiting none) with queue := s.queue ++ [c] } where
  stands d := by
    have hd := hs.stands d
    show Stands (((s.calls.set c ⟨h, .waiting none⟩)[d]?).map Call.phase)
      ((s.queue ++ [c]).count d) (s.pump.place d) (outcomes d s.ran)
    rw [phase_set hc, List.count_append, List.count_singleton]
    by_cases hdc : d = c
    · subst hdc
      rw [hc] at hd
      obtain ⟨hqueue, hpump, hran⟩ := hd.of_sending
      rw [hqueue, hpump, hran]
      simp only [beq_self_eq_true, if_true]
      exact .queued
    · have hne : (c == d) = false := by simpa using Ne.symm hdc
      simp only [hdc, hne, if_false, Bool.false_eq_true, Nat.add_zero]
      exact hd
  borrowed := hs.borrowed_set hc rfl _
  closed hpump := absurd hpump (hs.not_closed (hs.alive hc rfl))

theorem Actor.inv_recv {outcome : Except P V} (hs : s.Inv)
    (hc : s.calls[c]? = some ⟨h, .waiting (some outcome)⟩) :
    Actor.Inv (s.setPhase c h (.returned (.ofOutcome outcome))) where
  stands d := by
    have hd := hs.stands d
    show Stands (((s.calls.set c ⟨h, .returned (.ofOutcome outcome)⟩)[d]?).map Call.phase)
      (s.queue.count d) (s.pump.place d) (outcomes d s.ran)
    rw [phase_set hc]
    split
    · next hdc =>
        subst hdc
        rw [hc] at hd
        obtain ⟨hqueue, hpump, hran⟩ := hd.of_replied
        rw [hqueue, hpump, hran]
        exact .returned outcome
    · exact hd
  borrowed := hs.borrowed_set hc rfl _
  closed := hs.closed

theorem Actor.inv_take {queue : List ℕ} (hs : s.Inv) (hpump : s.pump = .receiving)
    (hqueue : s.queue = c :: queue) :
    Actor.Inv { s with pump := .running c none, queue := queue } where
  stands d := by
    have hd := hs.stands d
    show Stands ((s.calls[d]?).map Call.phase) (queue.count d) (if c = d then .running else .away)
      (outcomes d s.ran)
    rw [hqueue, List.count_cons, hpump] at hd
    split
    · next hcd =>
        subst hcd
        simp only [beq_self_eq_true, if_true] at hd
        obtain ⟨hphase, hcount, -, hran⟩ := hd.of_queued
        rw [hphase, hcount, hran]
        exact .running
    · next hcd =>
        have hne : (c == d) = false := by simpa using hcd
        simp only [hne, if_false, Bool.false_eq_true, Nat.add_zero] at hd
        exact hd
  borrowed := hs.borrowed
  closed := by
    rintro (h | h)
    · cases h
    · cases h

theorem outcomes_append (d : ℕ) (ran : List (ℕ × Except P V)) (outcome : Except P V) :
    outcomes d (ran ++ [(c, outcome)]) = outcomes d ran ++ if c = d then [outcome] else [] := by
  rw [outcomes, outcomes, List.filter_append, List.map_append]
  by_cases hcd : c = d
  · simp [hcd]
  · simp [hcd]

/-- What a closure waits for does not change where the closures are. -/
theorem Actor.inv_await {awaited : Option ℕ} (hs : s.Inv) (hpump : s.pump = .running c awaited)
    (awaited' : Option ℕ) : Actor.Inv { s with pump := .running c awaited' } where
  stands d := by
    have hd := hs.stands d
    rw [hpump] at hd
    exact hd
  borrowed := hs.borrowed
  closed := by
    rintro (h | h)
    · cases h
    · cases h

theorem Actor.inv_run (hs : s.Inv) (hpump : s.pump = .running c none) (outcome : Except P V) :
    Actor.Inv { s with pump := .replying c outcome, ran := s.ran ++ [(c, outcome)] } where
  stands d := by
    have hd := hs.stands d
    show Stands ((s.calls[d]?).map Call.phase) (s.queue.count d)
      (if c = d then .replying outcome else .away) (outcomes d (s.ran ++ [(c, outcome)]))
    rw [hpump] at hd
    change Stands _ _ (if c = d then .running else .away) _ at hd
    rw [outcomes_append]
    split
    · next hcd =>
        rw [if_pos hcd] at hd
        obtain ⟨hphase, hqueue, hran⟩ := hd.of_running
        rw [hphase, hqueue, hran]
        exact .replying outcome
    · next hcd =>
        rw [if_neg hcd] at hd
        rw [List.append_nil]
        exact hd
  borrowed := hs.borrowed
  closed := by
    rintro (h | h)
    · cases h
    · cases h

/-- The call of a job that is done still waits for its reply. -/
theorem Actor.Inv.waits {outcome : Except P V} (hs : s.Inv) (hpump : s.pump = .replying c outcome) :
    ∃ h, s.calls[c]? = some ⟨h, .waiting none⟩ := by
  have hc := hs.stands c
  rw [hpump, Pump.place, if_pos rfl] at hc
  obtain ⟨⟨h, phase⟩, hcall, hphase⟩ := Option.map_eq_some_iff.mp hc.of_replying.1
  cases hphase
  exact ⟨h, hcall⟩

theorem Actor.inv_reply {outcome : Except P V} (hs : s.Inv) (hpump : s.pump = .replying c outcome)
    (hc : s.calls[c]? = some ⟨h, .waiting none⟩) :
    Actor.Inv { s.setPhase c h (.waiting (some outcome)) with pump := .receiving } where
  stands d := by
    have hd := hs.stands d
    show Stands (((s.calls.set c ⟨h, .waiting (some outcome)⟩)[d]?).map Call.phase)
      (s.queue.count d) .away (outcomes d s.ran)
    rw [hpump, Pump.place] at hd
    rw [phase_set hc]
    split
    · next hdc =>
        rw [if_pos hdc.symm] at hd
        obtain ⟨-, hqueue, hran⟩ := hd.of_replying
        rw [hqueue, hran]
        exact .replied outcome
    · next hdc =>
        rw [if_neg (Ne.symm hdc)] at hd
        exact hd
  borrowed := hs.borrowed_set hc rfl _
  closed := by
    rintro (h | h)
    · cases h
    · cases h

theorem Actor.inv_closing (hs : s.Inv) (hpump : s.pump = .receiving) (hqueue : s.queue = [])
    (hhandles : s.handles.any id = false) : Actor.Inv { s with pump := .closing } where
  stands d := by
    have hd := hs.stands d
    rw [hpump] at hd
    exact hd
  borrowed := hs.borrowed
  closed _ := by
    refine ⟨hqueue, fun h hh => ?_⟩
    cases h with
    | false => rfl
    | true =>
        rw [List.any_eq_false] at hhandles
        exact absurd rfl (hhandles true hh)

theorem Actor.inv_close (hs : s.Inv) (hpump : s.pump = .closing) :
    Actor.Inv { s with pump := .exited, queue := [] } where
  stands d := by
    have hd := hs.stands d
    rw [hpump, (hs.closed (.inl hpump)).1] at hd
    exact hd
  borrowed := hs.borrowed
  closed _ := ⟨rfl, (hs.closed (.inl hpump)).2⟩

/-- The job of a call that waits is queued, or in the hands of the kernel
thread. -/
theorem Actor.Inv.in_hand (hs : s.Inv) (hc : s.calls[c]? = some ⟨h, .waiting none⟩) :
    c ∈ s.queue ∨ s.pump.has c = true := by
  have hstands := hs.stands c
  rw [hc] at hstands
  rcases hstands.of_waiting with hcount | hplace
  · refine .inl (List.count_pos_iff.mp ?_)
    omega
  · right
    cases hpump : s.pump with
    | running d awaited =>
        rw [hpump, Pump.place] at hplace
        simpa [Pump.has] using hplace
    | replying d outcome =>
        rw [hpump, Pump.place] at hplace
        simpa [Pump.has] using hplace
    | _ =>
        rw [hpump] at hplace
        exact absurd rfl hplace

theorem Actor.inv_step {deed : Deed V P} (hs : s.Inv) (hstep : s.step deed = some s') :
    s'.Inv := by
  revert hstep
  fun_cases s.step deed with
  | case1 h hh =>
      intro hstep
      cases hstep
      exact inv_clone hs hh
  | case3 h hh =>
      intro hstep
      cases hstep
      exact inv_drop hs hh.2
  | case5 h hh =>
      intro hstep
      cases hstep
      exact inv_call hs hh
  | case7 c h hpump hc =>
      -- a call in progress has a handle, so the kernel thread is not gone
      exact absurd (.inr hpump) (hs.not_closed (hs.alive hc rfl))
  | case8 c h hc =>
      intro hstep
      cases hstep
      exact inv_send hs hc
  | case10 c h outcome hc =>
      intro hstep
      cases hstep
      exact inv_recv hs hc
  | case12 c h hc hgone =>
      exact absurd (hs.in_hand hc) hgone
  | case14 c queue hqueue hpump =>
      intro hstep
      cases hstep
      exact inv_take hs hpump hqueue
  | case16 hqueue hpump hhandles =>
      intro hstep
      cases hstep
      exact inv_closing hs hpump hqueue (Bool.eq_false_iff.mpr hhandles)
  | case18 d c hpump hd =>
      intro hstep
      cases hstep
      exact inv_await hs hpump (some d)
  | case21 c d hpump hd =>
      intro hstep
      cases hstep
      exact inv_await hs hpump none
  | case24 outcome c hpump =>
      intro hstep
      cases hstep
      exact inv_run hs hpump outcome
  | case26 c outcome hpump h reply hc =>
      intro hstep
      cases hstep
      obtain ⟨h', hc'⟩ := hs.waits hpump
      rw [hc] at hc'
      cases hc'
      exact inv_reply hs hpump hc
  | case27 c outcome hpump hnone =>
      obtain ⟨h, hc⟩ := hs.waits hpump
      exact absurd hc fun hc => hnone h none hc
  | case29 hpump =>
      intro hstep
      cases hstep
      exact inv_close hs hpump
  | _ => exact nofun

theorem Actor.inv_start : (Actor.start : Actor V P).Inv where
  stands _ := .absent
  borrowed := nofun
  closed := by
    rintro (h | h)
    · cases h
    · cases h

theorem Actor.inv_of_reaches (h : Reaches step start s) : s.Inv :=
  h.invariant (fun _ _ _ => inv_step) inv_start

end Idakit.Kernel
