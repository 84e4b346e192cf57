import Idakit.Kernel.Pump

/-!
What the clients of a kernel get. A closure runs once at most, and its call
returns what came of it, whatever else happens. That every call returns is
another matter: a closure that waits for a call whose reply has not been sent
waits for ever, since the thread that would send it is the one that waits, and
no closure is run after it.
-/

namespace Idakit.Kernel

open Idakit.Library

variable {V P : Type} {s s' : Actor V P} {deed : Deed V P} {c d h : ℕ} {call : Call V P}
  {phase : Phase V P}

/-! ### Closures that wait -/

/-- A closure begins to wait only for a call that has its reply. -/
def Actor.Awaitable (s : Actor V P) (deed : Deed V P) : Prop :=
  ∀ d, deed = .wait d → s.answered d = true

/-- The running closure waits for a call that has no reply. -/
def Actor.Stuck (s : Actor V P) : Prop :=
  ∃ c d, s.pump = .running c (some d) ∧ s.answered d = false

theorem Actor.answered_setPhase (hc : s.calls[c]? = some call) (h : ℕ) (phase : Phase V P)
    (d : ℕ) :
    (s.setPhase c h phase).answered d = if d = c then phase.isAnswered else s.answered d := by
  show (((s.calls.set c ⟨h, phase⟩)[d]?).map Call.phase).any Phase.isAnswered = _
  rw [phase_set hc]
  split
  · rfl
  · rfl

theorem Actor.answered_eq (hc : s.calls[c]? = some call) :
    s.answered c = call.phase.isAnswered := by
  rw [answered, hc]
  rfl

/-- A call that is made has no reply. -/
theorem Actor.answered_call (h d : ℕ) :
    Actor.answered { s with calls := s.calls ++ [⟨h, .sending⟩] } d = s.answered d := by
  show (((s.calls ++ [⟨h, .sending⟩])[d]?).map Call.phase).any Phase.isAnswered = _
  rw [List.getElem?_append]
  split
  · rfl
  · next hlt =>
      rw [answered, List.getElem?_eq_none (Nat.le_of_not_lt hlt), List.getElem?_singleton]
      split
      · rfl
      · rfl

theorem Actor.answered_of_returned (hd : s.returned d = true) : s.answered d = true := by
  rw [returned, Option.any_eq_true] at hd
  obtain ⟨phase, hphase, hreturned⟩ := hd
  rw [answered, hphase]
  cases phase with
  | returned result => rfl
  | _ => cases hreturned

/-- What has its reply keeps it. -/
theorem Actor.answered_step (hstep : s.step deed = some s') (hd : s.answered d = true) :
    s'.answered d = true := by
  revert hstep
  fun_cases s.step deed with
  | case5 h hh =>
      intro hstep
      cases hstep
      rw [answered_call, hd]
  | case7 c h hpump hc =>
      intro hstep
      cases hstep
      rw [answered_setPhase hc, hd]
      exact ite_self true
  | case8 c h hc =>
      intro hstep
      cases hstep
      show (s.setPhase c h (.waiting none)).answered d = true
      rw [answered_setPhase hc]
      split
      · next hdc =>
          rw [hdc, answered_eq hc] at hd
          cases hd
      · exact hd
  | case10 c h outcome hc =>
      intro hstep
      cases hstep
      rw [answered_setPhase hc, hd]
      exact ite_self true
  | case12 c h hc hgone =>
      intro hstep
      cases hstep
      rw [answered_setPhase hc, hd]
      exact ite_self true
  | case26 c outcome hpump h reply hc =>
      intro hstep
      cases hstep
      show (s.setPhase c h (.waiting (some outcome))).answered d = true
      rw [answered_setPhase hc, hd]
      exact ite_self true
  | _ =>
      intro hstep
      cases hstep <;> exact hd

/-- From a closure that waits for a reply nothing leads away: only the kernel
thread could send the reply. -/
theorem Actor.Inv.stuck_step (hs : s.Inv) (hstuck : s.Stuck) (hstep : s.step deed = some s') :
    s'.Stuck ∧ s'.ran = s.ran := by
  obtain ⟨c, d, hpump, hd⟩ := hstuck
  -- The kernel thread waits inside a closure, so only clients move, and none sends it a reply.
  suffices h : s'.pump = s.pump ∧ s'.answered d = false ∧ s'.ran = s.ran from
    ⟨⟨c, d, h.1.trans hpump, h.2.1⟩, h.2.2⟩
  revert hstep
  fun_cases s.step deed with
  | case1 h hh =>
      intro hstep
      cases hstep
      exact ⟨rfl, hd, rfl⟩
  | case3 h hh =>
      intro hstep
      cases hstep
      exact ⟨rfl, hd, rfl⟩
  | case5 h hh =>
      intro hstep
      cases hstep
      exact ⟨rfl, (answered_call h d).trans hd, rfl⟩
  | case7 e h hexited he =>
      rw [hpump] at hexited
      cases hexited
  | case8 e h he =>
      intro hstep
      cases hstep
      refine ⟨rfl, ?_, rfl⟩
      show (s.setPhase e h (.waiting none)).answered d = false
      rw [answered_setPhase he, hd]
      exact ite_self false
  | case10 e h outcome he =>
      intro hstep
      cases hstep
      refine ⟨rfl, ?_, rfl⟩
      rw [answered_setPhase he]
      split
      · next hde =>
          rw [hde, answered_eq he] at hd
          cases hd
      · exact hd
  | case12 e h he hgone => exact absurd (hs.in_hand he) hgone
  | case21 c' d' hpump' hreturned =>
      obtain rfl : d = d' := by
        rw [hpump] at hpump'
        cases hpump'
        rfl
      rw [answered_of_returned hreturned] at hd
      cases hd
  | case14 _ _ _ hpump' | case16 _ hpump' | case18 _ _ hpump' | case24 _ _ hpump'
  | case26 _ _ hpump' | case27 _ _ hpump' | case29 hpump' =>
      rw [hpump] at hpump'
      cases hpump'
  | _ =>
      intro hstep
      cases hstep

theorem Actor.step_wait (hstep : s.step (.wait d) = some s') :
    ∃ c, s.pump = .running c none ∧ s' = { s with pump := .running c (some d) } := by
  rw [step] at hstep
  split at hstep
  · next c hpump =>
      split at hstep
      · exact ⟨c, hpump, (Option.some.inj hstep).symm⟩
      · cases hstep
  · cases hstep

/-- A closure waits for a call because it did before, or because it begins to. -/
theorem Actor.pump_step (hstep : s.step deed = some s') (hpump : s'.pump = .running c (some d)) :
    s.pump = .running c (some d) ∨ deed = .wait d := by
  revert hstep
  fun_cases s.step deed with
  | case14 | case16 | case21 | case24 | case26 | case27 | case29 =>
      intro hstep
      cases hstep
      cases hpump
  | case18 e c' hpump' he =>
      intro hstep
      cases hstep
      cases hpump
      exact .inr rfl
  | _ =>
      intro hstep
      cases hstep <;> exact .inl hpump

/-- The kernel thread gets stuck by a wait for a call without its reply, and in
no other way. -/
theorem Actor.stuck_step_iff (hfree : ¬s.Stuck) (hstep : s.step deed = some s') :
    ¬s'.Stuck ↔ s.Awaitable deed := by
  constructor
  · rintro hfree' d rfl
    obtain ⟨c, -, rfl⟩ := step_wait hstep
    by_contra hd
    exact hfree' ⟨c, d, rfl, Bool.eq_false_iff.mpr hd⟩
  · rintro hawaitable ⟨c, d, hpump', hd'⟩
    have hd : s.answered d = true := by
      rcases pump_step hstep hpump' with hpump | hwait
      · by_contra hd
        exact hfree ⟨c, d, hpump, Bool.eq_false_iff.mpr hd⟩
      · exact hawaitable d hwait
    rw [answered_step hstep hd] at hd'
    cases hd'

/-! ### Progress -/

def Phase.weight : Phase V P → ℕ
  | .sending => 6
  | .waiting none => 2
  | .waiting (some _) => 1
  | .returned _ => 0

def Pump.weight : Pump V P → ℕ
  | .running _ (some _) => 3
  | .running _ none => 2
  | .replying _ _ => 1
  | _ => 0

def callsWeight (calls : List (Call V P)) : ℕ := (calls.map fun call => call.phase.weight).sum

def Actor.weight (s : Actor V P) : ℕ :=
  callsWeight s.calls + 3 * s.queue.length + s.pump.weight

def Actor.Idle (s : Actor V P) : Prop := ∀ call ∈ s.calls, call.phase.isReturned = true

theorem callsWeight_set {calls : List (Call V P)} (hc : calls[c]? = some call)
    (phase : Phase V P) :
    callsWeight (calls.set c ⟨h, phase⟩) + call.phase.weight = callsWeight calls + phase.weight :=
  sum_map_set (fun call => call.phase.weight) ⟨h, phase⟩ hc

theorem Actor.step_run (hpump : s.pump = .running c none) (outcome : Except P V) :
    s.step (.run outcome) =
      some { s with pump := .replying c outcome, ran := s.ran ++ [(c, outcome)] } := by
  rw [step, hpump]

theorem Actor.Inv.step_reply {outcome : Except P V} (hs : s.Inv)
    (hpump : s.pump = .replying c outcome) :
    ∃ h, s.calls[c]? = some ⟨h, .waiting none⟩ ∧ s.step .reply =
      some { s.setPhase c h (.waiting (some outcome)) with pump := .receiving } := by
  obtain ⟨h, hc⟩ := hs.waits hpump
  refine ⟨h, hc, ?_⟩
  rw [step, hpump]
  simp only [hc]

theorem Actor.step_resume (hpump : s.pump = .running c (some d)) (hd : s.returned d = true) :
    s.step .resume = some { s with pump := .running c none } := by
  rw [step, hpump]
  exact if_pos hd

/-- A reply that has been sent is received. -/
theorem Actor.step_recv {outcome : Except P V}
    (hc : s.calls[c]? = some ⟨h, .waiting (some outcome)⟩) :
    ∃ s', s.step (.recv c) = some s' ∧ s'.weight < s.weight ∧
      s'.calls.length = s.calls.length ∧ s'.ran = s.ran := by
  have hstep : s.step (.recv c) = some (s.setPhase c h (.returned (.ofOutcome outcome))) := by
    rw [step, hc]
  refine ⟨_, hstep, ?_, List.length_set, rfl⟩
  have hsum := callsWeight_set hc (h := h) (.returned (.ofOutcome outcome))
  simp only [Phase.weight] at hsum
  rw [weight, weight]
  simp only [setPhase]
  omega

theorem Actor.exists_of_answered (hd : s.answered d = true) :
    s.returned d = true ∨
      ∃ (h : ℕ) (outcome : Except P V), s.calls[d]? = some ⟨h, .waiting (some outcome)⟩ := by
  rw [answered, Option.any_eq_true] at hd
  obtain ⟨phase, hphase, hanswered⟩ := hd
  obtain ⟨⟨h, phase⟩, hcall, rfl⟩ := Option.map_eq_some_iff.mp hphase
  cases phase with
  | sending => cases hanswered
  | returned result =>
      left
      rw [returned, hcall]
      rfl
  | waiting reply =>
      cases reply with
      | none => cases hanswered
      | some outcome => exact .inr ⟨h, outcome, hcall⟩

/-- While a call is in progress and no closure waits for a reply that is not
there, there is something to do for one of the calls; how the closures end
makes no difference. -/
theorem Actor.Inv.exists_step (hs : s.Inv) (hfree : ¬s.Stuck) (hbusy : ¬s.Idle)
    (choose : ℕ → Except P V) :
    ∃ deed s', s.step deed = some s' ∧ s.Awaitable deed ∧ s'.weight < s.weight ∧
      s'.calls.length = s.calls.length ∧ ∀ p ∈ s'.ran, p ∈ s.ran ∨ p.2 = choose p.1 := by
  have hran : ∀ p ∈ s.ran, p ∈ s.ran ∨ p.2 = choose p.1 := fun p hp => .inl hp
  obtain ⟨⟨h, phase⟩, hcall, hphase⟩ : ∃ call ∈ s.calls, call.phase.isReturned = false := by
    simpa [Idle] using hbusy
  obtain ⟨c, hc⟩ := List.getElem?_of_mem hcall
  have halive := hs.not_closed (hs.alive hc hphase)
  -- The kernel thread goes on with what it has; while it has nothing, a call moves.
  cases hpump : s.pump with
  | running d awaited =>
      cases awaited with
      | none =>
          refine ⟨_, _, step_run hpump (choose d), by rintro _ ⟨⟩, ?_, rfl, ?_⟩
          · rw [weight, weight, hpump]
            exact Nat.lt_succ_self _
          · intro p hp
            rcases List.mem_append.mp hp with hp | hp
            · exact .inl hp
            · exact .inr (by rw [List.mem_singleton.mp hp])
      | some e =>
          -- the closure waits for a call that has its reply
          have he : s.answered e = true := by
            by_contra he
            exact hfree ⟨d, e, hpump, Bool.eq_false_iff.mpr he⟩
          rcases exists_of_answered he with hreturned | ⟨h', outcome, hcall'⟩
          · refine ⟨_, _, step_resume hpump hreturned, by rintro _ ⟨⟩, ?_, rfl, hran⟩
            rw [weight, weight, hpump]
            exact Nat.lt_succ_self _
          · obtain ⟨s', hstep, hlt, hlength, hran'⟩ := step_recv hcall'
            exact ⟨_, s', hstep, by rintro _ ⟨⟩, hlt, hlength, by rwa [hran']⟩
  | replying d outcome =>
      obtain ⟨h', hd, hstep⟩ := hs.step_reply hpump
      refine ⟨_, _, hstep, by rintro _ ⟨⟩, ?_, List.length_set, hran⟩
      have hsum := callsWeight_set hd (h := h') (.waiting (some outcome))
      simp only [Phase.weight] at hsum
      rw [weight, weight, hpump]
      simp only [setPhase, Pump.weight]
      omega
  | closing => exact absurd (.inl hpump) halive
  | exited => exact absurd (.inr hpump) halive
  | receiving =>
      cases hqueue : s.queue with
      | cons d queue =>
          have hstep : s.step .take = some { s with pump := .running d none, queue := queue } := by
            rw [step, hpump, hqueue]
          refine ⟨_, _, hstep, by rintro _ ⟨⟩, ?_, rfl, hran⟩
          rw [weight, weight, hpump, hqueue]
          simp only [Pump.weight, List.length_cons]
          omega
      | nil =>
          cases phase with
          | sending =>
              have hstep : s.step (.send c) =
                  some { s.setPhase c h (.waiting none) with queue := s.queue ++ [c] } := by
                rw [step, hc, hpump]
              refine ⟨_, _, hstep, by rintro _ ⟨⟩, ?_, List.length_set, hran⟩
              have hsum := callsWeight_set hc (h := h) (.waiting none)
              simp only [Phase.weight] at hsum
              rw [weight, weight, hqueue]
              simp only [setPhase, List.nil_append, List.length_singleton, List.length_nil]
              omega
          | waiting reply =>
              cases reply with
              | none =>
                  -- A call without its reply is queued or in hand, and neither has one here.
                  have hhand := hs.in_hand hc
                  rw [hqueue, hpump] at hhand
                  rcases hhand with hmem | hhas
                  · cases hmem
                  · cases hhas
              | some outcome =>
                  obtain ⟨s', hstep, hlt, hlength, hran'⟩ := step_recv hc
                  exact ⟨_, s', hstep, by rintro _ ⟨⟩, hlt, hlength, by rwa [hran']⟩
          | returned result => cases hphase

theorem Actor.Inv.exists_idle (hs : s.Inv) (hfree : ¬s.Stuck) (choose : ℕ → Except P V) :
    ∃ s', Reaches step s s' ∧ s'.Idle ∧ s'.calls.length = s.calls.length ∧
      ∀ p ∈ s'.ran, p ∈ s.ran ∨ p.2 = choose p.1 := by
  have hless : ∃ s', Reaches step s s' ∧ ((s'.Inv ∧ ¬s'.Stuck) ∧
      s'.calls.length = s.calls.length ∧ ∀ p ∈ s'.ran, p ∈ s.ran ∨ p.2 = choose p.1) ∧
      s'.Idle := by
    refine exists_reaches_of_measure Actor.weight ?_ ⟨⟨hs, hfree⟩, rfl, fun p hp => .inl hp⟩
    rintro t ⟨⟨ht, htfree⟩, hlength, hran⟩ hbusy
    obtain ⟨deed, t', hstep, hawaitable, hlt, hlength', hran'⟩ :=
      ht.exists_step htfree hbusy choose
    have htfree' := (stuck_step_iff htfree hstep).mpr hawaitable
    refine ⟨deed, t', hstep, ⟨⟨inv_step ht hstep, htfree'⟩, hlength'.trans hlength, ?_⟩, hlt⟩
    intro p hp
    rcases hran' p hp with hp | hp
    · exact hran p hp
    · exact .inr hp
  obtain ⟨s', hreaches, ⟨-, hlength, hran⟩, hidle⟩ := hless
  exact ⟨s', hreaches, hidle, hlength, hran⟩

/-- Only the kernel thread runs a closure, the one it has received. -/
theorem Actor.ran_step {deed : Deed V P} (hstep : s.step deed = some s') :
    s'.ran = s.ran ∨ ∃ c outcome, deed = .run outcome ∧ s.pump = .running c none ∧
      s'.ran = s.ran ++ [(c, outcome)] := by
  revert hstep
  fun_cases s.step deed with
  | case24 outcome c hpump =>
      intro hstep
      cases hstep
      exact .inr ⟨c, outcome, rfl, hpump, rfl⟩
  | _ =>
      intro hstep
      cases hstep <;> exact .inl rfl

theorem Actor.Inv.returned {result : CallResult V P} (hs : s.Inv)
    (hc : s.calls[c]? = some ⟨h, .returned result⟩) :
    ∃ outcome, outcomes c s.ran = [outcome] ∧ result = .ofOutcome outcome := by
  have hstands := hs.stands c
  rw [hc] at hstands
  exact hstands.of_returned

theorem Actor.Inv.idle_of_closed (hs : s.Inv) (hpump : s.pump = .closing ∨ s.pump = .exited) :
    s.Idle := by
  intro call hcall
  cases hphase : call.phase.isReturned with
  | true => rfl
  | false => exact absurd hpump (hs.not_closed (hs.borrowed call hcall hphase))

/-- Nothing that happens later makes up for a closure that waits for a reply
that is not there. -/
theorem Actor.Inv.stuck_reaches (hs : s.Inv) (hstuck : s.Stuck) (h : Reaches step s s') :
    s'.Stuck ∧ s'.ran = s.ran := by
  have hinv : s'.Inv ∧ s'.Stuck ∧ s'.ran = s.ran := by
    refine Reaches.invariant (I := fun t => t.Inv ∧ t.Stuck ∧ t.ran = s.ran) ?_
      ⟨hs, hstuck, rfl⟩ h
    rintro t deed t' ⟨ht, htstuck, hran⟩ hstep
    obtain ⟨htstuck', hran'⟩ := ht.stuck_step htstuck hstep
    exact ⟨inv_step ht hstep, htstuck', hran'.trans hran⟩
  exact hinv.2

theorem Actor.Inv.not_idle_of_stuck (hs : s.Inv) (hstuck : s.Stuck) : ¬s.Idle := by
  obtain ⟨c, d, hpump, -⟩ := hstuck
  have hc := hs.stands c
  rw [hpump, Pump.place, if_pos rfl] at hc
  obtain ⟨call, hcall, hphase⟩ := Option.map_eq_some_iff.mp hc.of_running.1
  intro hidle
  have hreturned := hidle call (List.mem_of_getElem? hcall)
  rw [hphase] at hreturned
  cases hreturned

/-! ### What a call gets -/

/-- What the clients can rely on in a state. -/
structure Actor.Serves (s : Actor V P) : Prop where
  /-- A closure runs once at most. -/
  once : ∀ c : ℕ, (outcomes c s.ran).length ≤ 1
  /-- It runs on the kernel thread, when that has received it. -/
  onKernel : ∀ (deed : Deed V P) (s' : Actor V P), s.step deed = some s' → s'.ran = s.ran ∨
    ∃ c outcome, deed = .run outcome ∧ s.pump = .running c none ∧
      s'.ran = s.ran ++ [(c, outcome)]
  /-- A call that has returned ran its closure and returns what came of it. -/
  own : ∀ (c h : ℕ) (result : CallResult V P), s.calls[c]? = some ⟨h, .returned result⟩ →
    ∃ outcome, outcomes c s.ran = [outcome] ∧ result = .ofOutcome outcome
  /-- The kernel thread goes on after a panic as after a value. -/
  goesOn : ∀ (c : ℕ) (outcome : Except P V), s.pump = .running c none →
    ∃ s', runSteps Actor.step s [.run outcome, .reply] = some s' ∧ s'.pump = .receiving ∧
      s'.queue = s.queue
  /-- However the closures end, every call can still return. -/
  finishes : ∀ choose : ℕ → Except P V, ∃ s', Reaches Actor.step s s' ∧ s'.Idle ∧
    s'.calls.length = s.calls.length ∧ ∀ p ∈ s'.ran, p ∈ s.ran ∨ p.2 = choose p.1
  /-- When the database is closed, no job is left and every call has returned. -/
  last : s.pump = .closing ∨ s.pump = .exited → s.queue = [] ∧ s.Idle

theorem Actor.Inv.goes_on (hs : s.Inv) (hpump : s.pump = .running c none) (outcome : Except P V) :
    ∃ s', runSteps Actor.step s [.run outcome, .reply] = some s' ∧ s'.pump = .receiving ∧
      s'.queue = s.queue := by
  have hrun := step_run hpump outcome
  obtain ⟨h, -, hreply⟩ := (inv_step hs hrun).step_reply rfl
  have hsteps := runSteps_cons_eq_some_iff.mpr
    ⟨_, hrun, runSteps_cons_eq_some_iff.mpr ⟨_, hreply, runSteps_nil⟩⟩
  exact ⟨_, hsteps, rfl, rfl⟩

/-- All but that every call can return holds in every state. -/
theorem Actor.Inv.serves_iff [Inhabited P] (hs : s.Inv) : s.Serves ↔ ¬s.Stuck := by
  constructor
  · intro hserves hstuck
    obtain ⟨s', hreaches, hidle, -⟩ := hserves.finishes fun _ => .error default
    have hs' : s'.Inv := hreaches.invariant (fun _ _ _ => inv_step) hs
    exact hs'.not_idle_of_stuck (hs.stuck_reaches hstuck hreaches).1 hidle
  · intro hfree
    exact {
      once := fun c => (hs.stands c).length_le
      onKernel := fun _ _ => ran_step
      own := fun _ _ _ => hs.returned
      goesOn := fun _ outcome hpump => hs.goes_on hpump outcome
      finishes := hs.exists_idle hfree
      last := fun hpump => ⟨(hs.closed hpump).1, hs.idle_of_closed hpump⟩ }

theorem Actor.serves_start [Inhabited P] : (Actor.start : Actor V P).Serves := by
  refine inv_start.serves_iff.mpr ?_
  rintro ⟨c, d, hpump, -⟩
  cases hpump

/-- Whatever clients do with their handles, whichever closures panic and
whichever wait for calls of their own or of others: the clients get what they
can rely on throughout a run just if no closure in it begins to wait for a call
that has no reply. -/
theorem calls_served_iff [Inhabited P] (deeds : List (Deed V P))
    (hrun : runSteps Actor.step .start deeds = some s) :
    (∀ as as' t, deeds = as ++ as' → runSteps Actor.step .start as = some t → t.Serves) ↔
      ∀ as a as' t, deeds = as ++ a :: as' → runSteps Actor.step .start as = some t →
        t.Awaitable a := by
  have hinv : ∀ (as : List (Deed V P)) (t : Actor V P),
      runSteps Actor.step .start as = some t → t.Inv :=
    fun as t ht => Actor.inv_of_reaches ⟨as, ht⟩
  have hstep : ∀ (t : Actor V P) (a : Deed V P) (t' : Actor V P), t.Inv ∧ t.Serves →
      t.step a = some t' → (t'.Inv ∧ t'.Serves ↔ t.Awaitable a) := by
    rintro t a t' ⟨ht, hserves⟩ hstep
    have ht' := Actor.inv_step ht hstep
    rw [and_iff_right ht', ht'.serves_iff]
    exact Actor.stuck_step_iff (ht.serves_iff.mp hserves) hstep
  rw [← forall_good_iff hstep ⟨Actor.inv_start, Actor.serves_start⟩ hrun]
  constructor
  · intro hserves as as' t has ht
    exact ⟨hinv as t ht, hserves as as' t has ht⟩
  · intro hgood as as' t has ht
    exact (hgood as as' t has ht).2

/-- Two clients: the first closure panics, and the second waits for the first
call, which has its reply, and gives a value. -/
def served : List (Deed ℕ Unit) :=
  [.clone 0, .call 0, .call 1, .send 0, .send 1, .take, .run (.error ()), .reply, .take, .wait 0,
    .recv 0, .drop 0, .resume, .run (.ok 7), .reply, .recv 1, .drop 1, .take, .close]

theorem calls_served_iff_served :
    ∃ s, runSteps Actor.step .start served = some s ∧ s.pump = .exited ∧
      s.calls = [⟨0, .returned (.panicked ())⟩, ⟨1, .returned (.ok 7)⟩] ∧
      ((∀ as as' t, served = as ++ as' → runSteps Actor.step .start as = some t → t.Serves) ↔
        ∀ as a as' t, served = as ++ a :: as' → runSteps Actor.step .start as = some t →
          t.Awaitable a) :=
  ⟨_, rfl, rfl, rfl, calls_served_iff served rfl⟩

/-- A closure that makes a call on a handle it holds, to the kernel it runs on. -/
def nested : List (Deed ℕ Unit) :=
  [.clone 0, .call 0, .send 0, .take, .call 1, .wait 1, .send 1]

/-- Its call is sent and never served: the closure of that call never runs, and
neither call returns. -/
theorem not_serves_nested :
    ∃ s, runSteps Actor.step .start nested = some s ∧ s.queue = [1] ∧ ¬s.Serves ∧
      ∀ s', Reaches Actor.step s s' → outcomes 1 s'.ran = [] ∧ ¬s'.Idle := by
  refine ⟨_, rfl, rfl, ?_⟩
  have hs := Actor.inv_of_reaches ⟨nested, rfl⟩
  refine ⟨fun hserves => hs.serves_iff.mp hserves ⟨0, 1, rfl, rfl⟩, fun s' h => ?_⟩
  obtain ⟨hstuck, hran⟩ := hs.stuck_reaches ⟨0, 1, rfl, rfl⟩ h
  have hs' : s'.Inv := h.invariant (fun _ _ _ => Actor.inv_step) hs
  refine ⟨?_, hs'.not_idle_of_stuck hstuck⟩
  rw [hran]
  rfl

end Idakit.Kernel
