import Idakit.Library.Transition

/-!
Bringing the kernel up. The kernel is a process global, so at most one claim on
it is live; its library is initialised once and for all.

An attempt is a program counter in one of the two ways to bring the kernel up.
Each of its steps does one thing to the two flags, or to the library, and
attempts take their steps in any order. Wherever an attempt fails, its claim
is dropped on the way out.
-/

namespace Idakit.Kernel

open Idakit.Library

/-- On the current thread, or on a thread of its own. -/
inductive Method
  | here | run
  deriving DecidableEq

inductive Outcome
  | alreadyRunning
  | spawnPanicked
  | claim
  | initLibrary (code : ℤ)
  /-- The body has finished, or the database was dropped. -/
  | finished
  deriving DecidableEq

inductive Attempt
  /-- `KernelClaim::acquire`. -/
  | acquiring (method : Method)
  /-- Spawn the kernel thread. -/
  | spawning
  /-- `claim::steal_main`. -/
  | stealing
  /-- `KERNEL_INITED.swap(true)`. -/
  | swapping
  /-- `sys::init_headless`. -/
  | initing
  /-- `KERNEL_INITED.store(false)`. -/
  | resetting (code : ℤ)
  /-- `sys::set_batch`. -/
  | batching
  /-- The kernel is up, and the body or the owner of the database has it. -/
  | up
  /-- Drop the claim. -/
  | dropping (outcome : Outcome)
  | over (outcome : Outcome)
  deriving DecidableEq

inductive Happening
  | go
  | succeed
  | fail
  | code (rc : ℤ)

/-- The two flags, and what `init_headless` has returned so far, the last call
first. -/
structure Flags where
  live : Bool
  inited : Bool
  codes : List ℤ

def advance (k : Flags) : Attempt → Happening → Option (Attempt × Flags)
  | .acquiring method, .go =>
      if k.live then some (.over .alreadyRunning, k)
      else some (match method with
        | .here => .stealing
        | .run => .spawning, { k with live := true })
  | .spawning, .succeed => some (.stealing, k)
  | .spawning, .fail => some (.dropping .spawnPanicked, k)
  | .stealing, .succeed => some (.swapping, k)
  | .stealing, .fail => some (.dropping .claim, k)
  | .swapping, .go => some (if k.inited then .batching else .initing, { k with inited := true })
  | .initing, .code rc =>
      some (if rc = 0 then .batching else .resetting rc, { k with codes := rc :: k.codes })
  | .resetting rc, .go => some (.dropping (.initLibrary rc), { k with inited := false })
  | .batching, .go => some (.up, k)
  | .up, .go => some (.dropping .finished, k)
  | .dropping outcome, .go => some (.over outcome, { k with live := false })
  | _, _ => none

structure Process where
  flags : Flags
  attempts : List Attempt

inductive Action
  | begin (method : Method)
  | act (i : ℕ) (happening : Happening)

def Process.step (s : Process) : Action → Option Process
  | .begin method => some { s with attempts := s.attempts ++ [.acquiring method] }
  | .act i happening => (s.attempts[i]?).bind fun t =>
      (advance s.flags t happening).map fun r => ⟨r.2, s.attempts.set i r.1⟩

def Process.start : Process := ⟨⟨false, false, []⟩, []⟩

def Attempt.holds : Attempt → Bool
  | .acquiring _ => false
  | .over _ => false
  | _ => true

/-! ### One step -/

def Flags.Settled (k : Flags) : Prop := k.inited = true ↔ 0 ∈ k.codes

def Attempt.Knows (k : Flags) : Attempt → Prop
  | .initing => k.inited = true ∧ 0 ∉ k.codes
  | .resetting _ => k.inited = true ∧ 0 ∉ k.codes
  | .batching => k.inited = true ∧ 0 ∈ k.codes
  | .up => k.inited = true ∧ 0 ∈ k.codes
  | _ => k.Settled

/-- No call of `init_headless` comes behind a successful one. -/
def Flags.Once (k : Flags) : Prop := 0 ∉ k.codes.tail

inductive Moves : Flags → Attempt → Flags → Attempt → Prop
  | refused {k method} (hlive : k.live = true) :
      Moves k (.acquiring method) k (.over .alreadyRunning)
  | acquired {k method t'} (hlive : k.live = false) (holds : t'.holds = true)
      (knows : k.Settled → t'.Knows { k with live := true }) :
      Moves k (.acquiring method) { k with live := true } t'
  | kept {k t k' t'} (holds : t.holds = true) (holds' : t'.holds = true)
      (hlive : k'.live = k.live) (knows : t.Knows k → t'.Knows k')
      (once : t.Knows k → k.Once → k'.Once) : Moves k t k' t'
  | dropped {k outcome} : Moves k (.dropping outcome) { k with live := false } (.over outcome)

variable {k k' : Flags} {t t' : Attempt} {happening : Happening}

theorem advance_moves : advance k t happening = some (t', k') → Moves k t k' t' := by
  fun_cases advance k t happening with
  | case1 method hlive =>
      intro h
      cases h
      exact .refused hlive
  | case2 method hlive =>
      intro h
      cases h
      refine .acquired (Bool.eq_false_iff.mpr hlive) ?_ ?_
      · cases method <;> rfl
      · cases method <;> exact id
  | case7 =>
      intro h
      cases h
      refine .kept rfl ?_ rfl ?_ fun _ => id
      · cases k.inited <;> rfl
      · intro hsettled
        cases hinited : k.inited with
        | true => exact ⟨rfl, hsettled.mp hinited⟩
        | false => exact ⟨rfl, fun hmem => by simp [hsettled.mpr hmem] at hinited⟩
  | case8 rc =>
      intro h
      cases h
      refine .kept rfl ?_ rfl ?_ fun hknows _ => hknows.2
      · split <;> rfl
      · rintro ⟨hinited, hcodes⟩
        split
        · next hrc => exact ⟨hinited, hrc ▸ List.mem_cons_self⟩
        · next hrc =>
            refine ⟨hinited, ?_⟩
            rw [List.mem_cons]
            rintro (hzero | hmem)
            · exact hrc hzero.symm
            · exact hcodes hmem
  | case9 rc =>
      intro h
      cases h
      refine .kept rfl rfl rfl ?_ fun _ => id
      rintro ⟨-, hcodes⟩
      exact ⟨nofun, fun hmem => absurd hmem hcodes⟩
  | case11 =>
      intro h
      cases h
      exact .kept rfl rfl rfl (fun hknows => ⟨fun _ => hknows.2, fun _ => hknows.1⟩) fun _ => id
  | case12 outcome =>
      intro h
      cases h
      exact .dropped
  | case13 => exact nofun
  | _ =>
      intro h
      cases h
      exact .kept rfl rfl rfl id fun _ => id

/-! ### Runs -/

/-- Either no attempt has the claim, or one has, which knows whether the library
was initialised. -/
structure Process.Inv (s : Process) : Prop where
  once : s.flags.Once
  claim : s.flags.live = false ∧
      (∀ (i : ℕ) (t : Attempt), s.attempts[i]? = some t → t.holds = false) ∧ s.flags.Settled ∨
    s.flags.live = true ∧ ∃ (i : ℕ) (t : Attempt), s.attempts[i]? = some t ∧ t.holds = true ∧
      t.Knows s.flags ∧ ∀ (j : ℕ) (u : Attempt), s.attempts[j]? = some u → u.holds = true → j = i

variable {s s' : Process} {action : Action} {i : ℕ}

theorem Process.inv_set (hs : s.Inv) (ht : s.attempts[i]? = some t)
    (hmoves : Moves s.flags t k' t') : Process.Inv ⟨k', s.attempts.set i t'⟩ := by
  obtain ⟨once, ⟨hlive, hnone, hsettled⟩ | ⟨hlive, j, u, hu, hholds, hknows, hunique⟩⟩ := hs
  -- No attempt has the claim: the move can only take it.
  · cases hmoves with
    | refused hlive' =>
        rw [hlive] at hlive'
        cases hlive'
    | acquired _ holds knows =>
        refine ⟨once, .inr ⟨rfl, i, t', getElem?_set_of_some ht, holds, knows hsettled, ?_⟩⟩
        intro j u hj hu
        rcases getElem?_set_cases hj with ⟨hij, -⟩ | ⟨-, hj⟩
        · exact hij
        · rw [hnone j u hj] at hu
          cases hu
    | kept holds =>
        rw [hnone i t ht] at holds
        cases holds
    | dropped => cases hnone i _ ht
  -- One attempt has it: only that one can keep it or give it up.
  · cases hmoves with
    | refused hlive' =>
        refine ⟨once, .inr ⟨hlive, j, u, ?_, hholds, hknows, ?_⟩⟩
        · have hne : i ≠ j := by
            rintro rfl
            rw [ht] at hu
            cases hu
            cases hholds
          rw [List.getElem?_set_ne hne, hu]
        · intro j' u' hj' hu'
          rcases getElem?_set_cases hj' with ⟨-, rfl⟩ | ⟨-, hj'⟩
          · cases hu'
          · exact hunique j' u' hj' hu'
    | acquired hlive' =>
        rw [hlive] at hlive'
        cases hlive'
    | kept holds holds' hlive' knows once' =>
        obtain rfl := hunique i t ht holds
        obtain rfl : t = u := Option.some.inj (ht.symm.trans hu)
        refine ⟨once' hknows once, .inr ⟨hlive'.trans hlive, i, t', getElem?_set_of_some ht, holds',
          knows hknows, ?_⟩⟩
        intro j' u' hj' hu'
        rcases getElem?_set_cases hj' with ⟨hij, -⟩ | ⟨-, hj'⟩
        · exact hij
        · exact hunique j' u' hj' hu'
    | dropped =>
        obtain rfl := hunique i _ ht rfl
        obtain rfl : _ = u := Option.some.inj (ht.symm.trans hu)
        refine ⟨once, .inl ⟨rfl, ?_, hknows⟩⟩
        intro j' u' hj'
        rcases getElem?_set_cases hj' with ⟨-, rfl⟩ | ⟨hne, hj'⟩
        · rfl
        · exact Bool.eq_false_iff.mpr fun hu' => hne (hunique j' u' hj' hu')

theorem Process.inv_begin (hs : s.Inv) (method : Method) :
    Process.Inv { s with attempts := s.attempts ++ [.acquiring method] } := by
  obtain ⟨once, ⟨hlive, hnone, hsettled⟩ | ⟨hlive, j, u, hu, hholds, hknows, hunique⟩⟩ := hs
  · refine ⟨once, .inl ⟨hlive, fun i t ht => ?_, hsettled⟩⟩
    rcases getElem?_concat_cases ht with ⟨-, rfl⟩ | ht
    · rfl
    · exact hnone i t ht
  · refine ⟨once, .inr ⟨hlive, j, u, ?_, hholds, hknows, fun i t ht ht' => ?_⟩⟩
    · obtain ⟨hlt, -⟩ := List.getElem?_eq_some_iff.mp hu
      rw [List.getElem?_append_left hlt, hu]
    · rcases getElem?_concat_cases ht with ⟨-, rfl⟩ | ht
      · cases ht'
      · exact hunique i t ht ht'

theorem Process.inv_step (hs : s.Inv) (h : s.step action = some s') : s'.Inv := by
  cases action with
  | begin method =>
      cases h
      exact inv_begin hs method
  | act i happening =>
      obtain ⟨t, ht, h⟩ := Option.bind_eq_some_iff.mp h
      obtain ⟨⟨t', k'⟩, hadvance, rfl⟩ := Option.map_eq_some_iff.mp h
      exact inv_set hs ht (advance_moves hadvance)

theorem Process.inv_start : Process.start.Inv :=
  ⟨by simp [Flags.Once, Process.start], .inl ⟨rfl, by simp [Process.start], nofun, nofun⟩⟩

theorem Process.inv_of_reaches (h : Reaches step start s) : s.Inv :=
  h.invariant (fun _ _ _ => inv_step) inv_start

/-! ### Coming up and leaving -/

def Process.Free (s : Process) : Prop :=
  ∀ (i : ℕ) (t : Attempt), s.attempts[i]? = some t → t.holds = false

theorem Process.step_act (ht : s.attempts[i]? = some t)
    (h : advance s.flags t happening = some (t', k')) :
    s.step (.act i happening) = some ⟨k', s.attempts.set i t'⟩ := by
  rw [step, ht, Option.bind_some, h]
  rfl

def Attempt.weight : Attempt → ℕ
  | .spawning => 8
  | .stealing => 7
  | .swapping => 6
  | .initing => 5
  | .resetting _ => 4
  | .batching => 3
  | .up => 2
  | .dropping _ => 1
  | _ => 0

theorem exists_advance_of_holds (k : Flags) (h : t.holds = true) :
    ∃ happening t' k', advance k t happening = some (t', k') ∧ t'.weight < t.weight := by
  cases t with
  | acquiring method => cases h
  | spawning => exact ⟨.fail, _, _, rfl, by decide⟩
  | stealing => exact ⟨.fail, _, _, rfl, by decide⟩
  | swapping =>
      refine ⟨.go, _, _, rfl, ?_⟩
      cases k.inited <;> decide
  | initing => exact ⟨.code 0, _, _, rfl, by decide⟩
  | resetting rc => exact ⟨.go, _, _, rfl, by simp [Attempt.weight]⟩
  | batching => exact ⟨.go, _, _, rfl, by decide⟩
  | up => exact ⟨.go, _, _, rfl, by decide⟩
  | dropping outcome => exact ⟨.go, _, _, rfl, Nat.one_pos⟩
  | «over» outcome => cases h

/-- Whoever has the claim can give it up. -/
theorem Process.exists_free (s : Process) : ∃ s', Reaches step s s' ∧ s'.Free := by
  suffices h : ∃ s', Reaches step s s' ∧ True ∧ s'.Free by
    obtain ⟨s', hreaches, -, hfree⟩ := h
    exact ⟨s', hreaches, hfree⟩
  refine exists_reaches_of_measure (fun s => (s.attempts.map Attempt.weight).sum) ?_ trivial
  intro s _ hfree
  obtain ⟨i, t, ht, hholds⟩ : ∃ (i : ℕ) (t : Attempt), s.attempts[i]? = some t ∧ t.holds = true := by
    simpa [Free] using hfree
  obtain ⟨happening, t', k', hadvance, hlt⟩ := exists_advance_of_holds s.flags hholds
  refine ⟨_, _, step_act ht hadvance, trivial, ?_⟩
  have hsum := sum_map_set Attempt.weight t' ht
  show ((s.attempts.set i t').map Attempt.weight).sum < (s.attempts.map Attempt.weight).sum
  omega

theorem Process.step_last {attempts : List Attempt}
    (h : advance k t happening = some (t', k')) :
    step ⟨k, attempts ++ [t]⟩ (.act attempts.length happening) = some ⟨k', attempts ++ [t']⟩ := by
  have ht : (attempts ++ [t])[attempts.length]? = some t := List.getElem?_concat_length
  rw [step_act ht h]
  simp

theorem Process.exists_up_of_stealing (attempts : List Attempt)
    (hinited : k.inited = true → 0 ∈ k.codes) :
    ∃ k', Reaches step ⟨k, attempts ++ [.stealing]⟩ ⟨k', attempts ++ [.up]⟩ ∧ 0 ∈ k'.codes := by
  have hstolen : advance k .stealing .succeed = some (.swapping, k) := rfl
  have hbatched (k : Flags) : advance k .batching .go = some (.up, k) := rfl
  cases hk : k.inited with
  | true =>
      have hswapped : advance k .swapping .go = some (.batching, { k with inited := true }) := by
        rw [advance, hk]
        rfl
      refine ⟨_, .head (step_last hstolen) (.head (step_last hswapped)
        (.head (step_last (hbatched _)) (.refl _))), ?_⟩
      exact hinited hk
  | false =>
      have hswapped : advance k .swapping .go = some (.initing, { k with inited := true }) := by
        rw [advance, hk]
        rfl
      have hcoded : advance { k with inited := true } .initing (.code 0) =
          some (.batching, ⟨k.live, true, 0 :: k.codes⟩) := rfl
      refine ⟨_, .head (step_last hstolen) (.head (step_last hswapped)
        (.head (step_last hcoded) (.head (step_last (hbatched _)) (.refl _)))), ?_⟩
      exact List.mem_cons_self

/-- A new attempt comes up if no other has the claim and nothing goes wrong. -/
theorem Process.Inv.exists_up (hs : s.Inv) (hfree : s.Free) (method : Method) :
    ∃ s', step s (.begin method) = some s' ∧
      ∃ k', Reaches step s' ⟨k', s.attempts ++ [.up]⟩ ∧ 0 ∈ k'.codes := by
  obtain ⟨-, ⟨hlive, -, hsettled⟩ | ⟨-, i, t, ht, hholds, -⟩⟩ := hs
  · obtain ⟨k', hup, hcodes⟩ := exists_up_of_stealing (k := { s.flags with live := true })
      s.attempts hsettled.mp
    refine ⟨_, rfl, k', ?_, hcodes⟩
    cases method with
    | here =>
        have hacquired : advance s.flags (.acquiring .here) .go =
            some (.stealing, { s.flags with live := true }) := by
          rw [advance, hlive]
          rfl
        exact .head (step_last hacquired) hup
    | run =>
        have hacquired : advance s.flags (.acquiring .run) .go =
            some (.spawning, { s.flags with live := true }) := by
          rw [advance, hlive]
          rfl
        have hspawned : advance { s.flags with live := true } .spawning .succeed =
            some (.stealing, { s.flags with live := true }) := rfl
        exact .head (step_last hacquired) (.head (step_last hspawned) hup)
  · rw [hfree i t ht] at hholds
    cases hholds

/-- In every state that any attempts can reach, at most one of them has the
claim, the library has not been initialised again after it was, and, once the
claim is given up, as it always can be, a new attempt comes up. -/
theorem claim_safe (h : Reaches Process.step .start s) :
    (∀ (i j : ℕ) (t u : Attempt), s.attempts[i]? = some t → s.attempts[j]? = some u →
      t.holds = true → u.holds = true → i = j) ∧
    (∀ newer older, s.flags.codes = newer ++ 0 :: older → newer = []) ∧
    (∃ s', Reaches Process.step s s' ∧ s'.Free) ∧
    (s.Free → s.flags.live = false ∧ (s.flags.inited = true ↔ 0 ∈ s.flags.codes) ∧
      ∀ method : Method, ∃ s', Process.step s (.begin method) = some s' ∧
        ∃ k', Reaches Process.step s' ⟨k', s.attempts ++ [.up]⟩ ∧ 0 ∈ k'.codes) := by
  have hs := Process.inv_of_reaches h
  refine ⟨?_, ?_, s.exists_free, fun hfree => ⟨?_, ?_, hs.exists_up hfree⟩⟩
  · intro i j t u hi hj ht hu
    rcases hs.claim with ⟨-, hnone, -⟩ | ⟨-, l, v, -, -, -, hunique⟩
    · rw [hnone i t hi] at ht
      cases ht
    · rw [hunique i t hi ht, hunique j u hj hu]
  · intro newer older hcodes
    cases newer with
    | nil => rfl
    | cons rc newer =>
        refine absurd ?_ hs.once
        rw [hcodes]
        simp
  · rcases hs.claim with ⟨hlive, -, -⟩ | ⟨-, i, t, ht, hholds, -⟩
    · exact hlive
    · rw [hfree i t ht] at hholds
      cases hholds
  · rcases hs.claim with ⟨-, -, hsettled⟩ | ⟨-, i, t, ht, hholds, -⟩
    · exact hsettled
    · rw [hfree i t ht] at hholds
      cases hholds

/-- A first attempt fails to initialise the library, and a second one comes up
while a third is refused. -/
theorem claim_safe_retry :
    ∃ s, Reaches Process.step .start s ∧
      s = ⟨⟨true, true, [0, -1]⟩, [.over (.initLibrary (-1)), .up, .over .alreadyRunning]⟩ ∧
      ∀ newer older, s.flags.codes = newer ++ 0 :: older → newer = [] := by
  have hrun : Reaches Process.step .start
      ⟨⟨true, true, [0, -1]⟩, [.over (.initLibrary (-1)), .up, .over .alreadyRunning]⟩ :=
    ⟨[.begin .here, .act 0 .go, .act 0 .succeed, .act 0 .go, .act 0 (.code (-1)), .act 0 .go,
      .begin .run, .begin .here, .act 0 .go, .act 1 .go, .act 1 .succeed, .act 2 .go,
      .act 1 .succeed, .act 1 .go, .act 1 (.code 0), .act 1 .go], rfl⟩
  exact ⟨_, hrun, rfl, (claim_safe hrun).2.1⟩

end Idakit.Kernel
