import Mathlib.Data.List.Perm.Basic
import Idakit.Types.Table

/-!
Handing out the pending cases of a run. A worker stays in its group while the
group has cases, and else goes where the pending cases for each worker are
most. Whatever it hands out, it hands out once.

Removing past the end of the queue would panic; `none` stands for that.
-/

namespace Idakit.Runner

open Idakit.Types

structure Case where
  name : Text
  group : Option Text
  deriving DecidableEq

/-- How many workers are on each group. An entry that reaches zero is taken
out. -/
structure GroupWorkers where
  get : Text → Option ℕ
  pos : ∀ group count, get group = some count → 0 < count

/-- The cases not handed out yet, in the order they were given. -/
structure Scheduler where
  pending : List Case
  workers : GroupWorkers

namespace GroupWorkers

def empty : GroupWorkers := ⟨fun _ => none, fun _ _ h => nomatch h⟩

def enter (w : GroupWorkers) (group : Text) : GroupWorkers where
  get g := if g = group then some ((w.get group).getD 0 + 1) else w.get g
  pos g count h := by
    split at h
    · cases h
      exact Nat.succ_pos _
    · exact w.pos g count h

def leave (w : GroupWorkers) (group : Text) : GroupWorkers where
  get g := if g = group then (w.get group).bind fun count =>
      if count - 1 = 0 then none else some (count - 1)
    else w.get g
  pos g count h := by
    split at h
    · obtain ⟨old, -, hcount⟩ := Option.bind_eq_some_iff.mp h
      split at hcount
      · cases hcount
      · next hne =>
          cases hcount
          exact Nat.pos_of_ne_zero hne
    · exact w.pos g count h

end GroupWorkers

/-- A pending case as a place to go: its group's cases for each worker that
would then be on it. -/
structure Score where
  index : ℕ
  cases : ℕ
  workers : ℕ

/-- The better of the best so far and the next, the earlier one if they are
equal. Fractions are compared by cross-multiplying. -/
def Score.best (best : Option Score) (next : Score) : Option Score :=
  match best with
  | none => some next
  | some b => if next.cases * b.workers > b.cases * next.workers then some next else some b

namespace Scheduler

def score (s : Scheduler) (c : Case) (index : ℕ) : Score :=
  match c.group with
  | none => ⟨index, 1, 1⟩
  | some group =>
      ⟨index, s.pending.countP (·.group = some group), (s.workers.get group).getD 0 + 1⟩

/-- The pending case whose group offers the most work per additional open. -/
def bestIndex (s : Scheduler) : Option ℕ :=
  ((s.pending.zipIdx.map fun p => s.score p.1 p.2).foldl Score.best none).map Score.index

def remove (s : Scheduler) (index : ℕ) : Option (Case × Scheduler) :=
  (s.pending[index]?).map fun c => (c, { s with pending := s.pending.eraseIdx index })

def takeBest (s : Scheduler) : Option (Option Case × Scheduler) :=
  match s.bestIndex with
  | none => some (none, s)
  | some index => (s.remove index).map fun p =>
      match p.1.group with
      | none => (some p.1, p.2)
      | some group => (some p.1, { p.2 with workers := p.2.workers.enter group })

/-- The next case for a worker whose last one was in a group. -/
def take (s : Scheduler) (current : Option Text) : Option (Option Case × Scheduler) :=
  match current with
  | none => s.takeBest
  | some group =>
      match s.pending.findIdx? (·.group = some group) with
      | some index => (s.remove index).map fun p => (some p.1, p.2)
      | none => { s with workers := s.workers.leave group }.takeBest

def drain (s : Scheduler) : List Case × Scheduler := (s.pending, { s with pending := [] })

end Scheduler

/-! ### What is handed out -/

theorem Score.best_isSome (best : Option Score) (next : Score) : (Score.best best next).isSome := by
  cases best with
  | none => rfl
  | some b =>
      rw [Score.best]
      split <;> rfl

/-- The best of some places is one of them. -/
theorem foldl_best_mem {scores : List Score} {start result : Score}
    (h : scores.foldl Score.best (some start) = some result) :
    result = start ∨ result ∈ scores := by
  induction scores generalizing start with
  | nil =>
      cases h
      exact .inl rfl
  | cons next scores ih =>
      obtain ⟨middle, hmiddle⟩ := Option.isSome_iff_exists.mp (Score.best_isSome (some start) next)
      rw [List.foldl_cons, hmiddle] at h
      have hcases : middle = start ∨ middle = next := by
        rw [Score.best] at hmiddle
        split at hmiddle
        · exact .inr (Option.some.inj hmiddle).symm
        · exact .inl (Option.some.inj hmiddle).symm
      rcases ih h with rfl | hmem
      · rcases hcases with rfl | rfl
        · exact .inl rfl
        · exact .inr List.mem_cons_self
      · exact .inr (List.mem_cons_of_mem next hmem)

theorem foldl_best_isSome (scores : List Score) {start : Option Score} (h : start.isSome) :
    (scores.foldl Score.best start).isSome := by
  induction scores generalizing start with
  | nil => exact h
  | cons next scores ih => exact ih (Score.best_isSome start next)

namespace Scheduler

variable {s s' : Scheduler}

/-- There is a best index exactly when something is pending, and it is in
range. -/
theorem bestIndex_cases (s : Scheduler) :
    s.bestIndex = none ∧ s.pending = [] ∨
      ∃ index, s.bestIndex = some index ∧ index < s.pending.length := by
  cases hpending : s.pending with
  | nil =>
      left
      simp [bestIndex, hpending]
  | cons c rest =>
      right
      -- There is a best score as soon as there is one, and it is that of a pending case.
      let scores := s.pending.zipIdx.map fun p => s.score p.1 p.2
      have hscores : scores = s.score c 0 :: (rest.zipIdx 1).map fun p => s.score p.1 p.2 := by
        show s.pending.zipIdx.map _ = _
        rw [hpending]
        rfl
      have hsome : (scores.foldl Score.best none).isSome := by
        rw [hscores, List.foldl_cons]
        exact foldl_best_isSome _ rfl
      obtain ⟨result, hresult⟩ := Option.isSome_iff_exists.mp hsome
      have hmem : result ∈ scores := by
        rw [hscores, List.foldl_cons] at hresult
        rw [hscores]
        rcases foldl_best_mem hresult with rfl | hmem
        · exact List.mem_cons_self
        · exact List.mem_cons_of_mem _ hmem
      obtain ⟨⟨c', index⟩, hp, rfl⟩ := List.mem_map.mp hmem
      have hindex : (s.score c' index).index = index := by
        rw [score]
        split <;> rfl
      refine ⟨index, ?_, ?_⟩
      · show (scores.foldl Score.best none).map Score.index = _
        rw [hresult, Option.map_some, hindex]
      · rw [← hpending]
        have hlt := List.snd_lt_of_mem_zipIdx hp
        omega

theorem remove_of_lt {index : ℕ} (h : index < s.pending.length) :
    ∃ c rest, s.remove index = some (c, { s with pending := rest }) ∧
      s.pending.Perm (c :: rest) := by
  refine ⟨s.pending[index], s.pending.eraseIdx index, ?_, ?_⟩
  · rw [remove, List.getElem?_eq_getElem h]
    rfl
  · exact (List.getElem_cons_eraseIdx_perm h).symm

/-- What a worker gets: a pending case, which is taken out, or nothing once
nothing is pending. -/
def Gives (s : Scheduler) (given : Option Case) (s' : Scheduler) : Prop :=
  match given with
  | some c => s.pending.Perm (c :: s'.pending)
  | none => s.pending = [] ∧ s'.pending = []

theorem takeBest_gives (s : Scheduler) :
    ∃ given s', s.takeBest = some (given, s') ∧ s.Gives given s' := by
  rcases s.bestIndex_cases with ⟨hnone, hpending⟩ | ⟨index, hsome, hlt⟩
  · refine ⟨none, s, ?_, hpending, hpending⟩
    rw [takeBest, hnone]
  · obtain ⟨c, rest, hremove, hperm⟩ := remove_of_lt hlt
    rw [takeBest, hsome]
    simp only [hremove, Option.map_some]
    cases hgroup : c.group with
    | none => exact ⟨some c, _, rfl, hperm⟩
    | some group => exact ⟨some c, _, rfl, hperm⟩

/-- Taking never panics, and gives every pending case once. -/
theorem take_gives (s : Scheduler) (current : Option Text) :
    ∃ given s', s.take current = some (given, s') ∧ s.Gives given s' := by
  cases current with
  | none => exact s.takeBest_gives
  | some group =>
      rw [take]
      cases hindex : s.pending.findIdx? (·.group = some group) with
      | none => exact takeBest_gives _
      | some index =>
          have hlt : index < s.pending.length := by
            obtain ⟨hlt, -⟩ := List.findIdx?_eq_some_iff_getElem.mp hindex
            exact hlt
          obtain ⟨c, rest, hremove, hperm⟩ := remove_of_lt hlt
          simp only [hremove, Option.map_some]
          exact ⟨some c, _, rfl, hperm⟩

end Scheduler

end Idakit.Runner
