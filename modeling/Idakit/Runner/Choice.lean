import Mathlib.Data.List.MinMax
import Mathlib.Algebra.Order.Field.Rat
import Mathlib.Algebra.Order.Field.Basic
import Idakit.Runner.Scheduler

/-!
Which case a worker is given. While its last group has cases, the earliest of
them; after that, the earliest of the cases that are worth most, where joining
a group is worth the group's pending cases for each worker that would then be
on it. The case given leaves the queue, and the others stay as they were.

The scheduler compares the worth of two places by cross-multiplying, and here
they are rational numbers.
-/

namespace Idakit.Runner

open Idakit.Types

namespace GroupWorkers

def on (w : GroupWorkers) (group : Text) : ℕ := (w.get group).getD 0

theorem on_enter (w : GroupWorkers) (group g : Text) :
    (w.enter group).on g = w.on g + if g = group then 1 else 0 := by
  rw [on, enter]
  dsimp only
  split
  · next h =>
      subst h
      rfl
  · rfl

theorem on_leave (w : GroupWorkers) (group g : Text) :
    (w.leave group).on g = w.on g - if g = group then 1 else 0 := by
  rw [on, leave]
  dsimp only
  split
  · next h =>
      subst h
      rw [on]
      cases w.get g with
      | none => rfl
      | some count =>
          show Option.getD (if count - 1 = 0 then none else some (count - 1)) 0 = count - 1
          split <;> simp_all
  · rfl

/-- A group has an entry just if somebody is on it. -/
theorem get_eq (w : GroupWorkers) (group : Text) :
    w.get group = if w.on group = 0 then none else some (w.on group) := by
  rw [on]
  cases hget : w.get group with
  | none => rfl
  | some count =>
      have hpos := w.pos group count hget
      rw [Option.getD_some, if_neg (by omega)]

end GroupWorkers

/-! ### The best score -/

def Score.rate (x : Score) : ℚ := x.cases / x.workers

theorem Score.best_eq (b next : Score) (hb : 0 < b.workers) (hnext : 0 < next.workers) :
    Score.best (some b) next = if b.rate < next.rate then some next else some b := by
  have hb' : (0 : ℚ) < b.workers := Nat.cast_pos.mpr hb
  have hnext' : (0 : ℚ) < next.workers := Nat.cast_pos.mpr hnext
  have hiff : next.cases * b.workers > b.cases * next.workers ↔ b.rate < next.rate := by
    rw [Score.rate, Score.rate, div_lt_div_iff₀ hb' hnext']
    norm_cast
  rw [Score.best]
  simp only [hiff]

/-- The best of some scores is the first with the largest fraction. -/
theorem foldl_best_eq_argmax {scores : List Score} (hpos : ∀ x ∈ scores, 0 < x.workers) :
    scores.foldl Score.best none = scores.argmax Score.rate := by
  induction scores using List.reverseRecOn with
  | nil => rfl
  | append_singleton scores next ih =>
      have hscores : ∀ x ∈ scores, 0 < x.workers := fun x hx => hpos x (by simp [hx])
      have hnext : 0 < next.workers := hpos next (by simp)
      rw [List.foldl_append, ih hscores, List.argmax_concat]
      cases hbest : scores.argmax Score.rate with
      | none => rfl
      | some b => exact Score.best_eq b next (hscores b (List.argmax_mem hbest)) hnext

/-- The first of the largest has smaller ones before it. -/
theorem argmax_split {α β : Type} [LinearOrder β] {f : α → β} {l : List α} {m : α}
    (h : l.argmax f = some m) :
    ∃ before after, l = before ++ m :: after ∧ (∀ x ∈ before, f x < f m) ∧ ∀ x ∈ l, f x ≤ f m := by
  classical
  obtain ⟨hmem, hle, hfirst⟩ := List.mem_argmax_iff.mp h
  obtain ⟨before, after, rfl, hnot⟩ := List.eq_append_cons_of_mem hmem
  refine ⟨before, after, rfl, fun x hx => ?_, hle⟩
  by_contra hlt
  have hidx := hfirst x (by simp [hx]) (not_lt.mp hlt)
  rw [List.idxOf_append_of_notMem hnot, List.idxOf_append_of_mem hx, List.idxOf_cons_self] at hidx
  have hxlt := List.idxOf_lt_length_of_mem hx
  omega

theorem zipIdx_split {α : Type} {l : List α} {pairs pairs' : List (α × ℕ)} {p : α × ℕ}
    (h : l.zipIdx = pairs ++ p :: pairs') :
    ∃ before after, l = before ++ p.1 :: after ∧ pairs = before.zipIdx ∧ p.2 = before.length := by
  obtain ⟨before, tail, rfl, hpairs, htail⟩ := List.zipIdx_eq_append_iff.mp h
  obtain ⟨x, after, rfl, rfl, -⟩ := List.zipIdx_eq_cons_iff.mp htail.symm
  exact ⟨before, after, rfl, hpairs, Nat.zero_add _⟩

theorem exists_mem_zipIdx {α : Type} {l : List α} {x : α} (h : x ∈ l) :
    ∃ i, (x, i) ∈ l.zipIdx := by
  rw [← List.zipIdx_map_fst 0 l] at h
  obtain ⟨⟨x, i⟩, hp, rfl⟩ := List.mem_map.mp h
  exact ⟨i, hp⟩

/-! ### Where to go next -/

/-- What a pending case is worth, with so many workers on each group. -/
def worth (pending : List Case) (workers : Text → ℕ) (c : Case) : ℚ :=
  match c.group with
  | none => 1 / (0 + 1)
  | some group => pending.countP (·.group = some group) / (workers group + 1)

/-- The earliest of the pending cases that are good is given and leaves the
queue. -/
def GivesEarliest (good : Case → Prop) (pending : List Case) (given : Option Case)
    (rest : List Case) : Prop :=
  pending = [] ∧ given = none ∧ rest = [] ∨
    ∃ before c after, pending = before ++ c :: after ∧ good c ∧ (∀ b ∈ before, ¬good b) ∧
      given = some c ∧ rest = before ++ after

namespace Scheduler

variable {s : Scheduler}

theorem score_workers_pos (s : Scheduler) (c : Case) (index : ℕ) :
    0 < (s.score c index).workers := by
  rw [score]
  split
  · exact Nat.one_pos
  · exact Nat.succ_pos _

@[simp] theorem score_index (s : Scheduler) (c : Case) (index : ℕ) :
    (s.score c index).index = index := by
  rw [score]
  split <;> rfl

theorem score_rate (s : Scheduler) (c : Case) (index : ℕ) :
    (s.score c index).rate = worth s.pending s.workers.on c := by
  cases hgroup : c.group with
  | none => simp [score, worth, hgroup, Score.rate]
  | some group => simp [score, worth, hgroup, Score.rate, GroupWorkers.on]

/-- The best index is that of the earliest case worth most. -/
theorem bestIndex_spec (s : Scheduler) :
    s.bestIndex = none ∧ s.pending = [] ∨
      ∃ before c after, s.pending = before ++ c :: after ∧ s.bestIndex = some before.length ∧
        (∀ b ∈ before, worth s.pending s.workers.on b < worth s.pending s.workers.on c) ∧
        ∀ d ∈ s.pending, worth s.pending s.workers.on d ≤ worth s.pending s.workers.on c := by
  rcases s.bestIndex_cases with hnone | ⟨index, hindex, -⟩
  · exact .inl hnone
  · right
    have hpos : ∀ x ∈ s.pending.zipIdx.map fun p => s.score p.1 p.2, 0 < x.workers := by
      intro x hx
      obtain ⟨p, -, rfl⟩ := List.mem_map.mp hx
      exact s.score_workers_pos p.1 p.2
    rw [bestIndex, foldl_best_eq_argmax hpos] at hindex ⊢
    obtain ⟨m, hm, rfl⟩ := Option.map_eq_some_iff.mp hindex
    obtain ⟨befores, afters, hsplit, hbefore, hle⟩ := argmax_split hm
    obtain ⟨pairs, rest, hzip, rfl, hrest⟩ := List.map_eq_append_iff.mp hsplit
    obtain ⟨p, pairs', rfl, rfl, -⟩ := List.map_eq_cons_iff.mp hrest
    obtain ⟨before, after, hpending, rfl, hlength⟩ := zipIdx_split hzip
    refine ⟨before, p.1, after, hpending, ?_, fun b hb => ?_, fun d hd => ?_⟩
    · rw [hm, Option.map_some, score_index, hlength]
    · obtain ⟨i, hi⟩ := exists_mem_zipIdx hb
      have hlt := hbefore _ (List.mem_map_of_mem hi)
      rwa [score_rate, score_rate] at hlt
    · obtain ⟨i, hi⟩ := exists_mem_zipIdx hd
      have hworth := hle _ (List.mem_map_of_mem hi)
      rwa [score_rate, score_rate] at hworth

theorem remove_of_split {before after : List Case} {c : Case}
    (h : s.pending = before ++ c :: after) :
    s.remove before.length = some (c, { s with pending := before ++ after }) := by
  have herase : (before ++ c :: after).eraseIdx before.length = before ++ after := by
    rw [List.eraseIdx_append_of_length_le (Nat.le_refl _), Nat.sub_self, List.eraseIdx_cons_zero]
  rw [remove, h, herase]
  simp

/-- Away from any group, a worker gets the earliest of the cases worth most. -/
theorem takeBest_choice (s : Scheduler) :
    ∃ given s', s.takeBest = some (given, s') ∧
      GivesEarliest
        (fun c => ∀ d ∈ s.pending, worth s.pending s.workers.on d ≤ worth s.pending s.workers.on c)
        s.pending given s'.pending := by
  rcases s.bestIndex_spec with ⟨hnone, hpending⟩ | ⟨before, c, after, hpending, hindex, hlt, hle⟩
  · refine ⟨none, s, ?_, .inl ⟨hpending, rfl, hpending⟩⟩
    rw [takeBest, hnone]
  · have hearliest : ∀ rest, rest = before ++ after → GivesEarliest
        (fun c => ∀ d ∈ s.pending, worth s.pending s.workers.on d ≤ worth s.pending s.workers.on c)
        s.pending (some c) rest := by
      rintro rest rfl
      refine .inr ⟨before, c, after, hpending, hle, fun b hb hbest => ?_, rfl, rfl⟩
      have hc := hbest c (by simp [hpending])
      exact absurd (hlt b hb) (not_lt.mpr hc)
    rw [takeBest, hindex]
    simp only [remove_of_split hpending, Option.map_some]
    split
    · exact ⟨some c, _, rfl, hearliest _ rfl⟩
    · exact ⟨some c, _, rfl, hearliest _ rfl⟩

/-- The earliest case of the last group. -/
theorem findIdx_split {group : Text} {index : ℕ}
    (h : s.pending.findIdx? (·.group = some group) = some index) :
    ∃ before c after, s.pending = before ++ c :: after ∧ before.length = index ∧
      c.group = some group ∧ ∀ b ∈ before, b.group ≠ some group := by
  obtain ⟨hlt, hgood, hbefore⟩ := List.findIdx?_eq_some_iff_getElem.mp h
  refine ⟨s.pending.take index, s.pending[index], s.pending.drop (index + 1), ?_, ?_, ?_, ?_⟩
  · simp
  · rw [List.length_take]
    omega
  · simpa using hgood
  · intro b hb
    obtain ⟨j, hj, rfl⟩ := List.mem_take_iff_getElem.mp hb
    simpa using hbefore j (by omega)

end Scheduler

/-- How many workers are on each group once the caller has left its last one. -/
def workersWithout (w : GroupWorkers) (current : Option Text) (group : Text) : ℕ :=
  w.on group - if current = some group then 1 else 0

/-- A worker is given the earliest pending case of its last group while there is
one, and after that the earliest of those worth most to a worker without a
group. One case leaves the queue, and the others keep their order. What is
compared are naturals here; that the products fit into 64 bits in every run is
`products_lt`. -/
theorem take_choice (s : Scheduler) (current : Option Text) :
    ∃ given s', s.take current = some (given, s') ∧
      ((∃ group, current = some group ∧ (∃ c ∈ s.pending, c.group = some group) ∧
        GivesEarliest (fun c => c.group = some group) s.pending given s'.pending) ∨
      ((∀ group, current = some group → ∀ c ∈ s.pending, c.group ≠ some group) ∧
        GivesEarliest
          (fun c => ∀ d ∈ s.pending, worth s.pending (workersWithout s.workers current) d ≤
            worth s.pending (workersWithout s.workers current) c)
          s.pending given s'.pending)) := by
  cases current with
  | none =>
      obtain ⟨given, s', htake, hgives⟩ := s.takeBest_choice
      have hworkers : workersWithout s.workers none = s.workers.on := by
        ext g
        simp [workersWithout]
      refine ⟨given, s', htake, .inr ⟨nofun, ?_⟩⟩
      rwa [hworkers]
  | some group =>
      rw [Scheduler.take]
      cases hindex : s.pending.findIdx? (·.group = some group) with
      | some index =>
          -- The caller's own group goes first; only behind it is a place chosen by its worth.
          obtain ⟨before, c, after, hpending, rfl, hc, hbefore⟩ := Scheduler.findIdx_split hindex
          simp only [Scheduler.remove_of_split hpending, Option.map_some]
          refine ⟨some c, _, rfl, .inl ⟨group, rfl, ⟨c, by simp [hpending], hc⟩, ?_⟩⟩
          exact .inr ⟨before, c, after, hpending, hc, hbefore, rfl, rfl⟩
      | none =>
          obtain ⟨given, s', htake, hgives⟩ :=
            Scheduler.takeBest_choice { s with workers := s.workers.leave group }
          have hworkers : workersWithout s.workers (some group) = (s.workers.leave group).on := by
            ext g
            rw [workersWithout, GroupWorkers.on_leave]
            simp only [Option.some.injEq, eq_comm]
          refine ⟨given, s', htake, .inr ⟨?_, ?_⟩⟩
          · rintro _ ⟨⟩ c hc
            simpa using List.findIdx?_eq_none_iff.mp hindex c hc
          · rwa [hworkers]

end Idakit.Runner
