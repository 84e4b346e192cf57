import Mathlib.Logic.Function.Basic
import Mathlib.Data.Nat.Notation

/-!
A process's table of descriptors, which refer to open files. A new descriptor
is the lowest one that is not in use, below a limit.
-/

namespace Idakit.Library

/-- The open file behind each descriptor in use. -/
abbrev Descriptors (φ : Type) := ℕ → Option φ

namespace Descriptors

variable {φ : Type} (limit : ℕ)

/-- The lowest descriptor that is not in use. -/
def unused (fds : Descriptors φ) : Option ℕ :=
  (List.range limit).find? fun fd => (fds fd).isNone

def pipe (fds : Descriptors φ) (read write : φ) : Option (ℕ × ℕ × Descriptors φ) :=
  (unused limit fds).bind fun rd =>
    (unused limit (Function.update fds rd (some read))).map fun wr =>
      (rd, wr, Function.update (Function.update fds rd (some read)) wr (some write))

def dup (fds : Descriptors φ) (fd : ℕ) : Option (ℕ × Descriptors φ) :=
  (fds fd).bind fun file =>
    (unused limit fds).map fun new => (new, Function.update fds new (some file))

def dup2 (fds : Descriptors φ) (source target : ℕ) : Descriptors φ :=
  match fds source with
  | none => fds
  | some file => Function.update fds target (some file)

def close (fds : Descriptors φ) (fd : ℕ) : Descriptors φ := Function.update fds fd none

variable {limit} {fds fds' : Descriptors φ} {fd new rd wr : ℕ}

theorem unused_eq_some_iff :
    unused limit fds = some fd ↔ fds fd = none ∧ fd < limit ∧ ∀ m < fd, fds m ≠ none := by
  simp [unused, Option.isSome_iff_ne_none]

/-- A copy has a descriptor of its own, for the same file. -/
theorem dup_spec (h : dup limit fds fd = some (new, fds')) :
    ∃ file, fds fd = some file ∧ fds new = none ∧ new ≠ fd ∧
      unused limit fds = some new ∧ fds' = Function.update fds new (some file) := by
  simp only [dup, Option.bind_eq_some_iff, Option.map_eq_some_iff, Prod.mk.injEq] at h
  obtain ⟨file, hfile, _, hnew, rfl, rfl⟩ := h
  have hfree := (unused_eq_some_iff.mp hnew).1
  refine ⟨file, hfile, hfree, ?_, hnew, rfl⟩
  rintro rfl
  rw [hfile] at hfree
  contradiction

theorem dup2_apply (source target : ℕ) :
    dup2 fds source target fd =
      if fd = target then (fds source).or (fds target) else fds fd := by
  cases h : fds source with
  | none => simp +contextual [dup2, h]
  | some file => simp [dup2, h, Function.update_apply]

theorem close_apply (closed : ℕ) : close fds closed fd = if fd = closed then none else fds fd := by
  rw [close, Function.update_apply]

/-- The ends of a pipe have two descriptors of their own, in their order. -/
theorem pipe_spec {read write : φ} (h : pipe limit fds read write = some (rd, wr, fds')) :
    fds rd = none ∧ fds wr = none ∧ rd < wr ∧ (∀ m < wr, m ≠ rd → fds m ≠ none) ∧
      fds' = Function.update (Function.update fds rd (some read)) wr (some write) := by
  simp only [pipe, Option.bind_eq_some_iff, Option.map_eq_some_iff, Prod.mk.injEq] at h
  obtain ⟨rd', hrd, wr', hwr, hrd', hwr', rfl⟩ := h
  subst rd' wr'
  obtain ⟨hrdFree, -, hrdLow⟩ := unused_eq_some_iff.mp hrd
  obtain ⟨hwrFree, -, hwrLow⟩ := unused_eq_some_iff.mp hwr
  have hne : wr ≠ rd := by
    rintro rfl
    simp at hwrFree
  rw [Function.update_of_ne hne] at hwrFree
  have hlt : rd < wr := by
    have : ¬ wr < rd := fun hlt => hrdLow wr hlt hwrFree
    omega
  refine ⟨hrdFree, hwrFree, hlt, fun m hm hmrd => ?_, rfl⟩
  simpa [Function.update_of_ne hmrd] using hwrLow m hm

end Descriptors

end Idakit.Library
