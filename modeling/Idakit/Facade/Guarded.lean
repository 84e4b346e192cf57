import Idakit.Library.Descriptors
import Idakit.Library.Transition
import Idakit.Library.Utf8
import Idakit.Library.Whitespace

/-!
Calls into the kernel under a guard, which traps what would end the process.
The kernel leaves a call in one of four ways: it returns, it calls `exit` or
`abort`, which the facade's stand-ins turn into a `longjmp`, or it raises an
internal error, which is thrown while the mode for that is on. What the kernel
and the system answer is part of a call.

A guarded call does not return where the drain of its pipe finds a write end
still open.
-/

namespace Idakit.Facade

open Idakit.Library

inductive File
  | outside (name : ℕ)
  | readEnd (pipe : ℕ)
  | writeEnd (pipe : ℕ)
  deriving DecidableEq

/-- The state of a thread: the thread-locals of the facade, whether its hook
for messages is installed, whether internal errors are thrown, the process's
descriptors, and how many pipes there have been. -/
structure Thread where
  guarded : Bool
  trapped : Bool
  exitCode : ℤ
  output : List UInt8
  uiOutput : List UInt8
  hooked : Bool
  interrThrows : Bool
  fds : Descriptors File
  pipes : ℕ

def Thread.start (interrThrows : Bool) (fds : Descriptors File) : Thread :=
  ⟨false, false, 0, [], [], false, interrThrows, fds, 0⟩

/-! ### The fatal traps -/

inductive Fatal
  | exit (status : ℤ)
  | abort
  | interr (code : ℤ)
  deriving DecidableEq

inductive Outcome (α : Type)
  | returns (rc : α)
  | fatal (f : Fatal)

/-- 128 + `SIGABRT`. -/
def abortExitCode : ℤ := 134

/-- The stand-in for `exit`: jump to the guard, or leave the process. -/
def trapExit (status : ℤ) (t : Thread) : Option Thread :=
  if t.guarded then some { t with guarded := false, exitCode := status } else none

def trapAbort (t : Thread) : Option Thread :=
  if t.guarded then some { t with guarded := false, exitCode := abortExitCode } else none

/-! ### Capture -/

/-- The descriptors of a capture; a `dup` that failed saved none. -/
structure Capture where
  rd : ℕ
  wr : ℕ
  savedOut : Option ℕ
  savedErr : Option ℕ

/-- Whether the system grants the calls of a capture, as far as that is not
about descriptors. -/
structure Grants where
  pipe : Bool
  dupOut : Bool
  dupErr : Bool

section

variable (limit : ℕ)

def saved (granted : Bool) (fds : Descriptors File) (fd : ℕ) : Option ℕ × Descriptors File :=
  match if granted then fds.dup limit fd else none with
  | none => (none, fds)
  | some (new, fds) => (some new, fds)

def beginCapture (grants : Grants) (t : Thread) : Option Capture × Thread :=
  match if grants.pipe then t.fds.pipe limit (.readEnd t.pipes) (.writeEnd t.pipes) else none with
  | none => (none, t)
  | some (rd, wr, fds) =>
      let (savedOut, fds) := saved limit grants.dupOut fds 1
      let (savedErr, fds) := saved limit grants.dupErr fds 2
      (some ⟨rd, wr, savedOut, savedErr⟩,
        { t with fds := (fds.dup2 wr 1).dup2 wr 2, pipes := t.pipes + 1 })

def restored (fds : Descriptors File) (saved : Option ℕ) (fd : ℕ) : Descriptors File :=
  match saved with
  | none => fds
  | some copy => (fds.dup2 copy fd).close copy

/-- Read to the end of a pipe, of which every write end must be closed. -/
def drained (fds : Descriptors File) (rd : ℕ) (printed : List UInt8) : Option (List UInt8) :=
  match fds rd with
  | some (.readEnd pipe) =>
      if (List.range limit).any fun fd => fds fd = some (.writeEnd pipe) then none
      else some printed
  | _ => some []

def endCapture (printed : List UInt8) (capture : Option Capture) (t : Thread) : Option Thread :=
  match capture with
  | none => some t
  | some c =>
      let fds := (restored (restored t.fds c.savedOut 1) c.savedErr 2).close c.wr
      (drained limit fds c.rd printed).map fun output =>
        { t with fds := fds.close c.rd, output := output }

end

def uiCap : ℕ := 8192

def beginUiCapture (t : Thread) : Thread := { t with uiOutput := [], hooked := true }

def uiMsgCapture (t : Thread) (message : List UInt8) : Thread :=
  if t.hooked ∧ t.uiOutput.length < uiCap then { t with uiOutput := t.uiOutput ++ message } else t

def isBlank (b : UInt8) : Bool := b == 0x20 || b == 0x09 || b == 0x0D || b == 0x0A

/-- Remove the hook; the messages stand in where nothing was printed. -/
def endUiCapture (t : Thread) : Thread :=
  { t with
    hooked := false
    output := if t.uiOutput ≠ [] ∧ t.output.all isBlank then t.uiOutput else t.output
    uiOutput := [] }

/-! ### The guard -/

/-- A guarded call: whether it captures, what it returns if it is trapped,
what the system grants, what the kernel prints and says, and how it leaves. -/
structure Call (α : Type) where
  capture : Bool
  trapval : α
  grants : Grants
  printed : List UInt8
  messages : List (List UInt8)
  outcome : Outcome α

section

variable {α : Type} (limit : ℕ)

/-- On every way out: the mode for internal errors, the descriptors, the hook. -/
def finish (call : Call α) (prevThrows : Bool) (capture : Option Capture) (t : Thread) :
    Option Thread :=
  (endCapture limit call.printed capture { t with interrThrows := prevThrows }).map fun t =>
    if call.capture then endUiCapture t else t

/-- The call itself, up to where control comes back to the guard. An internal
error is caught there only while it is thrown. -/
def kernel (call : Call α) (t : Thread) : Option (α × Thread) :=
  let t := call.messages.foldl uiMsgCapture t
  match call.outcome with
  | .returns rc => some (rc, { t with guarded := false })
  | .fatal (.exit status) =>
      (trapExit status t).map fun t => (call.trapval, { t with trapped := true })
  | .fatal .abort => (trapAbort t).map fun t => (call.trapval, { t with trapped := true })
  | .fatal (.interr _) =>
      if t.interrThrows then some (call.trapval, { t with guarded := false, trapped := true })
      else none

def Thread.begun (t : Thread) : Thread := { t with trapped := false, output := [] }

def Call.begin (call : Call α) (t : Thread) : Option Capture × Thread :=
  if call.capture then beginCapture limit call.grants t else (none, t)

def guarded (call : Call α) (t : Thread) : Option (α × Thread) :=
  let begun := call.begin limit t.begun
  let t := if call.capture then beginUiCapture begun.2 else begun.2
  (kernel call { t with interrThrows := true, guarded := true }).bind fun back =>
    (finish limit call t.interrThrows begun.1 back.2).map fun t => (back.1, t)

def guardedStep (t : Thread) (call : Call α) : Option Thread := (guarded limit call t).map Prod.snd

end

/-! ### Reports -/

structure KernelExit where
  code : ℤ
  diagnostic : Option (List Char)

def kernelExitError (t : Thread) : KernelExit where
  code := t.exitCode
  diagnostic :=
    let trimmed := trim (Utf8.lossy t.output)
    if trimmed ≠ [] then some trimmed else none

/-! ### Descriptors behind a capture -/

section

variable {limit : ℕ} {fds fds₁ fds₂ fds₃ : Descriptors File} {rd wr savedOut savedErr pipe : ℕ}

/-- The descriptors after a capture, but for the read end of its pipe. -/
def putBack (fds₃ : Descriptors File) (wr savedOut savedErr : ℕ) : Descriptors File :=
  (restored (restored ((fds₃.dup2 wr 1).dup2 wr 2) (some savedOut) 1) (some savedErr) 2).close wr

theorem putBack_apply {write out err : File} (hwr : fds₃ wr = some write)
    (hout : fds₃ savedOut = some out) (herr : fds₃ savedErr = some err) (hone : savedOut ≠ 1)
    (hone' : savedErr ≠ 1) (htwo' : savedErr ≠ 2) (hne : savedErr ≠ savedOut) (fd : ℕ) :
    putBack fds₃ wr savedOut savedErr fd =
      if fd = wr ∨ fd = savedErr then none
      else if fd = 2 then some err
      else if fd = savedOut then none
      else if fd = 1 then if savedOut = 2 then some write else some out
      else fds₃ fd := by
  simp only [putBack, restored, Descriptors.close_apply, Descriptors.dup2_apply]
  grind

/-- The descriptors of a capture are not in use before it, and those that are
put back later are of the same files as before it. -/
theorem putBack_of_saved (hpipe : fds.pipe limit (.readEnd pipe) (.writeEnd pipe) =
      some (rd, wr, fds₁))
    (hout : fds₁.dup limit 1 = some (savedOut, fds₂))
    (herr : fds₂.dup limit 2 = some (savedErr, fds₃)) :
    ∃ out err, fds₁ 1 = some out ∧ fds₂ 2 = some err ∧
      ∀ fd, putBack fds₃ wr savedOut savedErr fd =
        if fd = wr ∨ fd = savedErr then none
        else if fd = 2 then some err
        else if fd = savedOut then none
        else if fd = 1 then if savedOut = 2 then some (.writeEnd pipe) else some out
        else fds₃ fd := by
  obtain ⟨hrd, hwr, hlt, -, rfl⟩ := Descriptors.pipe_spec hpipe
  obtain ⟨out, hone, hcopy, hneOut, -, rfl⟩ := Descriptors.dup_spec hout
  obtain ⟨err, htwo, hcopy', hneErr, -, rfl⟩ := Descriptors.dup_spec herr
  clear hpipe hout herr
  refine ⟨out, err, hone, htwo, fun fd => ?_⟩
  simp only [Function.update_apply] at hone htwo hcopy hcopy'
  apply putBack_apply <;> grind [Function.update_apply]

theorem putBack_close (hpipe : fds.pipe limit (.readEnd pipe) (.writeEnd pipe) =
      some (rd, wr, fds₁))
    (hout : fds₁.dup limit 1 = some (savedOut, fds₂))
    (herr : fds₂.dup limit 2 = some (savedErr, fds₃)) (hne : savedOut ≠ 2) :
    (putBack fds₃ wr savedOut savedErr).close rd = fds := by
  obtain ⟨out, err, hone, htwo, hback⟩ := putBack_of_saved hpipe hout herr
  obtain ⟨hrd, hwr, hlt, -, rfl⟩ := Descriptors.pipe_spec hpipe
  obtain ⟨_, -, hcopy, -, -, rfl⟩ := Descriptors.dup_spec hout
  obtain ⟨_, -, hcopy', -, -, rfl⟩ := Descriptors.dup_spec herr
  clear hpipe hout herr
  simp only [Function.update_apply] at *
  have hout : fds savedOut = none := by grind
  have herr : fds savedErr = none := by grind
  have hone' : 1 ≠ rd → 1 ≠ wr → fds 1 = some out := by grind
  have htwo' : 2 ≠ rd → 2 ≠ wr → fds 2 = some err := by grind
  clear hone htwo hcopy hcopy'
  funext fd
  rw [Descriptors.close_apply, hback]
  by_cases hclosed : fd = rd ∨ fd = wr ∨ fd = savedErr
  · grind
  · by_cases hfd : fd = 2
    · grind
    · grind

/-- Where 2 is the copy of 1, a write end of the pipe is left there. -/
theorem putBack_two (hpipe : fds.pipe limit (.readEnd pipe) (.writeEnd pipe) =
      some (rd, wr, fds₁))
    (hout : fds₁.dup limit 1 = some (2, fds₂))
    (herr : fds₂.dup limit 2 = some (savedErr, fds₃)) :
    putBack fds₃ wr 2 savedErr rd = some (.readEnd pipe) ∧
      putBack fds₃ wr 2 savedErr 2 = some (.writeEnd pipe) := by
  obtain ⟨out, err, hone, htwo, hback⟩ := putBack_of_saved hpipe hout herr
  obtain ⟨hrd, hwr, hlt, hlow, rfl⟩ := Descriptors.pipe_spec hpipe
  obtain ⟨_, hfile, hcopy, -, -, rfl⟩ := Descriptors.dup_spec hout
  obtain ⟨_, -, hcopy', hneErr, -, rfl⟩ := Descriptors.dup_spec herr
  clear hpipe hout herr
  simp only [Function.update_apply] at *
  -- Descriptor 2 was not in use, so that the pipe has 0 and 1.
  have hfree : fds 2 = none ∧ 2 ≠ wr ∧ 2 ≠ rd := by grind
  have hlt2 : wr < 2 := by
    have hle : ¬ 2 < wr := fun h => hlow 2 h hfree.2.2 hfree.1
    omega
  obtain ⟨rfl, rfl⟩ : rd = 0 ∧ wr = 1 := by omega
  rw [hback, hback]
  grind

end

/-! ### What the parts of a guarded call leave alone -/

section

variable {α : Type} {limit : ℕ} {t t' : Thread}

theorem beginCapture_frame (grants : Grants) (t : Thread) :
    ∃ fds pipes, (beginCapture limit grants t).2 = { t with fds := fds, pipes := pipes } := by
  unfold beginCapture
  split
  · exact ⟨t.fds, t.pipes, rfl⟩
  · exact ⟨_, _, rfl⟩

theorem dup_of_saved {granted : Bool} {fds fds' : Descriptors File} {fd new : ℕ}
    (h : saved limit granted fds fd = (some new, fds')) : fds.dup limit fd = some (new, fds') := by
  unfold saved at h
  split at h
  · simp at h
  · rename_i new' fds'' hdup
    obtain ⟨rfl, rfl⟩ : new' = new ∧ fds'' = fds' := by simpa using h
    cases granted with
    | false => simp at hdup
    | true => simpa using hdup

theorem beginCapture_eq_some {grants : Grants} {t₁ : Thread} {rd wr out err : ℕ}
    (h : beginCapture limit grants t = (some ⟨rd, wr, some out, some err⟩, t₁)) :
    ∃ fds₁ fds₂ fds₃,
      t.fds.pipe limit (.readEnd t.pipes) (.writeEnd t.pipes) = some (rd, wr, fds₁) ∧
      fds₁.dup limit 1 = some (out, fds₂) ∧ fds₂.dup limit 2 = some (err, fds₃) ∧
      t₁.fds = (fds₃.dup2 wr 1).dup2 wr 2 := by
  unfold beginCapture at h
  split at h
  · simp at h
  · rename_i rd' wr' fds₁ hpipe
    simp only [Prod.mk.injEq, Option.some.injEq, Capture.mk.injEq] at h
    obtain ⟨⟨rfl, rfl, hout, herr⟩, rfl⟩ := h
    have hpipe : t.fds.pipe limit (.readEnd t.pipes) (.writeEnd t.pipes) =
        some (rd', wr', fds₁) := by
      by_cases hgranted : grants.pipe
      · simpa [hgranted] using hpipe
      · simp [hgranted] at hpipe
    exact ⟨fds₁, _, _, hpipe, dup_of_saved (Prod.ext hout rfl), dup_of_saved (Prod.ext herr rfl),
      rfl⟩

/-- Where both descriptors are saved or none is redirected, the end of a
capture puts all descriptors back. -/
theorem endCapture_beginCapture {grants : Grants} {capture : Option Capture} {t₁ t₂ : Thread}
    {printed : List UInt8} (hlimit : 2 < limit) (hbegin : beginCapture limit grants t = (capture, t₁))
    (hsaved : ∀ c ∈ capture, c.savedOut.isSome ∧ c.savedErr.isSome) (hfds : t₂.fds = t₁.fds)
    (hend : endCapture limit printed capture t₂ = some t') : t'.fds = t.fds := by
  cases capture with
  | none =>
      obtain rfl : t₂ = t' := by simpa [endCapture] using hend
      rw [hfds]
      unfold beginCapture at hbegin
      split at hbegin
      · simp only [Prod.mk.injEq, true_and] at hbegin
        rw [hbegin]
      · simp at hbegin
  | some c =>
      obtain ⟨rd, wr, savedOut, savedErr⟩ := c
      obtain ⟨hsomeOut, hsomeErr⟩ := hsaved _ rfl
      obtain ⟨out, rfl⟩ := Option.isSome_iff_exists.mp hsomeOut
      obtain ⟨err, rfl⟩ := Option.isSome_iff_exists.mp hsomeErr
      obtain ⟨fds₁, fds₂, fds₃, hpipe, hout, herr, ht₁⟩ := beginCapture_eq_some hbegin
      obtain ⟨output, hdrained, rfl⟩ := Option.map_eq_some_iff.mp hend
      rw [hfds, ht₁] at hdrained ⊢
      have hne : out ≠ 2 := by
        rintro rfl
        -- The drain would wait for the write end that is left at 2.
        obtain ⟨hread, hwrite⟩ := putBack_two hpipe hout herr
        have hopen : (List.range limit).any
            (fun fd => putBack fds₃ wr 2 err fd = some (.writeEnd t.pipes)) = true :=
          List.any_eq_true.mpr ⟨2, List.mem_range.mpr hlimit, by simp [hwrite]⟩
        change drained limit (putBack fds₃ wr 2 err) rd printed = some output at hdrained
        simp only [drained, hread, hopen, if_true] at hdrained
        contradiction
      exact putBack_close hpipe hout herr hne

/-- The end of a capture keeps all but the descriptors and the output. -/
theorem endCapture_frame {printed : List UInt8} {capture : Option Capture}
    (h : endCapture limit printed capture t = some t') :
    ∃ fds output, t' = { t with fds := fds, output := output } := by
  cases capture with
  | none =>
      obtain rfl : t = t' := by simpa [endCapture] using h
      exact ⟨t.fds, t.output, rfl⟩
  | some c =>
      obtain ⟨output, -, rfl⟩ := Option.map_eq_some_iff.mp h
      exact ⟨_, _, rfl⟩

theorem foldl_uiMsgCapture_frame (messages : List (List UInt8)) (t : Thread) :
    ∃ uiOutput, messages.foldl uiMsgCapture t = { t with uiOutput := uiOutput } := by
  induction messages generalizing t with
  | nil => exact ⟨t.uiOutput, rfl⟩
  | cons message messages ih =>
      obtain ⟨uiOutput, h⟩ := ih (uiMsgCapture t message)
      refine ⟨uiOutput, ?_⟩
      rw [List.foldl_cons, h]
      unfold uiMsgCapture
      split <;> rfl

theorem finish_frame {call : Call α} {prevThrows : Bool} {capture : Option Capture}
    (h : finish limit call prevThrows capture t = some t') :
    t'.guarded = t.guarded ∧ t'.trapped = t.trapped ∧ t'.exitCode = t.exitCode ∧
      t'.interrThrows = prevThrows ∧ t'.hooked = (if call.capture then false else t.hooked) ∧
      ∃ t'', endCapture limit call.printed capture { t with interrThrows := prevThrows } = some t'' ∧
        t'.fds = t''.fds := by
  obtain ⟨t'', hend, rfl⟩ := Option.map_eq_some_iff.mp h
  obtain ⟨fds, output, rfl⟩ := endCapture_frame hend
  by_cases hcapture : call.capture
  · exact ⟨by simp [hcapture, endUiCapture], by simp [hcapture, endUiCapture],
      by simp [hcapture, endUiCapture], by simp [hcapture, endUiCapture],
      by simp [hcapture, endUiCapture], _, hend, by simp [hcapture, endUiCapture]⟩
  · exact ⟨by simp [hcapture], by simp [hcapture], by simp [hcapture], by simp [hcapture],
      by simp [hcapture], _, hend, by simp [hcapture]⟩

/-- What a call leaves in the exit code. An internal error leaves what was
there. -/
def Outcome.exitCode (before : ℤ) : Outcome α → ℤ
  | .fatal (.exit status) => status
  | .fatal .abort => abortExitCode
  | _ => before

theorem kernel_spec {call : Call α} {rc : α} (h : kernel call t = some (rc, t'))
    (hguarded : t.guarded = true) :
    t'.guarded = false ∧ (t'.trapped = true ↔ t.trapped = true ∨ ∃ f, call.outcome = .fatal f) ∧
      t'.exitCode = call.outcome.exitCode t.exitCode ∧ t'.fds = t.fds ∧ t'.hooked = t.hooked := by
  obtain ⟨uiOutput, hmessages⟩ := foldl_uiMsgCapture_frame call.messages t
  unfold kernel at h
  rw [hmessages] at h
  cases houtcome : call.outcome with
  | returns rc' =>
      simp only [houtcome, Option.some.injEq, Prod.mk.injEq] at h
      obtain ⟨-, rfl⟩ := h
      simp [Outcome.exitCode]
  | fatal f =>
      cases f with
      | exit status =>
          simp only [houtcome, trapExit, hguarded, if_true, Option.map_some, Option.some.injEq,
            Prod.mk.injEq] at h
          obtain ⟨-, rfl⟩ := h
          simp [Outcome.exitCode]
      | abort =>
          simp only [houtcome, trapAbort, hguarded, if_true, Option.map_some, Option.some.injEq,
            Prod.mk.injEq] at h
          obtain ⟨-, rfl⟩ := h
          simp [Outcome.exitCode]
      | interr code =>
          simp only [houtcome] at h
          split at h
          · simp only [Option.some.injEq, Prod.mk.injEq] at h
            obtain ⟨-, rfl⟩ := h
            simp [Outcome.exitCode]
          · contradiction

/-- Between guarded calls no guard is armed and no hook installed. -/
structure Thread.Idle (t : Thread) : Prop where
  disarmed : t.guarded = false
  unhooked : t.hooked = false

theorem guardedStep_eq_some {call : Call α} (h : guardedStep limit t call = some t') :
    ∃ rc armed back,
      armed.guarded = true ∧ armed.trapped = false ∧ armed.exitCode = t.exitCode ∧
      armed.fds = (call.begin limit t.begun).2.fds ∧
      armed.hooked = (if call.capture then true else t.hooked) ∧
      kernel call armed = some (rc, back) ∧
      finish limit call t.interrThrows (call.begin limit t.begun).1 back = some t' := by
  obtain ⟨⟨rc, t''⟩, hcall, rfl⟩ := Option.map_eq_some_iff.mp h
  obtain ⟨⟨rc', back⟩, hkernel, hcall⟩ := Option.bind_eq_some_iff.mp hcall
  obtain ⟨_, hfinish, hcall⟩ := Option.map_eq_some_iff.mp hcall
  obtain ⟨rfl, rfl⟩ := Prod.mk.inj hcall
  obtain ⟨fds, pipes, hbegin⟩ : ∃ fds pipes,
      (call.begin limit t.begun).2 = { t.begun with fds := fds, pipes := pipes } := by
    unfold Call.begin
    split
    · exact beginCapture_frame call.grants t.begun
    · exact ⟨t.fds, t.pipes, rfl⟩
  have hready (ready : Thread) (h : ready = if call.capture then
      beginUiCapture (call.begin limit t.begun).2 else (call.begin limit t.begun).2) :
      ready.trapped = false ∧ ready.exitCode = t.exitCode ∧
        ready.fds = (call.begin limit t.begun).2.fds ∧
        ready.hooked = (if call.capture then true else t.hooked) ∧
        ready.interrThrows = t.interrThrows := by
    rw [h, hbegin]
    split <;> exact ⟨rfl, rfl, rfl, rfl, rfl⟩
  obtain ⟨htrapped, hcode, hfds, hhooked, hmode⟩ := hready _ rfl
  rw [hmode] at hfinish
  refine ⟨_, _, _, ?_, ?_, ?_, ?_, ?_, hkernel, hfinish⟩
  · rfl
  · exact htrapped
  · exact hcode
  · exact hfds
  · exact hhooked

/-- What one guarded call leaves behind, whatever way it ends. -/
theorem guardedStep_spec {call : Call α} (hidle : t.Idle)
    (h : guardedStep limit t call = some t') :
    t'.Idle ∧ (t'.trapped = true ↔ ∃ f, call.outcome = .fatal f) ∧
      t'.exitCode = call.outcome.exitCode t.exitCode ∧ t'.interrThrows = t.interrThrows := by
  obtain ⟨rc, armed, back, hguarded, htrapped, hcode, -, hhooked, hkernel, hfinish⟩ :=
    guardedStep_eq_some h
  obtain ⟨hdisarmed, hfatal, hleft, -, hhook⟩ := kernel_spec hkernel hguarded
  obtain ⟨hguarded', htrapped', hcode', hmode, hhooked', -⟩ := finish_frame hfinish
  refine ⟨⟨hguarded'.trans hdisarmed, ?_⟩, ?_, ?_, hmode⟩
  · rw [hhooked', hhook, hhooked, hidle.unhooked]
    split <;> rfl
  · rw [htrapped', hfatal, htrapped]
    simp
  · rw [hcode', hleft, hcode]

theorem fds_guardedStep {call : Call α} (hlimit : 2 < limit)
    (hsaved : ∀ c ∈ (call.begin limit t.begun).1, c.savedOut.isSome ∧ c.savedErr.isSome)
    (h : guardedStep limit t call = some t') : t'.fds = t.fds := by
  obtain ⟨rc, armed, back, hguarded, -, -, hfds, -, hkernel, hfinish⟩ := guardedStep_eq_some h
  obtain ⟨-, -, -, hback, -⟩ := kernel_spec hkernel hguarded
  obtain ⟨-, -, -, -, -, t'', hend, ht'⟩ := finish_frame hfinish
  rw [ht']
  cases hcapture : call.capture with
  | true =>
      simp only [Call.begin, hcapture, if_true] at hsaved hfds hend
      have hrestored : t''.fds = t.begun.fds := by
        apply endCapture_beginCapture hlimit (Prod.eta _).symm hsaved ?_ hend
        exact hback.trans hfds
      exact hrestored
  | false =>
      simp only [Call.begin, hcapture, Bool.false_eq_true, if_false] at hfds hend
      obtain rfl : _ = t'' := Option.some.inj hend
      exact hback.trans hfds

/-! ### Runs of guarded calls -/

def Fatal.code : Fatal → ℤ
  | .exit status => status
  | .abort => abortExitCode
  | .interr code => code

/-- What a caller may rely on behind a guarded call. -/
structure Thread.Reports (t : Thread) (call : Call α) (t' : Thread) : Prop where
  disarmed : t'.guarded = false
  fds : t'.fds = t.fds
  hook : t'.hooked = t.hooked
  mode : t'.interrThrows = t.interrThrows
  trapped : t'.trapped = true ↔ ∃ f, call.outcome = .fatal f
  code : ∀ f, call.outcome = .fatal f → t'.exitCode = f.code ∧ (kernelExitError t').code = f.code

/-- A call that does not end in an internal error and, if its pipe was made,
could save both descriptors. -/
structure Call.Traceable (limit : ℕ) (t : Thread) (call : Call α) : Prop where
  noInterr : ∀ code, call.outcome ≠ .fatal (.interr code)
  saved : ∀ c ∈ (call.begin limit t.begun).1, c.savedOut.isSome ∧ c.savedErr.isSome

/-- Behind any run of guarded calls, also of calls that ended in an internal
error, a call that does not is reported as it was. -/
theorem guarded_reports (hlimit : 2 < limit) (interrThrows : Bool) (fds : Descriptors File)
    (calls : List (Call α)) (call : Call α)
    (hrun : runSteps (guardedStep limit) (Thread.start interrThrows fds) calls = some t)
    (htraceable : call.Traceable limit t) (hstep : guardedStep limit t call = some t') :
    t.Reports call t' := by
  have hidle : t.Idle := Reaches.invariant (fun _ _ _ hs h => (guardedStep_spec hs h).1)
    ⟨rfl, rfl⟩ ⟨calls, hrun⟩
  obtain ⟨hidle', htrapped, hcode, hmode⟩ := guardedStep_spec hidle hstep
  refine ⟨hidle'.disarmed, fds_guardedStep hlimit htraceable.saved hstep,
    hidle'.unhooked.trans hidle.unhooked.symm, hmode, htrapped, fun f hf => ?_⟩
  have hleft : t'.exitCode = f.code := by
    rw [hcode, hf]
    cases f with
    | exit status => rfl
    | abort => rfl
    | interr code => exact absurd hf (htraceable.noInterr code)
  exact ⟨hleft, hleft⟩

end

def standard : Descriptors File := fun fd => if fd < 3 then some (.outside fd) else none

def quiet (capture : Bool) (outcome : Outcome ℤ) : Call ℤ :=
  ⟨capture, -1000, ⟨true, true, true⟩, [], [], outcome⟩

/-- An internal error, and behind it an exit that is captured. -/
theorem guarded_reports_exit :
    ∃ t t', runSteps (guardedStep 16) (Thread.start false standard)
        [quiet false (.fatal (.interr 1))] = some t ∧
      guardedStep 16 t (quiet true (.fatal (.exit 42))) = some t' ∧
      t.Reports (quiet true (.fatal (.exit 42))) t' := by
  refine ⟨_, _, rfl, rfl, ?_⟩
  apply guarded_reports (show 2 < 16 by omega) false standard
    [quiet false (.fatal (.interr 1))] _ rfl ?_ rfl
  refine ⟨fun code h => by simp [quiet] at h, fun c hc => ?_⟩
  obtain rfl : (⟨3, 4, some 5, some 6⟩ : Capture) = c := Option.some.inj hc
  exact ⟨rfl, rfl⟩

/-- An internal error behind an exit is told by the status of the exit. -/
theorem not_reports_interr :
    ∃ t t', runSteps (guardedStep 16) (Thread.start false standard)
        [quiet false (.fatal (.exit 42))] = some t ∧
      guardedStep 16 t (quiet false (.fatal (.interr 1))) = some t' ∧
      (kernelExitError t').code = 42 ∧ ¬ t.Reports (quiet false (.fatal (.interr 1))) t' := by
  refine ⟨_, _, rfl, rfl, rfl, fun h => ?_⟩
  have hcode : (42 : ℤ) = 1 := (h.code _ rfl).1
  contradiction

end Idakit.Facade
