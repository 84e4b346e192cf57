import Idakit.Runner.CutLine
import Idakit.Runner.Pool

/-!
A run together with its workers. Each thread drives one worker over two pipes,
which are the bytes written and not yet read. A worker reads a request, writes
what its case prints between two frames, a piece at a time, and can die at any
moment; the runner reads whole lines, however the pieces fall.

A case may print whatever lines do not look like frames. What a worker writes
before its first request is a part of its first case's output.

A process that has been replaced is not looked at any more: nothing it still
does can be read.
-/

namespace Idakit.Runner

open Idakit.Library
open Idakit.Types

set_option linter.dupNamespace false

structure CaseRun where
  printed : List Text
  status : Status
  millis : UInt64
  message : Message
  plain : ∀ line ∈ printed, Plain line

structure Setup where
  printed : List Text
  plain : ∀ line ∈ printed, Plain line

def outputBytes (printed : List Text) : List UInt8 := (printed.map Line.output).flatMap Line.bytes

def CaseRun.bytes (run : CaseRun) (name : Text) : List UInt8 :=
  runOne name (outputBytes run.printed) run.status run.millis run.message

/-! ### A worker and its pipes -/

inductive Process
  | waiting
  | writing (left : List UInt8)
  /-- Exited or killed, or not started. -/
  | gone

def Process.write : List UInt8 → Process
  | [] => .waiting
  | left => .writing left

def Process.left : Process → List UInt8
  | .writing left => left
  | _ => []

structure Link where
  process : Process
  stdin : List UInt8
  stdout : List UInt8
  /-- The lines that the worker has printed outside of a case that ended; no
  step depends on them. -/
  printed : List Text

def Link.started (setup : Setup) : Link :=
  ⟨.write (outputBytes setup.printed), [], [], setup.printed⟩

def Link.killed (link : Link) : Link := { link with process := .gone }

def Process.isGone : Process → Bool
  | .gone => true
  | _ => false

/-- What the runner receives next, and the link behind it. Behind an error
nothing is read. -/
def Link.read (link : Link) : Option (Received × Link) :=
  match readLine link.process.isGone link.stdout with
  | .item line rest => some (.line line, { link with stdout := rest })
  | .ended (.error e) => some (.error e, link)
  | .ended .blocked => none
  | .ended (.done _) => some (.disconnected, link)
  | .ended .panicked => some (.disconnected, link)

inductive Move
  | spawn (outcome : Except IoError Setup)
  | take
  | write (outcome : Except IoError Unit)
  | read
  /-- The deadline has passed. -/
  | giveUp
  | report
  | drain
  | shutdown

inductive Deed
  | perform (run : CaseRun)
  | emit (count : ℕ)
  | die

def Link.meet (t : Activity) (link : Link) : Move → Option (Happening × Link)
  | .spawn (.ok setup) => some (.spawn (.ok ()), .started setup)
  | .spawn (.error e) => some (.spawn (.error e), link)
  | .take => some (.take, link)
  | .write (.ok _) =>
      match t with
      | .leased case => some (.write (.ok ()),
          { link with stdin := link.stdin ++ (Request.run case.name).bytes })
      | _ => none
  | .write (.error e) => some (.write (.error e), link)
  | .read => link.read.map fun r => (.receive r.1, r.2)
  | .giveUp => some (.receive .timeout, link.killed)
  | .report => some (.report, link)
  | .drain => some (.drain, link)
  | .shutdown => some (.shutdown, link.killed)

def Link.work (link : Link) : Deed → Option (Link × List CaseResult)
  | .perform run =>
      match link.process, Request.readFrom false link.stdin with
      | .waiting, .item (.run name) rest =>
          some ({ link with process := .write (run.bytes name), stdin := rest, printed := [] },
            [⟨name, run.status, run.millis, run.message.text, link.printed ++ run.printed⟩])
      | _, _ => none
  | .emit count =>
      match link.process with
      | .writing left => some ({ link with
          process := .write (left.drop count), stdout := link.stdout ++ left.take count }, [])
      | _ => none
  | .die => some (link.killed, [])

/-! ### The whole run -/

inductive Motion
  | runner (move : Move)
  | worker (deed : Deed)

/-- Something goes wrong that is no case's own failure. -/
def Motion.isFault : Motion → Bool
  | .runner (.spawn (.error _)) => true
  | .runner (.write (.error _)) => true
  | .runner .giveUp => true
  | .worker .die => true
  | _ => false

structure Plant where
  threads : List (Activity × Link)
  shared : Shared
  performed : List CaseResult

def moveThread (debug : Text → Text) (seconds : ℕ) (shared : Shared) (t : Activity) (link : Link) :
    Motion → Option ((Activity × Link) × Shared × List CaseResult)
  | .runner move => (link.meet t move).bind fun m =>
      (advance debug seconds shared t m.1).map fun r => ((r.1, m.2), r.2, [])
  | .worker deed => (link.work deed).map fun r => ((t, r.1), shared, r.2)

def Plant.step (debug : Text → Text) (seconds : ℕ) (p : Plant) (a : ℕ × Motion) : Option Plant :=
  (p.threads[a.1]?).bind fun t =>
    (moveThread debug seconds p.shared t.1 t.2 a.2).map fun r =>
      ⟨p.threads.set a.1 r.1, r.2.1, p.performed ++ r.2.2⟩

/-- The steps in which nothing goes wrong. -/
def Plant.calmStep (debug : Text → Text) (seconds : ℕ) (p : Plant) (a : ℕ × Motion) :
    Option Plant :=
  if a.2.isFault then none else p.step debug seconds a

def Plant.pool (p : Plant) : Pool := ⟨p.threads.map Prod.fst, p.shared⟩

end Idakit.Runner
