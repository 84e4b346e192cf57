import Idakit.Decompiler.Ctree.Node
import Idakit.Library.Outcome

/-!
The control-flow graph of a function, drained from the kernel's flow chart.
The chart keeps the function's own blocks in front and a stub for every target
outside behind them, under one numbering. The graph has the own blocks only,
and lifts an edge to a stub to an exit.
-/

namespace Idakit.Flowchart

open Idakit.Library Idakit.Types Idakit.Decompiler

/-! ### The kernel's chart -/

structure QBasicBlock where
  startEa : UInt64
  endEa : UInt64
  kind : Int32
  succ : List Int32
  pred : List Int32

structure QFlowChart where
  blocks : List QBasicBlock
  nproper : Int32

structure BlockInfo where
  start : UInt64
  end_ : UInt64
  kind : Int32

/-- `static_cast<size_t>`. -/
def cfgNproper (chart : QFlowChart) : ℕ := chart.nproper.toInt64.toUInt64.toNat

def cfgBlock (chart : QFlowChart) (n : ℕ) : Option BlockInfo :=
  (chart.blocks[n]?).map fun q => ⟨q.startEa, q.endEa, q.kind⟩

def cfgSuccs (chart : QFlowChart) (n : ℕ) : Option (List UInt32) :=
  (chart.blocks[n]?).map fun q => q.succ.map Int32.toUInt32

def cfgPreds (chart : QFlowChart) (n : ℕ) : Option (List UInt32) :=
  (chart.blocks[n]?).map fun q => q.pred.map Int32.toUInt32

/-! ### The graph -/

inductive BasicBlockKind
  | normal | indirectJump | return_ | condReturn | noReturn | error
  deriving DecidableEq

def BasicBlockKind.code : BasicBlockKind → UInt8
  | .normal => 0
  | .indirectJump => 1
  | .return_ => 2
  | .condReturn => 3
  | .noReturn => 4
  | .error => 7

def BasicBlockKind.tryFrom (code : UInt8) : Option BasicBlockKind :=
  [BasicBlockKind.normal, .indirectJump, .return_, .condReturn, .noReturn, .error].find?
    fun kind => kind.code = code

abbrev BasicBlockId := UInt32

structure ExternalExit where
  target : Address
  noreturn : Bool
  deriving DecidableEq

structure BasicBlock where
  start : Address
  end_ : Address
  kind : BasicBlockKind
  succ : List BasicBlockId
  pred : List BasicBlockId
  exits : List ExternalExit
  deriving DecidableEq

inductive Error
  | noFunction (address : UInt64)
  | unknownBlockKind (block : UInt64) (raw : UInt8)
  deriving DecidableEq

/-- `as u8`. -/
def kindByte (kind : Int32) : UInt8 := kind.toUInt32.toUInt8

def fcbEnoret : UInt8 := 5

def splitEdges (chart : QFlowChart) (nproper : ℕ) :
    List UInt32 → Outcome Error (List BasicBlockId × List ExternalExit)
  | [] => .ok ([], [])
  | j :: js =>
      if j.toNat < nproper then
        (splitEdges chart nproper js).bind fun (succ, exits) => .ok (j :: succ, exits)
      else
        (Outcome.expect (cfgBlock chart j.toNat)).bind fun info =>
          (Outcome.expect (Address.tryNew info.start)).bind fun target =>
            (splitEdges chart nproper js).bind fun (succ, exits) =>
              .ok (succ, ⟨target, kindByte info.kind = fcbEnoret⟩ :: exits)

def successors (chart : QFlowChart) (n nproper : ℕ) :
    Outcome Error (List BasicBlockId × List ExternalExit) :=
  (Outcome.expect (cfgSuccs chart n)).bind (splitEdges chart nproper)

def predecessors (chart : QFlowChart) (n nproper : ℕ) : Outcome Error (List BasicBlockId) :=
  (Outcome.expect (cfgPreds chart n)).bind fun preds =>
    .ok (preds.filter fun j => j.toNat < nproper)

def blockRange (start end_ : UInt64) : Outcome Error (Address × Address) :=
  (Outcome.expect (Address.tryNew start)).bind fun start =>
    (Outcome.expect (Address.tryNew end_)).bind fun end_ => .ok (start, end_)

def extractBlock (chart : QFlowChart) (nproper i : ℕ) : Outcome Error BasicBlock :=
  (Outcome.expect (cfgBlock chart i)).bind fun info =>
    (Outcome.okOr (.unknownBlockKind info.start (kindByte info.kind))
      (BasicBlockKind.tryFrom (kindByte info.kind))).bind fun kind =>
        (successors chart i nproper).bind fun (succ, exits) =>
          (blockRange info.start info.end_).bind fun (start, end_) =>
            (predecessors chart i nproper).bind fun pred =>
              .ok { start, end_, kind, succ, pred, exits }

/-- The blocks in order; the place of one is its handle. -/
def extract (chart : QFlowChart) : Outcome Error (List BasicBlock) :=
  Outcome.collect (extractBlock chart (cfgNproper chart)) (List.range (cfgNproper chart))

structure FlowChart where
  blocks : List BasicBlock
  entry : BasicBlockId
  function : Address

/-- `chart` is what `cfg_build` returns, if there is a function. -/
def buildFlowchart (chart : Option QFlowChart) (address : Address) : Outcome Error FlowChart :=
  (Outcome.okOr (.noFunction address.raw) chart).bind fun chart =>
    (extract chart).bind fun blocks =>
      .ok ⟨blocks, 0, (blocks.head?.map BasicBlock.start).getD address⟩

/-! ### Charts as the kernel builds them -/

def InRange (chart : QFlowChart) (t : Int32) : Prop :=
  0 ≤ t.toInt ∧ t.toInt < chart.blocks.length

def targets (l : List Int32) : List ℕ := l.map fun t => t.toInt.toNat

/-- The predecessors are the successors turned round. -/
def Transposed (chart : QFlowChart) : Prop :=
  ∀ (i j : ℕ) (source target : QBasicBlock), chart.blocks[i]? = some source →
    chart.blocks[j]? = some target → (targets target.pred).count i = (targets source.succ).count j

structure Chart extends QFlowChart where
  bounds : ∀ q ∈ blocks, q.startEa ≠ badAddr ∧ q.endEa ≠ badAddr
  proper : 1 ≤ nproper.toInt ∧ nproper.toInt ≤ blocks.length
  succ_range : ∀ q ∈ blocks, ∀ t ∈ q.succ, InRange toQFlowChart t
  pred_range : ∀ q ∈ blocks, ∀ t ∈ q.pred, InRange toQFlowChart t
  preds : Transposed toQFlowChart ∨ ∀ q ∈ blocks, q.pred = []

def Chart.own (chart : Chart) : ℕ := chart.nproper.toInt.toNat

/-- One of the six kinds of a proper block. -/
def Modelled (kind : Int32) : Prop := ∃ k : BasicBlockKind, (k.code.toNat : ℤ) = kind.toInt

def IsExit (chart : QFlowChart) (j : ℕ) (exit : ExternalExit) : Prop :=
  ∃ stub, chart.blocks[j]? = some stub ∧ exit.target.raw = stub.startEa ∧
    (exit.noreturn = true ↔ stub.kind.toInt = fcbEnoret.toNat)

/-- A block of the graph has the bounds, the kind and the edges of the chart's
block. -/
structure BlockFaithful (chart : Chart) (q : QBasicBlock) (b : BasicBlock) : Prop where
  start : b.start.raw = q.startEa
  end_ : b.end_.raw = q.endEa
  kind : (b.kind.code.toNat : ℤ) = q.kind.toInt
  succ : b.succ.map UInt32.toNat = (targets q.succ).filter (· < chart.own)
  exits : List.Forall₂ (IsExit chart.toQFlowChart)
    ((targets q.succ).filter (chart.own ≤ ·)) b.exits
  pred : b.pred.map UInt32.toNat = (targets q.pred).filter (· < chart.own)

/-- A graph has the proper blocks of the chart and their edges, and nothing
else. -/
structure Faithful (chart : Chart) (blocks : List BasicBlock) : Prop where
  length : blocks.length = chart.own
  block : ∀ (i : ℕ) q b, chart.blocks[i]? = some q → blocks[i]? = some b → BlockFaithful chart q b
  handles : ∀ b ∈ blocks, ∀ j ∈ b.succ ++ b.pred, j.toNat < blocks.length
  turned : (∃ q ∈ chart.blocks, q.pred ≠ []) → ∀ (i j : ℕ) source target,
    blocks[i]? = some source → blocks[j]? = some target →
      (target.pred.map UInt32.toNat).count i = (source.succ.map UInt32.toNat).count j

structure FirstUnmodelled (chart : Chart) (i : ℕ) (q : QBasicBlock) : Prop where
  proper : i < chart.own
  here : chart.blocks[i]? = some q
  unmodelled : ¬ Modelled q.kind
  before : ∀ j < i, ∀ q', chart.blocks[j]? = some q' → Modelled q'.kind

/-- Extraction ends in an error or in a faithful graph, and a kind that is not
modelled is reported. -/
structure Extracts (chart : Chart) : Prop where
  total : extract chart.toQFlowChart ≠ .panic
  faithful : ∀ blocks, extract chart.toQFlowChart = .ok blocks → Faithful chart blocks
  reports : ∀ i q, FirstUnmodelled chart i q → ∃ raw,
    extract chart.toQFlowChart = .err (.unknownBlockKind q.startEa raw) ∧
      (raw.toNat : ℤ) = q.kind.toInt

/-- The first kind that is not modelled is a byte; where there is none, a stub
that is reached is of the no-return kind if its last byte says so. -/
def KindsFit (chart : Chart) : Prop :=
  (∃ i q, FirstUnmodelled chart i q ∧ 0 ≤ q.kind.toInt ∧ q.kind.toInt < 256) ∨
  (∀ i < chart.own, ∀ q, chart.blocks[i]? = some q → Modelled q.kind ∧
    ∀ j ∈ targets q.succ, chart.own ≤ j → ∀ stub, chart.blocks[j]? = some stub →
      kindByte stub.kind = fcbEnoret → stub.kind.toInt = fcbEnoret.toNat)

end Idakit.Flowchart
