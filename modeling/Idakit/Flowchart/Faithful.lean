import Idakit.Flowchart.Extract
import Mathlib.Data.Nat.Find

/-!
Extraction is faithful up to the last byte of a kind: the edges keep their
order and their multiplicity, and the blocks their bounds. A kind that is not a
byte is read as the byte it ends in.
-/

namespace Idakit.Flowchart

open Idakit.Library Idakit.Types Idakit.Decompiler

/-! ### Widths -/

theorem kindByte_toNat (kind : Int32) :
    ((kindByte kind).toNat : ℤ) = kind.toInt % 256 := by
  have htoNat : (kindByte kind).toNat = kind.toBitVec.toNat % 256 := rfl
  have htoInt : kind.toInt = kind.toBitVec.toInt := rfl
  have hlt := kind.toBitVec.isLt
  rw [htoInt, BitVec.toInt_eq_toNat_cond]
  omega

theorem kindByte_eq_iff {kind : Int32} :
    ((kindByte kind).toNat : ℤ) = kind.toInt ↔ 0 ≤ kind.toInt ∧ kind.toInt < 256 := by
  rw [kindByte_toNat]
  omega

theorem toNat_toUInt32 {chart : QFlowChart} {t : Int32} (h : InRange chart t) :
    t.toUInt32.toNat = t.toInt.toNat := by
  have hle : (0 : Int32) ≤ t := Int32.le_iff_toInt_le.mpr h.1
  rw [Int32.toNat_toUInt32_of_le hle, Int32.toNat_toInt]

theorem cfgNproper_eq (chart : Chart) : cfgNproper chart.toQFlowChart = chart.own := by
  have hle : (0 : Int64) ≤ chart.nproper.toInt64 := by
    have h := chart.proper.1
    rw [Int64.le_iff_toInt_le, Int32.toInt_toInt64]
    show (0 : ℤ) ≤ _
    omega
  rw [cfgNproper, Int64.toNat_toUInt64_of_le hle, Int32.toNatClampNeg_toInt64]
  rfl

/-! ### Kinds -/

theorem BasicBlockKind.code_injective : Function.Injective BasicBlockKind.code := by
  intro a b h
  cases a <;> cases b <;> first | rfl | contradiction

theorem BasicBlockKind.tryFrom_eq_some {code : UInt8} {kind : BasicBlockKind} :
    BasicBlockKind.tryFrom code = some kind ↔ kind.code = code := by
  constructor
  · intro h
    simpa using List.find?_some h
  · rintro rfl
    cases kind <;> rfl

theorem Modelled.range {kind : Int32} (h : Modelled kind) :
    0 ≤ kind.toInt ∧ kind.toInt < 256 := by
  obtain ⟨k, hk⟩ := h
  have hlt := k.code.toNat_lt
  omega

theorem tryFrom_of_modelled {kind : Int32} (h : Modelled kind) :
    ∃ k, BasicBlockKind.tryFrom (kindByte kind) = some k ∧ (k.code.toNat : ℤ) = kind.toInt := by
  have hbyte := kindByte_eq_iff.mpr h.range
  obtain ⟨k, hk⟩ := h
  refine ⟨k, BasicBlockKind.tryFrom_eq_some.mpr (UInt8.toNat_inj.mp ?_), hk⟩
  omega

theorem tryFrom_of_unmodelled {kind : Int32} (h : ¬ Modelled kind) (h0 : 0 ≤ kind.toInt)
    (h256 : kind.toInt < 256) : BasicBlockKind.tryFrom (kindByte kind) = none := by
  by_contra hsome
  obtain ⟨k, hk⟩ := Option.ne_none_iff_exists'.mp hsome
  have hcode := BasicBlockKind.tryFrom_eq_some.mp hk
  refine h ⟨k, ?_⟩
  rw [hcode]
  exact kindByte_eq_iff.mpr ⟨h0, h256⟩

/-! ### Edges -/

def Lifted (chart : QFlowChart) (j : ℕ) (exit : ExternalExit) : Prop :=
  ∃ stub, chart.blocks[j]? = some stub ∧ exit.target.raw = stub.startEa ∧
    exit.noreturn = decide (kindByte stub.kind = fcbEnoret)

theorem getElem?_of_inRange {chart : QFlowChart} {t : Int32} (h : InRange chart t) :
    ∃ q, chart.blocks[t.toInt.toNat]? = some q := by
  have hlt : t.toInt.toNat < chart.blocks.length := by
    have := h.1
    have := h.2
    omega
  exact ⟨_, List.getElem?_eq_getElem hlt⟩

theorem tryNew_of_ne {raw : UInt64} (h : raw ≠ badAddr) :
    Address.tryNew raw = some ⟨raw, h⟩ := by
  simp [Address.tryNew, h]

theorem filter_targets_pos {p : ℕ → Bool} {t : Int32} {l : List Int32}
    (h : p t.toInt.toNat = true) :
    (targets (t :: l)).filter p = t.toInt.toNat :: (targets l).filter p :=
  List.filter_cons_of_pos h

theorem filter_targets_neg {p : ℕ → Bool} {t : Int32} {l : List Int32}
    (h : p t.toInt.toNat = false) : (targets (t :: l)).filter p = (targets l).filter p :=
  List.filter_cons_of_neg (by simp only [h, Bool.false_eq_true, not_false_eq_true])

/-- The edges of a list go apart without being lost. -/
theorem splitEdges_ok (chart : Chart) {l : List Int32}
    (hrange : ∀ t ∈ l, InRange chart.toQFlowChart t) :
    ∃ succ exits,
      splitEdges chart.toQFlowChart chart.own (l.map Int32.toUInt32) = .ok (succ, exits) ∧
      succ.map UInt32.toNat = (targets l).filter (· < chart.own) ∧
      List.Forall₂ (Lifted chart.toQFlowChart) ((targets l).filter (chart.own ≤ ·)) exits := by
  induction l with
  | nil => exact ⟨[], [], rfl, rfl, .nil⟩
  | cons t l ih =>
      have ht := hrange t (by simp)
      have hnat := toNat_toUInt32 ht
      obtain ⟨succ, exits, hsplit, hsucc, hexits⟩ :=
        ih fun t ht => hrange t (List.mem_cons_of_mem _ ht)
      by_cases hown : t.toInt.toNat < chart.own
      · have hnot : ¬ chart.own ≤ t.toInt.toNat := by omega
        refine ⟨t.toUInt32 :: succ, exits, ?_, ?_, ?_⟩
        · simp only [List.map_cons, splitEdges, hnat, hown, if_true, hsplit, Outcome.ok_bind]
        · rw [List.map_cons, hnat, hsucc, filter_targets_pos (decide_eq_true hown)]
        · rw [filter_targets_neg (decide_eq_false hnot)]
          exact hexits
      · have hle : chart.own ≤ t.toInt.toNat := by omega
        obtain ⟨stub, hstub⟩ := getElem?_of_inRange ht
        have hstart := (chart.bounds stub (List.mem_of_getElem? hstub)).1
        refine ⟨succ, ⟨⟨stub.startEa, hstart⟩, kindByte stub.kind = fcbEnoret⟩ :: exits,
          ?_, ?_, ?_⟩
        · simp only [List.map_cons, splitEdges, hnat, hown, if_false, hsplit, Outcome.ok_bind,
            cfgBlock, hstub, Option.map_some, Outcome.expect, tryNew_of_ne hstart]
        · rw [filter_targets_neg (decide_eq_false hown)]
          exact hsucc
        · rw [filter_targets_pos (decide_eq_true hle)]
          exact .cons ⟨stub, hstub, rfl, rfl⟩ hexits

theorem map_filter_lt {chart : QFlowChart} {n : ℕ} {l : List Int32}
    (hrange : ∀ t ∈ l, InRange chart t) :
    ((l.map Int32.toUInt32).filter fun j => j.toNat < n).map UInt32.toNat =
      (targets l).filter (· < n) := by
  induction l with
  | nil => rfl
  | cons t l ih =>
      have hnat := toNat_toUInt32 (hrange t (by simp))
      have hrest := ih fun t ht => hrange t (List.mem_cons_of_mem _ ht)
      by_cases hlt : t.toInt.toNat < n
      · rw [List.map_cons, List.filter_cons_of_pos (by rw [hnat]; exact decide_eq_true hlt),
          filter_targets_pos (decide_eq_true hlt), List.map_cons, hnat, hrest]
      · rw [List.map_cons, List.filter_cons_of_neg (by rw [hnat]; simpa only [decide_eq_true_iff] using hlt),
          filter_targets_neg (decide_eq_false hlt), hrest]

/-! ### Blocks -/

/-- What is read of a block of the chart; the kinds are told apart by their
last bytes. -/
structure ReadsAs (chart : Chart) (q : QBasicBlock) (b : BasicBlock) : Prop where
  start : b.start.raw = q.startEa
  end_ : b.end_.raw = q.endEa
  kind : BasicBlockKind.tryFrom (kindByte q.kind) = some b.kind
  succ : b.succ.map UInt32.toNat = (targets q.succ).filter (· < chart.own)
  exits : List.Forall₂ (Lifted chart.toQFlowChart)
    ((targets q.succ).filter (chart.own ≤ ·)) b.exits
  pred : b.pred.map UInt32.toNat = (targets q.pred).filter (· < chart.own)

theorem extractBlock_ok (chart : Chart) {i : ℕ} {q : QBasicBlock} {kind : BasicBlockKind}
    (hq : chart.blocks[i]? = some q) (hkind : BasicBlockKind.tryFrom (kindByte q.kind) = some kind) :
    ∃ b, extractBlock chart.toQFlowChart chart.own i = .ok b ∧ ReadsAs chart q b := by
  have hmem := List.mem_of_getElem? hq
  obtain ⟨hstart, hend⟩ := chart.bounds q hmem
  obtain ⟨succ, exits, hsplit, hsucc, hexits⟩ := splitEdges_ok chart (chart.succ_range q hmem)
  have hpred := map_filter_lt (n := chart.own) (chart.pred_range q hmem)
  refine ⟨{ start := ⟨q.startEa, hstart⟩, end_ := ⟨q.endEa, hend⟩, kind, succ
            pred := (q.pred.map Int32.toUInt32).filter fun j => j.toNat < chart.own, exits },
    ?_, rfl, rfl, hkind, hsucc, hexits, hpred⟩
  simp only [extractBlock, cfgBlock, hq, Option.map_some, Outcome.expect, Outcome.ok_bind, hkind,
    Outcome.okOr, successors, cfgSuccs, hsplit, blockRange, tryNew_of_ne hstart, tryNew_of_ne hend,
    predecessors, cfgPreds]

theorem extractBlock_unknown {chart : Chart} {i : ℕ} {q : QBasicBlock}
    (hq : chart.blocks[i]? = some q) (hkind : BasicBlockKind.tryFrom (kindByte q.kind) = none) :
    extractBlock chart.toQFlowChart chart.own i =
      .err (.unknownBlockKind q.startEa (kindByte q.kind)) := by
  simp only [extractBlock, cfgBlock, hq, Option.map_some, Outcome.expect, Outcome.ok_bind, hkind,
    Outcome.okOr, Outcome.err_bind]

theorem Chart.getElem?_of_lt (chart : Chart) {i : ℕ} (h : i < chart.own) :
    ∃ q, chart.blocks[i]? = some q := by
  have hlt : i < chart.blocks.length := by
    have hown : chart.own = chart.nproper.toInt.toNat := rfl
    have := chart.proper.2
    omega
  exact ⟨_, List.getElem?_eq_getElem hlt⟩

/-- A block is read or is refused for its kind. -/
theorem extractBlock_cases (chart : Chart) {i : ℕ} (h : i < chart.own) :
    ∃ q, chart.blocks[i]? = some q ∧
      ((∃ b, extractBlock chart.toQFlowChart chart.own i = .ok b ∧ ReadsAs chart q b) ∨
        extractBlock chart.toQFlowChart chart.own i =
          .err (.unknownBlockKind q.startEa (kindByte q.kind))) := by
  obtain ⟨q, hq⟩ := chart.getElem?_of_lt h
  refine ⟨q, hq, ?_⟩
  match hkind : BasicBlockKind.tryFrom (kindByte q.kind) with
  | some kind => exact .inl (extractBlock_ok chart hq hkind)
  | none => exact .inr (extractBlock_unknown hq hkind)

/-! ### The arena -/

theorem extract_ne_panic (chart : Chart) : extract chart.toQFlowChart ≠ .panic := by
  rw [extract, cfgNproper_eq]
  refine Outcome.collect_ne_panic fun i hi => ?_
  obtain ⟨q, -, ⟨b, hok, -⟩ | herr⟩ := extractBlock_cases chart (List.mem_range.mp hi)
  · simp [hok]
  · simp [herr]

/-- The arena has the proper blocks in their order. -/
theorem extract_ok {chart : Chart} {blocks : List BasicBlock}
    (h : extract chart.toQFlowChart = .ok blocks) :
    blocks.length = chart.own ∧ ∀ (i : ℕ) q b, chart.blocks[i]? = some q →
      blocks[i]? = some b → ReadsAs chart q b := by
  rw [extract, cfgNproper_eq] at h
  obtain ⟨hlen, hget⟩ := Outcome.collect_ok h
  rw [List.length_range] at hlen
  refine ⟨hlen, fun i q b hq hb => ?_⟩
  obtain ⟨i', hi', hok⟩ := hget i b hb
  obtain ⟨hlt, heq⟩ := List.getElem?_eq_some_iff.mp hi'
  rw [List.getElem_range] at heq
  subst heq
  rw [List.length_range] at hlt
  obtain ⟨q', hq', ⟨b', hok', hreads⟩ | herr⟩ := extractBlock_cases chart hlt
  · obtain rfl : q = q' := Option.some.inj (hq.symm.trans hq')
    obtain rfl : b = b' := Outcome.ok.inj (hok.symm.trans hok')
    exact hreads
  · rw [herr] at hok
    contradiction

theorem exists_extract {chart : Chart}
    (h : ∀ i < chart.own, ∀ q, chart.blocks[i]? = some q → Modelled q.kind) :
    ∃ blocks, extract chart.toQFlowChart = .ok blocks := by
  rw [extract, cfgNproper_eq]
  refine Outcome.exists_collect fun i hi => ?_
  have hi := List.mem_range.mp hi
  obtain ⟨q, hq⟩ := chart.getElem?_of_lt hi
  obtain ⟨kind, hkind, -⟩ := tryFrom_of_modelled (h i hi q hq)
  obtain ⟨b, hok, -⟩ := extractBlock_ok chart hq hkind
  exact ⟨b, hok⟩

/-- The first kind that is no kind of a proper block ends the extraction. -/
theorem extract_err {chart : Chart} {i : ℕ} {q : QBasicBlock} (h : FirstUnmodelled chart i q)
    (hkind : BasicBlockKind.tryFrom (kindByte q.kind) = none) :
    extract chart.toQFlowChart = .err (.unknownBlockKind q.startEa (kindByte q.kind)) := by
  have hsplit : List.range chart.own =
      List.range i ++ i :: (List.range (chart.own - i - 1)).map (i + 1 + ·) := by
    have hadd : chart.own = i + 1 + (chart.own - i - 1) := by
      have := h.proper
      omega
    conv_lhs => rw [hadd, List.range_add, List.range_succ]
    simp
  rw [extract, cfgNproper_eq, hsplit]
  refine Outcome.collect_eq_err (fun j hj => ?_) (extractBlock_unknown h.here hkind)
  have hj := List.mem_range.mp hj
  obtain ⟨q', hq'⟩ := chart.getElem?_of_lt (hj.trans h.proper)
  obtain ⟨kind, hkind, -⟩ := tryFrom_of_modelled (h.before j hj q' hq')
  obtain ⟨b, hok, -⟩ := extractBlock_ok chart hq' hkind
  exact ⟨b, hok⟩

/-- A graph of a function has an entry, and is named by where that starts. -/
theorem buildFlowchart_ok {chart : Chart} {address : Address} {graph : FlowChart}
    (h : buildFlowchart (some chart.toQFlowChart) address = .ok graph) :
    extract chart.toQFlowChart = .ok graph.blocks ∧
      ∃ b, graph.blocks[graph.entry.toNat]? = some b ∧ graph.function = b.start := by
  rw [buildFlowchart, Outcome.okOr, Outcome.ok_bind] at h
  obtain ⟨blocks, hblocks, hgraph⟩ := Outcome.bind_eq_ok_iff.mp h
  obtain rfl := Outcome.ok.inj hgraph
  refine ⟨hblocks, ?_⟩
  have hlen := (extract_ok hblocks).1
  match blocks with
  | [] =>
      have hown : chart.own = chart.nproper.toInt.toNat := rfl
      have hproper := chart.proper.1
      rw [List.length_nil] at hlen
      omega
  | b :: blocks => exact ⟨b, rfl, rfl⟩

/-! ### Faithfulness -/

theorem FirstUnmodelled.unique {chart : Chart} {i j : ℕ} {q q' : QBasicBlock}
    (h : FirstUnmodelled chart i q) (h' : FirstUnmodelled chart j q') : q = q' := by
  have hij : i = j := by
    by_contra hne
    rcases lt_or_gt_of_ne hne with hlt | hlt
    · exact h.unmodelled (h'.before i hlt q h.here)
    · exact h'.unmodelled (h.before j hlt q' h'.here)
  subst hij
  exact Option.some.inj (h.here.symm.trans h'.here)

/-- Either every proper block is of a modelled kind, or one is the first that is
not. -/
theorem modelled_or_first (chart : Chart) :
    (∀ i < chart.own, ∀ q, chart.blocks[i]? = some q → Modelled q.kind) ∨
      ∃ i q, FirstUnmodelled chart i q := by
  classical
  by_cases h : ∃ i, i < chart.own ∧ ∃ q, chart.blocks[i]? = some q ∧ ¬ Modelled q.kind
  · right
    obtain ⟨hlt, q, hq, hnot⟩ := Nat.find_spec h
    refine ⟨Nat.find h, q, hlt, hq, hnot, fun j hj q' hq' => ?_⟩
    by_contra hnot'
    exact Nat.find_min h hj ⟨hj.trans hlt, q', hq', hnot'⟩
  · left
    intro i hi q hq
    by_contra hnot
    exact h ⟨i, hi, q, hq, hnot⟩

theorem Lifted.isExit {chart : QFlowChart} {j : ℕ} {exit : ExternalExit}
    (h : Lifted chart j exit)
    (hfit : ∀ stub, chart.blocks[j]? = some stub → kindByte stub.kind = fcbEnoret →
      stub.kind.toInt = fcbEnoret.toNat) : IsExit chart j exit := by
  obtain ⟨stub, hstub, htarget, hnoreturn⟩ := h
  refine ⟨stub, hstub, htarget, ?_⟩
  rw [hnoreturn, decide_eq_true_iff]
  refine ⟨hfit stub hstub, fun hkind => UInt8.toNat_inj.mp ?_⟩
  have hbyte := kindByte_toNat stub.kind
  rw [hkind] at hbyte
  have hfive : fcbEnoret.toNat = 5 := rfl
  omega

theorem Lifted.kind_of_isExit {chart : QFlowChart} {j : ℕ} {exit : ExternalExit}
    (h : Lifted chart j exit) (hexit : IsExit chart j exit) {stub : QBasicBlock}
    (hstub : chart.blocks[j]? = some stub) (hkind : kindByte stub.kind = fcbEnoret) :
    stub.kind.toInt = fcbEnoret.toNat := by
  obtain ⟨stub', hstub', -, hnoreturn⟩ := h
  obtain ⟨stub'', hstub'', -, hiff⟩ := hexit
  obtain rfl : stub = stub' := Option.some.inj (hstub.symm.trans hstub')
  obtain rfl : stub = stub'' := Option.some.inj (hstub.symm.trans hstub'')
  apply hiff.mp
  rw [hnoreturn, decide_eq_true_iff]
  exact hkind

/-- The exits of a list of stubs, when each of them is one. -/
theorem forall₂_isExit {chart : QFlowChart} {l : List ℕ} {exits : List ExternalExit}
    (h : List.Forall₂ (Lifted chart) l exits)
    (hfit : ∀ j ∈ l, ∀ stub, chart.blocks[j]? = some stub → kindByte stub.kind = fcbEnoret →
      stub.kind.toInt = fcbEnoret.toNat) : List.Forall₂ (IsExit chart) l exits := by
  induction h with
  | nil => exact .nil
  | cons hlifted _ ih =>
      exact .cons (hlifted.isExit (hfit _ (by simp)))
        (ih fun j hj => hfit j (List.mem_cons_of_mem _ hj))

theorem kind_of_forall₂_isExit {chart : QFlowChart} {l : List ℕ} {exits : List ExternalExit}
    (h : List.Forall₂ (Lifted chart) l exits) (hexits : List.Forall₂ (IsExit chart) l exits)
    {j : ℕ} (hj : j ∈ l) {stub : QBasicBlock} (hstub : chart.blocks[j]? = some stub)
    (hkind : kindByte stub.kind = fcbEnoret) : stub.kind.toInt = fcbEnoret.toNat := by
  induction h with
  | nil => simp at hj
  | cons hlifted _ ih =>
      obtain ⟨hexit, hrest⟩ := List.forall₂_cons.mp hexits
      rcases List.mem_cons.mp hj with rfl | hj
      · exact hlifted.kind_of_isExit hexit hstub hkind
      · exact ih hrest hj

theorem ReadsAs.blockFaithful {chart : Chart} {q : QBasicBlock} {b : BasicBlock}
    (h : ReadsAs chart q b) (hkind : Modelled q.kind)
    (hfit : ∀ j ∈ targets q.succ, chart.own ≤ j → ∀ stub, chart.blocks[j]? = some stub →
      kindByte stub.kind = fcbEnoret → stub.kind.toInt = fcbEnoret.toNat) :
    BlockFaithful chart q b where
  start := h.start
  end_ := h.end_
  kind := by
    obtain ⟨k, hk, hcode⟩ := tryFrom_of_modelled hkind
    obtain rfl : b.kind = k := Option.some.inj (h.kind.symm.trans hk)
    exact hcode
  succ := h.succ
  exits := by
    refine forall₂_isExit h.exits fun j hj => ?_
    obtain ⟨hmem, hle⟩ := List.mem_filter.mp hj
    exact hfit j hmem (of_decide_eq_true hle)
  pred := h.pred

theorem ReadsAs.handles {chart : Chart} {q : QBasicBlock} {b : BasicBlock}
    (h : ReadsAs chart q b) {j : BasicBlockId} (hj : j ∈ b.succ ++ b.pred) :
    j.toNat < chart.own := by
  rcases List.mem_append.mp hj with hj | hj
  · have hmem := List.mem_map_of_mem (f := UInt32.toNat) hj
    rw [h.succ] at hmem
    exact of_decide_eq_true (List.mem_filter.mp hmem).2
  · have hmem := List.mem_map_of_mem (f := UInt32.toNat) hj
    rw [h.pred] at hmem
    exact of_decide_eq_true (List.mem_filter.mp hmem).2

theorem extract_faithful {chart : Chart} {blocks : List BasicBlock}
    (h : extract chart.toQFlowChart = .ok blocks)
    (hfit : ∀ i < chart.own, ∀ q, chart.blocks[i]? = some q → Modelled q.kind ∧
      ∀ j ∈ targets q.succ, chart.own ≤ j → ∀ stub, chart.blocks[j]? = some stub →
        kindByte stub.kind = fcbEnoret → stub.kind.toInt = fcbEnoret.toNat) :
    Faithful chart blocks := by
  obtain ⟨hlen, hreads⟩ := extract_ok h
  have hlt : ∀ {i : ℕ} {b}, blocks[i]? = some b → i < chart.own := by
    intro i b hb
    rw [← hlen]
    exact (List.getElem?_eq_some_iff.mp hb).1
  refine ⟨hlen, fun i q b hq hb => ?_, fun b hb j hj => ?_, fun hpreds i j b c hb hc => ?_⟩
  · obtain ⟨hkind, hstubs⟩ := hfit i (hlt hb) q hq
    exact (hreads i q b hq hb).blockFaithful hkind hstubs
  · obtain ⟨i, hi⟩ := List.mem_iff_getElem?.mp hb
    obtain ⟨q, hq⟩ := chart.getElem?_of_lt (hlt hi)
    rw [hlen]
    exact (hreads i q b hq hi).handles hj
  · obtain ⟨q, hq⟩ := chart.getElem?_of_lt (hlt hb)
    obtain ⟨q', hq'⟩ := chart.getElem?_of_lt (hlt hc)
    have hturned : Transposed chart.toQFlowChart := by
      refine chart.preds.resolve_right fun hempty => ?_
      obtain ⟨r, hr, hne⟩ := hpreds
      exact hne (hempty r hr)
    -- Both ends are proper, so no filter drops either of them.
    rw [(hreads i q b hq hb).succ, (hreads j q' c hq' hc).pred,
      List.count_filter (by simpa using hlt hb), List.count_filter (by simpa using hlt hc)]
    exact hturned i j q q' hq hq'

/-! ### When extraction is faithful -/

/-- Extraction is as it should be just for the charts whose kinds are not
mistaken for others. -/
theorem extracts_iff (chart : Chart) : Extracts chart ↔ KindsFit chart := by
  constructor
  · intro h
    rcases modelled_or_first chart with hall | ⟨i, q, hfirst⟩
    · right
      intro i hi q hq
      obtain ⟨blocks, hblocks⟩ := exists_extract hall
      obtain ⟨hlen, hreads⟩ := extract_ok hblocks
      refine ⟨hall i hi q hq, fun j hj hle stub hstub hkind => ?_⟩
      obtain ⟨b, hb⟩ : ∃ b, blocks[i]? = some b := by
        have hlt : i < blocks.length := by omega
        exact ⟨_, List.getElem?_eq_getElem hlt⟩
      have hexits := ((h.faithful blocks hblocks).block i q b hq hb).exits
      refine kind_of_forall₂_isExit (hreads i q b hq hb).exits hexits ?_ hstub hkind
      exact List.mem_filter.mpr ⟨hj, decide_eq_true hle⟩
    · left
      obtain ⟨raw, -, hraw⟩ := h.reports i q hfirst
      have hlt := raw.toNat_lt
      exact ⟨i, q, hfirst, by omega, by omega⟩
  · rintro (⟨i, q, hfirst, h0, h256⟩ | hfit)
    · have herr := extract_err hfirst (tryFrom_of_unmodelled hfirst.unmodelled h0 h256)
      refine ⟨extract_ne_panic chart, fun blocks hok => ?_, fun j q' hfirst' => ?_⟩
      · rw [herr] at hok
        contradiction
      · obtain rfl := hfirst.unique hfirst'
        exact ⟨_, herr, kindByte_eq_iff.mpr ⟨h0, h256⟩⟩
    · refine ⟨extract_ne_panic chart, fun blocks hok => extract_faithful hok hfit,
        fun i q hfirst => ?_⟩
      exact absurd (hfit i hfirst.proper q hfirst.here).1 hfirst.unmodelled

def wideKind : Chart where
  blocks := [⟨0x1000, 0x1010, 256, [], []⟩]
  nproper := 1
  bounds := by decide
  proper := by decide
  succ_range := by simp
  pred_range := by simp
  preds := .inr (by simp)

/-- It is taken for a normal block. -/
theorem not_extracts_wideKind : ¬ Extracts wideKind := by
  intro h
  obtain ⟨raw, hraw, -⟩ := h.reports 0 ⟨0x1000, 0x1010, 256, [], []⟩
    { proper := by decide
      here := rfl
      unmodelled := by
        rintro ⟨k, hk⟩
        cases k <;> revert hk <;> decide
      before := by simp }
  have hok : extract wideKind.toQFlowChart =
      .ok [⟨⟨0x1000, by decide⟩, ⟨0x1010, by decide⟩, .normal, [], [], []⟩] := rfl
  rw [hok] at hraw
  contradiction

end Idakit.Flowchart
