import Idakit.Facade.CtreeExpressions

/-!
The walk of a statement comes to an end, leaves its nodes behind with its own
handle open, and the arenas show the statement at that handle. Cases and the
blocks of a `try` are walked as lists of statements.
-/

namespace Idakit.Facade

open Idakit.Library Idakit.Types Idakit.Decompiler

variable {env : Environment} {lossy : Name → Text} {ctree : CtreeSdk}
  {s s' s'' : WalkerState} {nodes nodes' : List (SourceNode TypeRef)}
  {handles handles' : List NodeRef}

/-- The statements inside a statement, those of its blocks included. -/
def Cinsn.parts {τ : Type} : Cinsn τ → List (Cinsn τ)
  | .block _ list => list
  | .if_ _ _ ithen ielse => ithen :: ielse.toList
  | .for_ _ _ _ _ body | .while_ _ _ body | .do_ _ body _ => [body]
  | .switch _ _ cases => cases.map Case.body
  | .try_ _ body catchs => body ++ catchs.flatten
  | _ => []

theorem Cinsn.sizeOf_lt_of_mem_parts {τ : Type} {c d : Cinsn τ} (h : d ∈ c.parts) :
    sizeOf d < sizeOf c := by
  cases c with
  | block ea list =>
      have : sizeOf d < sizeOf list := List.sizeOf_lt_of_mem h
      simp
      omega
  | if_ ea e ithen ielse =>
      simp only [parts, List.mem_cons, Option.mem_toList] at h
      rcases h with rfl | rfl <;> simp <;> omega
  | for_ ea init e step body =>
      obtain rfl := List.mem_singleton.mp h
      simp
  | while_ ea e body =>
      obtain rfl := List.mem_singleton.mp h
      simp
  | do_ ea body e =>
      obtain rfl := List.mem_singleton.mp h
      simp
      omega
  | switch ea e cases =>
      obtain ⟨case_, hcase, rfl⟩ := List.mem_map.mp h
      have := List.sizeOf_lt_of_mem hcase
      have hbody : sizeOf case_.body < sizeOf case_ := by
        obtain ⟨values, body⟩ := case_
        simp
      simp
      omega
  | try_ ea body catchs =>
      rcases List.mem_append.mp h with h | h
      · have := List.sizeOf_lt_of_mem h
        simp
        omega
      · obtain ⟨list, hlist, hmem⟩ := List.mem_flatten.mp h
        have := List.sizeOf_lt_of_mem hlist
        have := List.sizeOf_lt_of_mem hmem
        simp
        omega
  | _ => cases h

/-- Induction on a statement from the statements inside it. -/
theorem Cinsn.induct {τ : Type} {motive : Cinsn τ → Prop}
    (step : ∀ c, (∀ d ∈ c.parts, motive d) → motive c) (c : Cinsn τ) : motive c := by
  induction hsize : sizeOf c using Nat.strongRecOn generalizing c with
  | _ n ih =>
      subst hsize
      exact step c fun d hd => ih _ (sizeOf_lt_of_mem_parts hd) d rfl

def WalksStatement (env : Environment) (lossy : Name → Text) (ctree : CtreeSdk)
    (c : Cinsn TypeRef) : Prop :=
  ∀ s, Ready env ctree (c.nodes ctree) s →
    Completes (fun fuel => Walker.stmt (env.sdk lossy) ctree fuel c) s
      (EmittedStatement env lossy ctree s c)

theorem nodesOfBodies_eq (cases : List (Case (Cinsn TypeRef))) :
    nodesOfBodies ctree cases = nodesOfStmts ctree (cases.map Case.body) := by
  induction cases with
  | nil => simp [nodesOfBodies, nodesOfStmts]
  | cons c cases ih => rw [nodesOfBodies, List.map_cons, nodesOfStmts, ih]

theorem nodesOfBlocks_eq (ea : UInt64) (lists : List (List (Cinsn TypeRef))) :
    nodesOfBlocks ctree ea lists = nodesOfStmts ctree (lists.map (.block ea)) := by
  induction lists with
  | nil => simp [nodesOfBlocks, nodesOfStmts]
  | cons list lists ih => rw [nodesOfBlocks, List.map_cons, nodesOfStmts, ih, Cinsn.nodes]

theorem Walker.bodies_eq (sdk : Sdk TypeRef) (fuel : ℕ) (cases : List (Case (Cinsn TypeRef))) :
    Walker.bodies sdk ctree fuel cases = Walker.stmts sdk ctree fuel (cases.map Case.body) := by
  induction cases with
  | nil => simp [Walker.bodies, Walker.stmts]
  | cons c cases ih => rw [Walker.bodies, List.map_cons, Walker.stmts, ih]

theorem Walker.blocks_eq (sdk : Sdk TypeRef) (fuel : ℕ) (ea : UInt64)
    (lists : List (List (Cinsn TypeRef))) :
    Walker.blocks sdk ctree fuel ea lists =
      Walker.stmts sdk ctree fuel (lists.map (.block ea)) := by
  induction lists with
  | nil => simp [Walker.blocks, Walker.stmts]
  | cons list lists ih => rw [Walker.blocks, List.map_cons, Walker.stmts, ih, Walker.stmt]

/-- The statements of a list, in order. -/
theorem completes_stmts {cs : List (Cinsn TypeRef)}
    (hcs : ∀ c ∈ cs, WalksStatement env lossy ctree c)
    (h : Ready env ctree (nodesOfStmts ctree cs) s) :
    Completes (fun fuel => Walker.stmts (env.sdk lossy) ctree fuel cs) s fun ids s' =>
      Emitted env (nodesOfStmts ctree cs) (ids.map .statement) s s' ∧ ids.length = cs.length ∧
        (firstFailure (nodesOfStmts ctree cs) = none →
          List.Forall₂ (s'.ShowsStmt env lossy ctree) cs ids) := by
  induction cs generalizing s with
  | nil => exact .pure ⟨.refl h.inv, rfl, fun _ => .nil⟩
  | cons c cs ih =>
      simp only [Walker.stmts]
      have h : Ready env ctree (c.nodes ctree ++ nodesOfStmts ctree cs) s := h
      refine (hcs c List.mem_cons_self s h.left).bind ?_
      rintro id s₁ ⟨hw₁, -, hc⟩
      refine (ih (fun c hc => hcs c (List.mem_cons_of_mem _ hc)) (h.right hw₁)).bind ?_
      rintro ids s₂ ⟨hw₂, hlen, hall⟩
      refine .pure ⟨hw₁.trans hw₂, by simp [hlen], fun hclean => ?_⟩
      rw [nodesOfStmts, firstFailure_append, Option.or_eq_none_iff] at hclean
      exact .cons (hw₂.showsStmt (hc hclean.1)) (hall hclean.2)

theorem optHandle_of_ne {id : ℕ} (h : id ≠ noHandle) : optHandle id = some id := by
  rw [optHandle, if_pos h]

theorem optHandle_noHandle : optHandle noHandle = none := by simp [optHandle]

/-- An optional expression leaves a handle behind unless it is the empty one. -/
theorem completes_optExpr {e : Cexpr TypeRef} (he : WalksExpression env lossy ctree e)
    (h : Ready env ctree (e.optNodes ctree) s) :
    Completes (fun fuel => Walker.optExpr (env.sdk lossy) ctree fuel e) s fun id s' =>
      ∃ o : Option (Cexpr TypeRef × ExpressionId),
        e.unlessEmpty = o.map Prod.fst ∧ optHandle id = o.map Prod.snd ∧
        Emitted env (e.optNodes ctree) (o.toList.map fun p => .expression p.2) s s' ∧
        (firstFailure (e.optNodes ctree) = none →
          ∀ p ∈ o, s'.Shows env lossy ctree p.1 p.2) := by
  by_cases hempty : e.isEmpty
  · simp only [Walker.optExpr, Cexpr.optNodes, Cexpr.unlessEmpty, hempty, if_true]
    exact .pure ⟨none, rfl, optHandle_noHandle, .refl h.inv, by simp⟩
  · simp only [Walker.optExpr, Cexpr.optNodes, Cexpr.unlessEmpty, hempty, if_false,
      Bool.false_eq_true] at h ⊢
    refine (he s h).imp ?_
    rintro id s' ⟨hw, hid, hshows⟩
    refine ⟨some (e, id), rfl, optHandle_of_ne hid, hw, fun hclean p hp => ?_⟩
    cases hp
    exact hshows hclean

/-- A statement that is one callback. -/
theorem walksStatement_leaf {c : Cinsn TypeRef} (call : NodeCall)
    (hstmt : ∀ fuel, Walker.stmt (env.sdk lossy) ctree fuel c = emit call)
    (hnodes : c.nodes ctree = [.statement c])
    (hmade : call.made = .statement (c.kind.map (fun _ => 0) fun _ => 0))
    (hsliced : call.Sliced) (hea : call.ea = c.ea) (herror : call.error = c.failure)
    (hnone : c.kind.children = []) : WalksStatement env lossy ctree c := by
  intro s h
  rw [hnodes] at h
  simp only [hstmt]
  have hnodes : c.nodes ctree = [] ++ [.statement c] := hnodes
  refine completes_emit_statement hnodes h (.refl h.inv) hmade hsliced hea herror
    fun _ => ?_
  have hchildren : ∀ {δ ρ : Type} (f : Cexpr TypeRef → δ) (g : Cinsn TypeRef → ρ),
      (c.kind.map f g).children = [] := by
    intro δ ρ f g
    rw [StatementKind.children_map, hnone, List.map_nil]
  refine ⟨c.kind.map (fun e => (e, 0)) fun d => (d, 0), ?_, ?_, ?_, ?_, ?_⟩
  · rw [StatementKind.map_map]
  · rw [StatementKind.map_map]
    exact (StatementKind.map_id _).symm
  · rw [hchildren, List.map_nil]
  · intro e id he
    rw [hchildren] at he
    cases he
  · intro d id hd
    rw [hchildren] at hd
    cases hd

/-- A block, or the body of a guarded one. -/
theorem walksStatement_block {ea : UInt64} {list : List (Cinsn TypeRef)}
    (hlist : ∀ c ∈ list, WalksStatement env lossy ctree c) :
    WalksStatement env lossy ctree (.block ea list) := by
  intro s h
  have hnodes : (Cinsn.block ea list).nodes ctree =
      nodesOfStmts ctree list ++ [.statement (.block ea list)] := by rw [Cinsn.nodes]
  rw [hnodes] at h
  simp only [Walker.stmt, Walker.block]
  refine (completes_stmts hlist h.left).bind ?_
  rintro ids s₁ ⟨hw, hlen, hall⟩
  refine completes_emit_statement hnodes (h.right hw) hw rfl trivial rfl rfl fun hclean => ?_
  refine ⟨.block (list.zip ids), ?_, ?_, ?_, ?_, ?_⟩
  · rw [StatementKind.map, List.map_snd_zip (by omega)]
  · rw [StatementKind.map, List.map_fst_zip (by omega)]
    rfl
  · have hsnd : (list.zip ids).map Prod.snd = ids := List.map_snd_zip (by omega)
    simp only [StatementKind.children]
    conv_lhs => rw [← hsnd]
    simp [Child.map, Function.comp_def]
  · intro e id he
    simp [StatementKind.children] at he
  · intro d id hd
    simp only [StatementKind.children, List.mem_map, Child.statement.injEq] at hd
    obtain ⟨q, hq, rfl⟩ := hd
    exact (List.forall₂_iff_zip.mp (hall hclean)).2 hq

theorem walksStatement_expr {ea : UInt64} {e : Cexpr TypeRef}
    (he : WalksExpression env lossy ctree e) : WalksStatement env lossy ctree (.expr ea e) := by
  intro s h
  have hnodes : (Cinsn.expr ea e).nodes ctree = e.nodes ctree ++ [.statement (.expr ea e)] := by
    rw [Cinsn.nodes]
  rw [hnodes] at h
  simp only [Walker.stmt]
  refine (he s h.left).bind ?_
  rintro id s₁ ⟨hw, -, hshows⟩
  refine completes_emit_statement hnodes (h.right hw) hw rfl trivial rfl rfl fun hclean => ?_
  refine ⟨.expression (e, id), rfl, rfl, rfl, ?_, ?_⟩
  · rintro e' id' hmem
    cases List.mem_singleton.mp hmem
    exact hshows hclean
  · rintro d id' hmem
    cases List.mem_singleton.mp hmem

/-- A statement over an optional expression. -/
theorem walksStatement_optional {c : Cinsn TypeRef} (call : ℕ → NodeCall) {e : Cexpr TypeRef}
    (hstmt : ∀ fuel, Walker.stmt (env.sdk lossy) ctree fuel c =
      Walker.optExpr (env.sdk lossy) ctree fuel e >>= fun id => emit (call id))
    (hnodes : c.nodes ctree = e.optNodes ctree ++ [.statement c])
    (kind : ∀ {ε σ : Type}, Option ε → StatementKind ε σ)
    (hmade : ∀ id, (call id).made = .statement (kind (optHandle id)))
    (hsliced : ∀ id, (call id).Sliced) (hea : ∀ id, (call id).ea = c.ea)
    (herror : ∀ id, (call id).error = c.failure) (hkind : c.kind = kind e.unlessEmpty)
    (hmap : ∀ {ε δ σ ρ : Type} (f : ε → δ) (g : σ → ρ) (o : Option ε),
      (kind o).map f g = kind (o.map f))
    (hchildren : ∀ {ε σ : Type} (o : Option ε),
      (kind o : StatementKind ε σ).children = o.toList.map .expression)
    (he : WalksExpression env lossy ctree e) : WalksStatement env lossy ctree c := by
  intro s h
  rw [hnodes] at h
  simp only [hstmt]
  refine (completes_optExpr he h.left).bind ?_
  rintro id s₁ ⟨o, hfst, hsnd, hw, hshows⟩
  refine completes_emit_statement hnodes (h.right hw) hw (hmade id) (hsliced id) (hea id)
    (herror id) fun hclean => ?_
  refine ⟨kind o, ?_, ?_, ?_, ?_, ?_⟩
  · rw [hmap, hsnd]
  · rw [hmap, hkind, hfst]
  · rw [hchildren, List.map_map]
    rfl
  · intro e' id' hmem
    rw [hchildren] at hmem
    obtain ⟨p, hp, heq⟩ := List.mem_map.mp hmem
    cases heq
    exact hshows hclean _ (Option.mem_toList.mp hp)
  · intro d id' hmem
    rw [hchildren] at hmem
    obtain ⟨p, -, heq⟩ := List.mem_map.mp hmem
    cases heq

theorem walksStatement_if {ea : UInt64} {e : Cexpr TypeRef} {ithen : Cinsn TypeRef}
    {ielse : Option (Cinsn TypeRef)} (he : WalksExpression env lossy ctree e)
    (hthen : WalksStatement env lossy ctree ithen)
    (helse : ∀ c ∈ ielse, WalksStatement env lossy ctree c) :
    WalksStatement env lossy ctree (.if_ ea e ithen ielse) := by
  intro s h
  cases ielse with
  | none =>
      have hnodes : (Cinsn.if_ ea e ithen none).nodes ctree =
          e.nodes ctree ++ ithen.nodes ctree ++ [.statement (.if_ ea e ithen none)] := by
        rw [Cinsn.nodes]
      rw [hnodes] at h
      -- Condition and branches are walked in turn, each from where the one before it has left off.
      simp only [Walker.stmt]
      refine (he s h.left.left).bind ?_
      rintro id s₁ ⟨hw₁, -, hcond⟩
      refine (hthen s₁ (h.left.right hw₁)).bind ?_
      rintro id' s₂ ⟨hw₂, -, hbranch⟩
      have hmade : (NodeCall.sIf ea id id' noHandle).made = .statement (.if_ id id' none) := by
        rw [NodeCall.made, optHandle_noHandle]
      refine completes_emit_statement hnodes (h.right (hw₁.trans hw₂)) (hw₁.trans hw₂) hmade
        trivial rfl rfl fun hclean => ?_
      rw [firstFailure_append, Option.or_eq_none_iff] at hclean
      refine ⟨.if_ (e, id) (ithen, id') none, rfl, rfl, rfl, ?_, ?_⟩
      · intro e' i hmem
        simp only [StatementKind.children, Option.toList_none, List.map_nil, List.mem_cons,
          Child.expression.injEq, reduceCtorEq, List.not_mem_nil, or_false] at hmem
        cases hmem
        exact hw₂.shows (hcond hclean.1)
      · intro d i hmem
        simp only [StatementKind.children, Option.toList_none, List.map_nil, List.mem_cons,
          Child.statement.injEq, reduceCtorEq, List.not_mem_nil, or_false, false_or] at hmem
        cases hmem
        exact hbranch hclean.2
  | some ielse =>
      have hnodes : (Cinsn.if_ ea e ithen (some ielse)).nodes ctree =
          e.nodes ctree ++ ithen.nodes ctree ++ ielse.nodes ctree ++
            [.statement (.if_ ea e ithen (some ielse))] := by rw [Cinsn.nodes]
      rw [hnodes] at h
      simp only [Walker.stmt]
      refine (he s h.left.left.left).bind ?_
      rintro id s₁ ⟨hw₁, -, hcond⟩
      refine (hthen s₁ (h.left.left.right hw₁)).bind ?_
      rintro id' s₂ ⟨hw₂, -, hbranch⟩
      refine (helse ielse rfl s₂ (h.left.right (hw₁.trans hw₂))).bind ?_
      rintro id'' s₃ ⟨hw₃, hid, hother⟩
      have hw := (hw₁.trans hw₂).trans hw₃
      have hmade : (NodeCall.sIf ea id id' id'').made =
          .statement (.if_ id id' (some id'')) := by
        rw [NodeCall.made, optHandle_of_ne hid]
      refine completes_emit_statement hnodes (h.right hw) hw hmade trivial rfl rfl
        fun hclean => ?_
      simp only [firstFailure_append, Option.or_eq_none_iff] at hclean
      refine ⟨.if_ (e, id) (ithen, id') (some (ielse, id'')), rfl, rfl, rfl, ?_, ?_⟩
      · intro e' i hmem
        simp only [StatementKind.children, Option.toList_some, List.map_cons, List.map_nil,
          List.mem_cons, Child.expression.injEq, reduceCtorEq, List.not_mem_nil, or_false] at hmem
        cases hmem
        exact hw₃.shows (hw₂.shows (hcond hclean.1.1))
      · intro d i hmem
        simp only [StatementKind.children, Option.toList_some, List.map_cons, List.map_nil,
          List.mem_cons, Child.statement.injEq, reduceCtorEq, List.not_mem_nil, or_false,
          false_or] at hmem
        rcases hmem with hmem | hmem <;> cases hmem
        · exact hw₃.showsStmt (hbranch hclean.1.2)
        · exact hother hclean.2

theorem walksStatement_while {ea : UInt64} {e : Cexpr TypeRef} {body : Cinsn TypeRef}
    (he : WalksExpression env lossy ctree e) (hbody : WalksStatement env lossy ctree body) :
    WalksStatement env lossy ctree (.while_ ea e body) := by
  intro s h
  have hnodes : (Cinsn.while_ ea e body).nodes ctree =
      e.nodes ctree ++ body.nodes ctree ++ [.statement (.while_ ea e body)] := by rw [Cinsn.nodes]
  rw [hnodes] at h
  simp only [Walker.stmt]
  refine (he s h.left.left).bind ?_
  rintro id s₁ ⟨hw₁, -, hcond⟩
  refine (hbody s₁ (h.left.right hw₁)).bind ?_
  rintro id' s₂ ⟨hw₂, -, hshows⟩
  refine completes_emit_statement hnodes (h.right (hw₁.trans hw₂)) (hw₁.trans hw₂) rfl trivial rfl
    rfl fun hclean => ?_
  rw [firstFailure_append, Option.or_eq_none_iff] at hclean
  refine ⟨.while_ (e, id) (body, id'), rfl, rfl, rfl, ?_, ?_⟩
  · intro e' i hmem
    simp only [StatementKind.children, List.mem_cons, Child.expression.injEq, reduceCtorEq,
      List.not_mem_nil, or_false] at hmem
    cases hmem
    exact hw₂.shows (hcond hclean.1)
  · intro d i hmem
    simp only [StatementKind.children, List.mem_cons, Child.statement.injEq, reduceCtorEq,
      List.not_mem_nil, or_false, false_or] at hmem
    cases hmem
    exact hshows hclean.2

/-- The body of a `do` is walked before its condition. -/
theorem walksStatement_do {ea : UInt64} {body : Cinsn TypeRef} {e : Cexpr TypeRef}
    (hbody : WalksStatement env lossy ctree body) (he : WalksExpression env lossy ctree e) :
    WalksStatement env lossy ctree (.do_ ea body e) := by
  intro s h
  have hnodes : (Cinsn.do_ ea body e).nodes ctree =
      body.nodes ctree ++ e.nodes ctree ++ [.statement (.do_ ea body e)] := by rw [Cinsn.nodes]
  rw [hnodes] at h
  simp only [Walker.stmt]
  refine (hbody s h.left.left).bind ?_
  rintro id s₁ ⟨hw₁, -, hshows⟩
  refine (he s₁ (h.left.right hw₁)).bind ?_
  rintro id' s₂ ⟨hw₂, -, hcond⟩
  refine completes_emit_statement hnodes (h.right (hw₁.trans hw₂)) (hw₁.trans hw₂) rfl trivial rfl
    rfl fun hclean => ?_
  rw [firstFailure_append, Option.or_eq_none_iff] at hclean
  refine ⟨.do_ (body, id) (e, id'), rfl, rfl, rfl, ?_, ?_⟩
  · intro e' i hmem
    simp only [StatementKind.children, List.mem_cons, Child.expression.injEq, reduceCtorEq,
      List.not_mem_nil, or_false, false_or] at hmem
    cases hmem
    exact hcond hclean.2
  · intro d i hmem
    simp only [StatementKind.children, List.mem_cons, Child.statement.injEq, reduceCtorEq,
      List.not_mem_nil, or_false] at hmem
    cases hmem
    exact hw₂.showsStmt (hshows hclean.1)

theorem walksStatement_for {ea : UInt64} {init e step : Cexpr TypeRef} {body : Cinsn TypeRef}
    (hinit : WalksExpression env lossy ctree init) (he : WalksExpression env lossy ctree e)
    (hstep : WalksExpression env lossy ctree step) (hbody : WalksStatement env lossy ctree body) :
    WalksStatement env lossy ctree (.for_ ea init e step body) := by
  intro s h
  have hnodes : (Cinsn.for_ ea init e step body).nodes ctree =
      init.optNodes ctree ++ e.optNodes ctree ++ step.optNodes ctree ++ body.nodes ctree ++
        [.statement (.for_ ea init e step body)] := by rw [Cinsn.nodes]
  rw [hnodes] at h
  simp only [Walker.stmt]
  refine (completes_optExpr hinit h.left.left.left.left).bind ?_
  rintro idinit s₁ ⟨oinit, hfst, hsnd, hw₁, hshowinit⟩
  refine (completes_optExpr he (h.left.left.left.right hw₁)).bind ?_
  rintro idcond s₂ ⟨ocond, hfst', hsnd', hw₂, hshowcond⟩
  refine (completes_optExpr hstep (h.left.left.right (hw₁.trans hw₂))).bind ?_
  rintro idstep s₃ ⟨ostep, hfst'', hsnd'', hw₃, hshowstep⟩
  refine (hbody s₃ (h.left.right ((hw₁.trans hw₂).trans hw₃))).bind ?_
  rintro id s₄ ⟨hw₄, -, hshowbody⟩
  have hw := ((hw₁.trans hw₂).trans hw₃).trans hw₄
  refine completes_emit_statement hnodes (h.right hw) hw rfl trivial rfl rfl fun hclean => ?_
  simp only [firstFailure_append, Option.or_eq_none_iff] at hclean
  refine ⟨.for_ oinit ocond ostep (body, id), ?_, ?_, ?_, ?_, ?_⟩
  · rw [StatementKind.map, hsnd, hsnd', hsnd'']
  · rw [StatementKind.map, Cinsn.kind, hfst, hfst', hfst'']
  · simp [StatementKind.children, Child.map, Function.comp_def]
  · intro e' i hmem
    simp only [StatementKind.children, List.mem_append, List.mem_map, Option.mem_toList,
      Child.expression.injEq, exists_eq_right, List.mem_singleton, reduceCtorEq,
      or_false] at hmem
    rcases hmem with (hmem | hmem) | hmem
    · exact hw₄.shows (hw₃.shows (hw₂.shows (hshowinit hclean.1.1.1 _ hmem)))
    · exact hw₄.shows (hw₃.shows (hshowcond hclean.1.1.2 _ hmem))
    · exact hw₄.shows (hshowstep hclean.1.2 _ hmem)
  · intro d i hmem
    simp only [StatementKind.children, List.mem_append, List.mem_map, Option.mem_toList,
      reduceCtorEq, and_false, exists_false, List.mem_singleton, Child.statement.injEq,
      false_or] at hmem
    cases hmem
    exact hshowbody hclean.2

/-- The values of the cases, put one behind the other, are split again by
their counts. -/
theorem splitCases_flatMap {cases : List (Case (Cinsn TypeRef))} {ids : List ℕ}
    (hlen : ids.length = cases.length) (hcounted : ∀ c ∈ cases, c.values.length < 2 ^ 32) :
    splitCases (cases.flatMap Case.values)
        (ids.zip (cases.map fun c => u32 c.values.length)) =
      List.zipWith (fun c id => ⟨c.values, id⟩) cases ids := by
  induction cases generalizing ids with
  | nil => simp [splitCases]
  | cons c cases ih =>
      cases ids with
      | nil => cases hlen
      | cons id ids =>
          have hcount : u32 c.values.length = c.values.length :=
            Nat.mod_eq_of_lt (hcounted c List.mem_cons_self)
          simp only [List.flatMap_cons, List.map_cons, List.zip_cons_cons, splitCases, hcount,
            List.zipWith_cons_cons, List.take_left, List.drop_left]
          rw [ih (by simpa using hlen) fun c hc => hcounted c (List.mem_cons_of_mem _ hc)]

theorem sum_counts {cases : List (Case (Cinsn TypeRef))}
    (hcounted : ∀ c ∈ cases, c.values.length < 2 ^ 32) :
    (cases.map fun c => u32 c.values.length).sum = (cases.flatMap Case.values).length := by
  rw [List.length_flatMap]
  congr 1
  exact List.map_congr_left fun c hc => Nat.mod_eq_of_lt (hcounted c hc)

theorem walksStatement_switch {ea : UInt64} {e : Cexpr TypeRef}
    {cases : List (Case (Cinsn TypeRef))} (he : WalksExpression env lossy ctree e)
    (hbodies : ∀ c ∈ cases.map Case.body, WalksStatement env lossy ctree c) :
    WalksStatement env lossy ctree (.switch ea e cases) := by
  intro s h
  have hnodes : (Cinsn.switch ea e cases).nodes ctree =
      e.nodes ctree ++ nodesOfStmts ctree (cases.map Case.body) ++
        [.statement (.switch ea e cases)] := by rw [Cinsn.nodes, nodesOfBodies_eq]
  rw [hnodes] at h
  have hcounted : ∀ c ∈ cases, c.values.length < 2 ^ 32 :=
    h.formed (.statement (.switch ea e cases)) (by simp)
  simp only [Walker.stmt, Walker.bodies_eq]
  refine (he s h.left.left).bind ?_
  rintro id s₁ ⟨hw₁, -, hcond⟩
  refine (completes_stmts hbodies (h.left.right hw₁)).bind ?_
  rintro ids s₂ ⟨hw₂, hlen, hall⟩
  have hlen : ids.length = cases.length := by simpa using hlen
  have hmade : (NodeCall.sSwitch ea id ids (cases.map fun c => u32 c.values.length)
      (cases.flatMap Case.values)).made =
      .statement (.switch id (List.zipWith (fun c id => ⟨c.values, id⟩) cases ids)) := by
    rw [NodeCall.made, splitCases_flatMap hlen hcounted]
  have hsliced : (NodeCall.sSwitch ea id ids (cases.map fun c => u32 c.values.length)
      (cases.flatMap Case.values)).Sliced := by
    show ((ids.zip (cases.map fun c => u32 c.values.length)).map Prod.snd).sum ≤ _
    rw [List.map_snd_zip (by simp [hlen]), sum_counts hcounted]
  refine completes_emit_statement hnodes (h.right (hw₁.trans hw₂)) (hw₁.trans hw₂) hmade hsliced
    rfl rfl fun hclean => ?_
  rw [firstFailure_append, Option.or_eq_none_iff] at hclean
  refine ⟨.switch (e, id) (List.zipWith (fun c i => ⟨c.values, (c.body, i)⟩) cases ids),
    ?_, ?_, ?_, ?_, ?_⟩
  · rw [StatementKind.map, List.map_zipWith]
    rfl
  · have hfst : (cases.zip ids).map Prod.fst = cases := List.map_fst_zip (by omega)
    rw [List.map_zip_eq_zipWith] at hfst
    rw [StatementKind.map, List.map_zipWith]
    exact congrArg (StatementKind.switch e) hfst.symm
  · have hsnd : (cases.zip ids).map Prod.snd = ids := List.map_snd_zip (by omega)
    rw [List.map_zip_eq_zipWith] at hsnd
    rw [StatementKind.children, List.map_zipWith, List.map_cons, List.map_zipWith]
    refine congrArg (Child.expression id :: ·) ?_
    conv_lhs => rw [← hsnd, List.map_zipWith]
    rfl
  · intro e' i hmem
    simp only [StatementKind.children, List.mem_cons, Child.expression.injEq, List.mem_map,
      reduceCtorEq, and_false, exists_false, or_false] at hmem
    cases hmem
    exact hw₂.shows (hcond hclean.1)
  · intro d i hmem
    simp only [StatementKind.children, List.mem_cons, reduceCtorEq, List.mem_map,
      Child.statement.injEq, false_or] at hmem
    obtain ⟨c, hc, heq⟩ := hmem
    rw [← List.map_uncurry_zip_eq_zipWith, List.mem_map] at hc
    obtain ⟨q, hq, rfl⟩ := hc
    cases heq
    have hzip : (q.1.body, q.2) ∈ (cases.map Case.body).zip ids := by
      rw [List.zip_map_left]
      exact List.mem_map_of_mem hq
    exact (List.forall₂_iff_zip.mp (hall hclean.2)).2 hzip

/-- A guarded block, then the blocks that catch. -/
theorem walksStatement_try {ea : UInt64} {body : List (Cinsn TypeRef)}
    {catchs : List (List (Cinsn TypeRef))}
    (hbody : ∀ c ∈ body ++ catchs.flatten, WalksStatement env lossy ctree c) :
    WalksStatement env lossy ctree (.try_ ea body catchs) := by
  intro s h
  have hnodes : (Cinsn.try_ ea body catchs).nodes ctree =
      (Cinsn.block ea body).nodes ctree ++ nodesOfStmts ctree (catchs.map (.block ea)) ++
        [.statement (.try_ ea body catchs)] := by
    rw [Cinsn.nodes, Cinsn.nodes, nodesOfBlocks_eq]
  have hstmt (fuel : ℕ) : Walker.stmt (env.sdk lossy) ctree fuel (.try_ ea body catchs) =
      Walker.stmt (env.sdk lossy) ctree fuel (.block ea body) >>= fun id =>
        Walker.stmts (env.sdk lossy) ctree fuel (catchs.map (.block ea)) >>= fun ids =>
          emit (.sTry ea id ids) := by
    rw [Walker.stmt, Walker.stmt, Walker.blocks_eq]
  have hguarded : WalksStatement env lossy ctree (.block ea body) :=
    walksStatement_block fun c hc => hbody c (List.mem_append_left _ hc)
  have hcatchs : ∀ c ∈ catchs.map (.block ea), WalksStatement env lossy ctree c := by
    intro c hc
    obtain ⟨list, hlist, rfl⟩ := List.mem_map.mp hc
    refine walksStatement_block fun c hc => hbody c (List.mem_append_right _ ?_)
    exact List.mem_flatten_of_mem hlist hc
  rw [hnodes] at h
  simp only [hstmt]
  refine (hguarded s h.left.left).bind ?_
  rintro id s₁ ⟨hw₁, -, hshows⟩
  refine (completes_stmts hcatchs (h.left.right hw₁)).bind ?_
  rintro ids s₂ ⟨hw₂, hlen, hall⟩
  refine completes_emit_statement hnodes (h.right (hw₁.trans hw₂)) (hw₁.trans hw₂) rfl trivial rfl
    rfl fun hclean => ?_
  rw [firstFailure_append, Option.or_eq_none_iff] at hclean
  refine ⟨.try_ (.block ea body, id) ((catchs.map (.block ea)).zip ids), ?_, ?_, ?_, ?_, ?_⟩
  · rw [StatementKind.map, List.map_snd_zip hlen.le]
  · rw [StatementKind.map, List.map_fst_zip hlen.ge]
    rfl
  · have hsnd : ((catchs.map (Cinsn.block ea)).zip ids).map Prod.snd = ids :=
      List.map_snd_zip hlen.le
    rw [StatementKind.children, List.map_cons, List.map_map]
    refine congrArg (Child.statement id :: ·) ?_
    conv_lhs => rw [← hsnd, List.map_map]
    rfl
  · intro e' i hmem
    simp [StatementKind.children] at hmem
  · intro d i hmem
    simp only [StatementKind.children, List.mem_cons, Child.statement.injEq, List.mem_map,
      exists_eq_right] at hmem
    rcases hmem with hmem | hmem
    · cases hmem
      exact hw₂.showsStmt (hshows hclean.1)
    · exact (List.forall₂_iff_zip.mp (hall hclean.2)).2 hmem

theorem walksStatement (hlossy : DecodesUtf8 lossy) (huses : ctree.UsesOperands)
    (c : Cinsn TypeRef) : WalksStatement env lossy ctree c := by
  have hexpr (e : Cexpr TypeRef) : WalksExpression env lossy ctree e :=
    walksExpression hlossy huses e
  induction c using Cinsn.induct with
  | step c ih =>
      cases c with
      | block ea list => exact walksStatement_block ih
      | expr ea e => exact walksStatement_expr (hexpr e)
      | if_ ea e ithen ielse =>
          exact walksStatement_if (hexpr e) (ih ithen List.mem_cons_self) fun c hc =>
            ih c (List.mem_cons_of_mem _ (Option.mem_toList.mpr hc))
      | for_ ea init e step body =>
          exact walksStatement_for (hexpr init) (hexpr e) (hexpr step)
            (ih body (List.mem_singleton_self body))
      | while_ ea e body =>
          exact walksStatement_while (hexpr e) (ih body (List.mem_singleton_self body))
      | do_ ea body e => exact walksStatement_do (ih body (List.mem_singleton_self body)) (hexpr e)
      | switch ea e cases => exact walksStatement_switch (hexpr e) ih
      | return_ ea e =>
          exact walksStatement_optional (.sReturn ea) (fun _ => by rw [Walker.stmt])
            (by rw [Cinsn.nodes]) .return_ (fun _ => rfl) (fun _ => trivial) (fun _ => rfl)
            (fun _ => rfl) rfl (fun _ _ _ => rfl) (fun _ => rfl) (hexpr e)
      | throw ea e =>
          exact walksStatement_optional (.sThrow ea) (fun _ => by rw [Walker.stmt])
            (by rw [Cinsn.nodes]) .throw (fun _ => rfl) (fun _ => trivial) (fun _ => rfl)
            (fun _ => rfl) rfl (fun _ _ _ => rfl) (fun _ => rfl) (hexpr e)
      | try_ ea body catchs => exact walksStatement_try ih
      | goto ea labelNum =>
          exact walksStatement_leaf (.sGoto ea labelNum) (fun _ => by rw [Walker.stmt])
            (by rw [Cinsn.nodes]) rfl trivial rfl rfl rfl
      | asm ea addrs =>
          exact walksStatement_leaf (.sAsm ea addrs) (fun _ => by rw [Walker.stmt])
            (by rw [Cinsn.nodes]) rfl trivial rfl rfl rfl
      | break_ ea =>
          exact walksStatement_leaf (.sBreak ea) (fun _ => by rw [Walker.stmt])
            (by rw [Cinsn.nodes]) rfl trivial rfl rfl rfl
      | continue_ ea =>
          exact walksStatement_leaf (.sContinue ea) (fun _ => by rw [Walker.stmt])
            (by rw [Cinsn.nodes]) rfl trivial rfl rfl rfl
      | empty ea | other ea =>
          exact walksStatement_leaf (.sEmpty ea) (fun _ => by rw [Walker.stmt])
            (by rw [Cinsn.nodes]) rfl trivial rfl rfl rfl

end Idakit.Facade
