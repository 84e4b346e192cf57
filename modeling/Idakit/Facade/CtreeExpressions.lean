import Idakit.Facade.CtreeShown

/-!
The walk of an expression. A part of the walk is accounted for by the nodes of
the source that it leaves behind: every part comes to an end, counts its nodes,
records the first failure among them, and otherwise leaves open the handles of
the nodes it was asked for. The arenas show an expression at its handle.
-/

namespace Idakit.Facade

open Idakit.Library Idakit.Types Idakit.Decompiler

variable {env : Environment} {lossy : Name → Text} {ctree : CtreeSdk}
  {s s' s'' : WalkerState} {nodes nodes' : List (SourceNode TypeRef)}
  {handles handles' : List NodeRef}

/-! ### A part of the walk -/

def Environment.Mentions (env : Environment) (t : TypeRef) : Prop := t.names ⊆ env.names

instance (env : Environment) (t : TypeRef) : Decidable (env.Mentions t) :=
  inferInstanceAs (Decidable (t.names ⊆ env.names))

/-- What a node of the source is taken to be: its type's names are defined,
its operands are there and its values can be counted. -/
def SourceNode.Formed (env : Environment) (ctree : CtreeSdk) : SourceNode TypeRef → Prop
  | .expression e => env.Mentions e.type ∧ e.Present ctree
  | .statement s => s.Counted

instance (env : Environment) (ctree : CtreeSdk) (n : SourceNode TypeRef) :
    Decidable (SourceNode.Formed env ctree n) := by
  cases n
  case expression => exact inferInstanceAs (Decidable (_ ∧ _))
  case statement s => exact inferInstanceAs (Decidable s.Counted)

structure Ready (env : Environment) (ctree : CtreeSdk) (nodes : List (SourceNode TypeRef))
    (s : WalkerState) : Prop where
  inv : Inv env env.Mentions s.types
  formed : ∀ n ∈ nodes, SourceNode.Formed env ctree n
  expressions : s.nodes.b.expressions.length + expressionCount nodes ≤ noHandle
  statements : s.nodes.b.statements.length + statementCount nodes ≤ noHandle

/-- A part of the walk has left these nodes behind. Unless one of them failed,
these handles are open in addition. -/
structure Emitted (env : Environment) (nodes : List (SourceNode TypeRef)) (handles : List NodeRef)
    (s s' : WalkerState) : Prop where
  inv : Inv env env.Mentions s'.types
  onward : Onward s.types s'.types
  kept : s.nodes.b.Extends s'.nodes.b.toArenas
  expressions : s'.nodes.b.expressions.length =
    s.nodes.b.expressions.length + expressionCount nodes
  statements : s'.nodes.b.statements.length =
    s.nodes.b.statements.length + statementCount nodes
  locals : s'.nodes.b.locals = s.nodes.b.locals
  error : s'.nodes.error = s.nodes.error.or (firstFailure nodes)
  grown : firstFailure nodes = none → ∀ rest, s.nodes.b.Growing rest →
    s'.nodes.b.Growing (rest ++ handles)

theorem Emitted.refl (h : Inv env env.Mentions s.types) : Emitted env [] [] s s where
  inv := h
  onward := .refl _
  kept := .refl _
  expressions := rfl
  statements := rfl
  locals := rfl
  error := by simp [firstFailure]
  grown _ rest hrest := by rwa [List.append_nil]

theorem Emitted.trans (h : Emitted env nodes handles s s')
    (h' : Emitted env nodes' handles' s' s'') :
    Emitted env (nodes ++ nodes') (handles ++ handles') s s'' where
  inv := h'.inv
  onward := h.onward.trans h'.onward
  kept := h.kept.trans h'.kept
  expressions := by rw [h'.expressions, h.expressions, expressionCount_append, Nat.add_assoc]
  statements := by rw [h'.statements, h.statements, statementCount_append, Nat.add_assoc]
  locals := h'.locals.trans h.locals
  error := by rw [h'.error, h.error, firstFailure_append, Option.or_assoc]
  grown hclean rest hrest := by
    rw [firstFailure_append, Option.or_eq_none_iff] at hclean
    rw [← List.append_assoc]
    exact h'.grown hclean.2 _ (h.grown hclean.1 rest hrest)

theorem Ready.left (h : Ready env ctree (nodes ++ nodes') s) : Ready env ctree nodes s where
  inv := h.inv
  formed n hn := h.formed n (List.mem_append_left _ hn)
  expressions := by
    have := h.expressions
    rw [expressionCount_append] at this
    omega
  statements := by
    have := h.statements
    rw [statementCount_append] at this
    omega

theorem Ready.right (h : Ready env ctree (nodes ++ nodes') s)
    (hw : Emitted env nodes handles s s') : Ready env ctree nodes' s' where
  inv := hw.inv
  formed n hn := h.formed n (List.mem_append_right _ hn)
  expressions := by
    have := h.expressions
    rw [expressionCount_append] at this
    rw [hw.expressions]
    omega
  statements := by
    have := h.statements
    rw [statementCount_append] at this
    rw [hw.statements]
    omega

/-- A part that leaves no nodes behind leaves everything to be walked. -/
theorem Ready.after (h : Ready env ctree nodes s) (hw : Emitted env [] handles s s') :
    Ready env ctree nodes s' :=
  have h : Ready env ctree ([] ++ nodes) s := h
  h.right hw

def WalkerState.Stands (env : Environment) (s : WalkerState) : TypeRef → TypeId → Prop :=
  env.Stands s.nodes.b.types

theorem Emitted.stands (h : Emitted env nodes handles s s') {t : TypeRef} {id : TypeId}
    (ht : s.Stands env t id) : s'.Stands env t id :=
  Environment.Stands.grows ht h.onward.grows

def WalkerState.Shows (env : Environment) (lossy : Name → Text) (ctree : CtreeSdk)
    (s : WalkerState) : Cexpr TypeRef → ExpressionId → Prop :=
  ShowsExpression lossy ctree (s.Stands env) s.nodes.b.toArenas

def WalkerState.ShowsStmt (env : Environment) (lossy : Name → Text) (ctree : CtreeSdk)
    (s : WalkerState) : Cinsn TypeRef → StatementId → Prop :=
  ShowsStatement lossy ctree (s.Stands env) s.nodes.b.toArenas

theorem Emitted.shows (h : Emitted env nodes handles s s') {e : Cexpr TypeRef} {id : ExpressionId}
    (he : s.Shows env lossy ctree e id) : s'.Shows env lossy ctree e id :=
  ShowsExpression.mono (fun _ _ => h.stands) h.kept he

theorem Emitted.showsStmt (h : Emitted env nodes handles s s') {c : Cinsn TypeRef}
    {id : StatementId} (hc : s.ShowsStmt env lossy ctree c id) :
    s'.ShowsStmt env lossy ctree c id :=
  ShowsStatement.mono (fun _ _ => h.stands) h.kept hc

/-! ### Types and nodes -/

/-- The walk of a node's type leaves everything but the types alone. -/
theorem completes_withTypes (hlossy : DecodesUtf8 lossy) (h : Inv env env.Mentions s.types)
    {t : TypeRef} (ht : env.Mentions t) :
    Completes (fun fuel => Walker.type (env.sdk lossy) fuel t) s fun id s' =>
      ∃ w, s' = s.withTypes w ∧ Stood env env.Mentions t.names s.types t id w := by
  obtain ⟨id, w, ⟨least, hends⟩, hstood⟩ :=
    walks_of_met hlossy Environment.closes_names _ ht s.types ⟨h, le_rfl⟩
  refine ⟨id, s.withTypes w, ⟨least, fun fuel hle => ?_⟩, w, rfl, hstood⟩
  have hty : ty (env.sdk lossy) fuel t s.types = some (id, w) := hends fuel hle
  show Walker.type (env.sdk lossy) fuel t s = _
  rw [Walker.type, hty, Option.map_some]

theorem completes_type (hlossy : DecodesUtf8 lossy) (h : Inv env env.Mentions s.types)
    {t : TypeRef} (ht : env.Mentions t) :
    Completes (fun fuel => Walker.type (env.sdk lossy) fuel t) s fun id s' =>
      Emitted env [] [] s s' ∧ s'.Stands env t id := by
  refine (completes_withTypes hlossy h ht).imp ?_
  rintro id s' ⟨w, rfl, hstood⟩
  have hstands := hstood.stands
  refine ⟨⟨hstood.inv, hstood.went.toOnward, ⟨fun _ _ hx => hx, fun _ _ hx => hx⟩, rfl, rfl, rfl,
    ?_, ?_⟩, hstands⟩
  · simp [WalkerState.withTypes, firstFailure]
  · intro _ rest hrest
    rw [List.append_nil]
    exact hrest.types _

theorem emit_expression {c : NodeCall} {ty : TypeId} {kind : ExpressionKind ExpressionId}
    (hmade : c.made = .expression ty kind) (hsliced : c.Sliced)
    (hroom : s.nodes.b.expressions.length < noHandle) :
    emit c s = some (s.nodes.b.expressions.length, { s with
      nodes := ⟨(s.nodes.b.expression ty kind (Address.tryNew c.ea)).2,
        s.nodes.error.or c.error⟩ }) := by
  have hroom : c.made.HasRoom s.nodes.b := by
    rw [hmade]
    exact hroom.trans (by decide)
  rw [emit, CallbackBuilder.node_eq, if_pos ⟨hsliced, hroom⟩, hmade]
  rfl

theorem emit_statement {c : NodeCall} {kind : StatementKind ExpressionId StatementId}
    (hmade : c.made = .statement kind) (hsliced : c.Sliced)
    (hroom : s.nodes.b.statements.length < noHandle) :
    emit c s = some (s.nodes.b.statements.length, { s with
      nodes := ⟨(s.nodes.b.statement kind (Address.tryNew c.ea)).2,
        s.nodes.error.or c.error⟩ }) := by
  have hroom : c.made.HasRoom s.nodes.b := by
    rw [hmade]
    exact hroom.trans (by decide)
  rw [emit, CallbackBuilder.node_eq, if_pos ⟨hsliced, hroom⟩, hmade]
  rfl

def EmittedExpression (env : Environment) (lossy : Name → Text) (ctree : CtreeSdk)
    (s : WalkerState) (e : Cexpr TypeRef) (id : ExpressionId) (s' : WalkerState) : Prop :=
  Emitted env (e.nodes ctree) [.expression id] s s' ∧ id ≠ noHandle ∧
    (firstFailure (e.nodes ctree) = none → s'.Shows env lossy ctree e id)

def EmittedStatement (env : Environment) (lossy : Name → Text) (ctree : CtreeSdk)
    (s : WalkerState) (c : Cinsn TypeRef) (id : StatementId) (s' : WalkerState) : Prop :=
  Emitted env (c.nodes ctree) [.statement id] s s' ∧ id ≠ noHandle ∧
    (firstFailure (c.nodes ctree) = none → s'.ShowsStmt env lossy ctree c id)

/-- An expression's callback, after its type and its operands. -/
theorem completes_emit_expression {e : Cexpr TypeRef} {c : NodeCall} {ty : TypeId}
    {kind : ExpressionKind ExpressionId} (hnodes : e.nodes ctree = nodes ++ [.expression e])
    (h : Ready env ctree [.expression e] s') (hw : Emitted env nodes handles s s')
    (hmade : c.made = .expression ty kind) (hsliced : c.Sliced) (hea : c.ea = e.ea)
    (herror : c.error = e.failure) (htype : s'.Stands env e.type ty)
    (hshown : firstFailure nodes = none → e.failure = none →
      ∃ k : ExpressionKind (Option (Cexpr TypeRef) × ExpressionId), kind = k.map Prod.snd ∧
        e.kind lossy ctree = some (k.map Prod.fst) ∧
        handles = k.children.map (fun p => .expression p.2) ∧
        ∀ p ∈ k.children, ∃ e', p.1 = some e' ∧ s'.Shows env lossy ctree e' p.2) :
    Completes (fun _ => emit c) s' (EmittedExpression env lossy ctree s e) := by
  have hcount : expressionCount [(.expression e : SourceNode TypeRef)] = 1 := rfl
  have hroom : s'.nodes.b.expressions.length < noHandle := by
    have := h.expressions
    omega
  refine .of_eq (emit_expression hmade hsliced hroom) ?_
  have hfirst : firstFailure (e.nodes ctree) = (firstFailure nodes).or e.failure := by
    rw [hnodes, firstFailure_append]
    simp [firstFailure, SourceNode.failure, List.findSome?_cons]
    cases e.failure <;> rfl
  have hkept := CtreeBuilder.extends_expression s'.nodes.b ty kind (Address.tryNew c.ea)
  refine ⟨⟨h.inv, hw.onward, hw.kept.trans hkept, ?_, ?_, hw.locals, ?_, ?_⟩, hroom.ne, ?_⟩
  · rw [hnodes, expressionCount_append, hcount, ← Nat.add_assoc, ← hw.expressions]
    exact List.length_append
  · rw [hnodes, statementCount_append]
    exact hw.statements
  · rw [hfirst, ← Option.or_assoc, ← hw.error, ← herror]
  · intro hclean rest hrest
    rw [hfirst, Option.or_eq_none_iff] at hclean
    obtain ⟨k, rfl, -, hhandles, -⟩ := hshown hclean.1 hclean.2
    refine CtreeBuilder.Growing.expression ?_ ty (Address.tryNew c.ea)
    have hgrown := hw.grown hclean.1 rest hrest
    rwa [hhandles, ← Function.comp_def, ← List.map_map, ← ExpressionKind.children_map] at hgrown
  · intro hclean
    rw [hfirst, Option.or_eq_none_iff] at hclean
    obtain ⟨k, rfl, hkind, -, hchildren⟩ := hshown hclean.1 hclean.2
    refine .node k ?_ htype hkind ?_ ?_
    · rw [← hea]
      exact CtreeBuilder.expressionAt_expression s'.nodes.b ty _ _
    · intro p hp hnone
      obtain ⟨e', he', -⟩ := hchildren p hp
      rw [hnone] at he'
      cases he'
    · intro e' id' hp
      obtain ⟨e'', he'', hshows⟩ := hchildren _ hp
      cases he''
      exact hshows.mono (fun _ _ ht => ht) hkept

/-- A statement's callback, after its parts. -/
theorem completes_emit_statement {c : Cinsn TypeRef} {call : NodeCall}
    {kind : StatementKind ExpressionId StatementId}
    (hnodes : c.nodes ctree = nodes ++ [.statement c])
    (h : Ready env ctree [.statement c] s') (hw : Emitted env nodes handles s s')
    (hmade : call.made = .statement kind) (hsliced : call.Sliced) (hea : call.ea = c.ea)
    (herror : call.error = c.failure)
    (hshown : firstFailure nodes = none →
      ∃ k : StatementKind (Cexpr TypeRef × ExpressionId) (Cinsn TypeRef × StatementId),
        kind = k.map Prod.snd Prod.snd ∧ c.kind = k.map Prod.fst Prod.fst ∧
        handles = k.children.map (.map Prod.snd Prod.snd) ∧
        (∀ e id, .expression (e, id) ∈ k.children → s'.Shows env lossy ctree e id) ∧
        ∀ d id, .statement (d, id) ∈ k.children → s'.ShowsStmt env lossy ctree d id) :
    Completes (fun _ => emit call) s' (EmittedStatement env lossy ctree s c) := by
  have hcount : statementCount [(.statement c : SourceNode TypeRef)] = 1 := rfl
  have hroom : s'.nodes.b.statements.length < noHandle := by
    have := h.statements
    omega
  refine .of_eq (emit_statement hmade hsliced hroom) ?_
  have hfirst : firstFailure (c.nodes ctree) = (firstFailure nodes).or c.failure := by
    rw [hnodes, firstFailure_append]
    simp [firstFailure, SourceNode.failure, List.findSome?_cons]
    cases c.failure <;> rfl
  have hkept := CtreeBuilder.extends_statement s'.nodes.b kind (Address.tryNew call.ea)
  refine ⟨⟨h.inv, hw.onward, hw.kept.trans hkept, ?_, ?_, hw.locals, ?_, ?_⟩, hroom.ne, ?_⟩
  · rw [hnodes, expressionCount_append]
    exact hw.expressions
  · rw [hnodes, statementCount_append, hcount, ← Nat.add_assoc, ← hw.statements]
    exact List.length_append
  · rw [hfirst, ← Option.or_assoc, ← hw.error, ← herror]
  · intro hclean rest hrest
    rw [hfirst, Option.or_eq_none_iff] at hclean
    obtain ⟨k, rfl, -, hhandles, -⟩ := hshown hclean.1
    refine CtreeBuilder.Growing.statement ?_ (Address.tryNew call.ea)
    have hgrown := hw.grown hclean.1 rest hrest
    rwa [hhandles, ← StatementKind.children_map] at hgrown
  · intro hclean
    rw [hfirst, Option.or_eq_none_iff] at hclean
    obtain ⟨k, rfl, hkind, -, hexpressions, hstatements⟩ := hshown hclean.1
    refine .node k ?_ hkind ?_ ?_
    · rw [← hea]
      exact CtreeBuilder.statementAt_statement s'.nodes.b _ _
    · exact fun e id he => (hexpressions e id he).mono (fun _ _ ht => ht) hkept
    · exact fun d id hd => (hstatements d id hd).mono (fun _ _ ht => ht) hkept

/-! ### Expressions -/

def Cexpr.operands {τ : Type} : Cexpr τ → List (Cexpr τ)
  | .ptr _ _ x _ | .memref _ _ x _ | .memptr _ _ x _ => [x]
  | .call _ _ x a => x :: a
  | .op _ _ _ x y z => x.toList ++ y.toList ++ z.toList
  | _ => []

theorem Cexpr.sizeOf_lt_of_mem_operands {τ : Type} {e c : Cexpr τ} (h : c ∈ e.operands) :
    sizeOf c < sizeOf e := by
  cases e with
  | ptr ea type x ptrsize =>
      obtain rfl := List.mem_singleton.mp h
      simp
      omega
  | memref ea type x m | memptr ea type x m =>
      obtain rfl := List.mem_singleton.mp h
      simp
      omega
  | call ea type x a =>
      rcases List.mem_cons.mp h with rfl | h
      · simp
        omega
      · have := List.sizeOf_lt_of_mem h
        simp
        omega
  | op ea type tag x y z =>
      simp only [operands, List.mem_append, Option.mem_toList] at h
      rcases h with (rfl | rfl) | rfl <;> simp <;> omega
  | _ => cases h

/-- Induction on an expression from its operands. -/
theorem Cexpr.induct {τ : Type} {motive : Cexpr τ → Prop}
    (step : ∀ e, (∀ c ∈ e.operands, motive c) → motive e) (e : Cexpr τ) : motive e := by
  induction hsize : sizeOf e using Nat.strongRecOn generalizing e with
  | _ n ih =>
      subst hsize
      exact step e fun c hc => ih _ (sizeOf_lt_of_mem_operands hc) c rfl

/-- The operands of an operator are put in their places. -/
theorem classify_eq (tag x y z : ℕ) :
    classify tag x y z = (classify tag 0 1 2).map (.map (pick x y z)) := by
  unfold classify
  split
  · rfl
  · dsimp only
    cases ((if tag < 2 ^ 16 then some tag else none).bind AssignmentOp.tryFrom) with
    | some op => rfl
    | none =>
        cases ((if tag < 2 ^ 16 then some tag else none).bind BinaryOp.tryFrom) with
        | some op => rfl
        | none =>
            cases ((if tag < 2 ^ 16 then some tag else none).bind UnaryOp.tryFrom) with
            | some op => rfl
            | none =>
                dsimp only
                split <;> rfl

/-- What an operator's tag says of the operands that it uses. -/
def CtreeSdk.UsesOperands (ctree : CtreeSdk) : Prop :=
  ∀ (tag : UInt32) (kind : ExpressionKind ExpressionId), classify tag.toNat 0 1 2 = some kind →
    kind.children = (if ctree.opUsesX tag then [0] else []) ++
      (if ctree.opUsesY tag then [1] else []) ++ (if ctree.opUsesZ tag then [2] else [])

def WalksExpression (env : Environment) (lossy : Name → Text) (ctree : CtreeSdk)
    (e : Cexpr TypeRef) : Prop :=
  ∀ s, Ready env ctree (e.nodes ctree) s →
    Completes (fun fuel => Walker.expr (env.sdk lossy) ctree fuel e) s
      (EmittedExpression env lossy ctree s e)

section

variable (hlossy : DecodesUtf8 lossy)

include hlossy

/-- An expression without operands. -/
theorem walksExpression_leaf {e : Cexpr TypeRef} {c : TypeId → NodeCall}
    (hexpr : ∀ fuel, Walker.expr (env.sdk lossy) ctree fuel e =
      Walker.type (env.sdk lossy) fuel e.type >>= fun t => emit (c t))
    (hnodes : e.nodes ctree = [.expression e]) {kind : ExpressionKind ExpressionId}
    (hmade : ∀ t, (c t).made = .expression t kind) (hsliced : ∀ t, (c t).Sliced)
    (hea : ∀ t, (c t).ea = e.ea) (herror : ∀ t, (c t).error = e.failure)
    (hkind : e.failure = none → ∃ k : ExpressionKind (Option (Cexpr TypeRef) × ExpressionId),
      kind = k.map Prod.snd ∧ e.kind lossy ctree = some (k.map Prod.fst) ∧ k.children = []) :
    WalksExpression env lossy ctree e := by
  intro s h
  rw [hnodes] at h
  simp only [hexpr]
  refine (completes_type hlossy h.inv (h.formed _ (List.mem_singleton_self _)).1).bind ?_
  rintro t s₁ ⟨hw, ht⟩
  refine completes_emit_expression hnodes (h.after hw) hw (hmade t)
    (hsliced t) (hea t) (herror t) ht fun _ hclean => ?_
  obtain ⟨k, hsnd, hfst, hnone⟩ := hkind hclean
  exact ⟨k, hsnd, hfst, by rw [hnone]; rfl, by simp [hnone]⟩

/-- An expression over one other. -/
theorem walksExpression_unary {e x : Cexpr TypeRef} {c : ℕ → TypeId → NodeCall}
    (hexpr : ∀ fuel, Walker.expr (env.sdk lossy) ctree fuel e =
      Walker.type (env.sdk lossy) fuel e.type >>= fun t =>
        Walker.expr (env.sdk lossy) ctree fuel x >>= fun id => emit (c id t))
    (hnodes : e.nodes ctree = x.nodes ctree ++ [.expression e])
    {kind : ExpressionId → ExpressionKind ExpressionId}
    (hmade : ∀ id t, (c id t).made = .expression t (kind id)) (hsliced : ∀ id t, (c id t).Sliced)
    (hea : ∀ id t, (c id t).ea = e.ea) (herror : ∀ id t, (c id t).error = e.failure)
    (hkind : ∀ id, ∃ k : ExpressionKind (Option (Cexpr TypeRef) × ExpressionId),
      kind id = k.map Prod.snd ∧ e.kind lossy ctree = some (k.map Prod.fst) ∧
        k.children = [(some x, id)])
    (hx : WalksExpression env lossy ctree x) : WalksExpression env lossy ctree e := by
  intro s h
  rw [hnodes] at h
  simp only [hexpr]
  refine (completes_type hlossy h.inv (h.formed (.expression e) (by simp)).1).bind ?_
  rintro t s₁ ⟨hw₁, ht⟩
  have h₁ := h.after hw₁
  refine (hx s₁ h₁.left).bind ?_
  rintro id s₂ ⟨hw₂, -, hshows⟩
  refine completes_emit_expression hnodes (h₁.right hw₂) (hw₁.trans hw₂) (hmade id t)
    (hsliced id t) (hea id t) (herror id t) (hw₂.stands ht) fun hclean _ => ?_
  obtain ⟨k, hsnd, hfst, hchildren⟩ := hkind id
  refine ⟨k, hsnd, hfst, by rw [hchildren]; rfl, fun p hp => ?_⟩
  rw [hchildren, List.mem_singleton] at hp
  subst hp
  exact ⟨x, rfl, hshows hclean⟩

end

/-- The arguments of a call. -/
theorem completes_exprs {es : List (Cexpr TypeRef)}
    (hes : ∀ e ∈ es, WalksExpression env lossy ctree e)
    (h : Ready env ctree (nodesOfExprs ctree es) s) :
    Completes (fun fuel => Walker.exprs (env.sdk lossy) ctree fuel es) s fun ids s' =>
      Emitted env (nodesOfExprs ctree es) (ids.map .expression) s s' ∧
        (firstFailure (nodesOfExprs ctree es) = none →
          List.Forall₂ (s'.Shows env lossy ctree) es ids) := by
  induction es generalizing s with
  | nil => exact .pure ⟨.refl h.inv, fun _ => .nil⟩
  | cons e es ih =>
      simp only [Walker.exprs]
      have h : Ready env ctree (e.nodes ctree ++ nodesOfExprs ctree es) s := h
      refine (hes e List.mem_cons_self s h.left).bind ?_
      rintro id s₁ ⟨hw₁, -, he⟩
      refine (ih (fun e he => hes e (List.mem_cons_of_mem _ he)) (h.right hw₁)).bind ?_
      rintro ids s₂ ⟨hw₂, hall⟩
      refine .pure ⟨hw₁.trans hw₂, fun hclean => ?_⟩
      rw [nodesOfExprs, firstFailure_append, Option.or_eq_none_iff] at hclean
      exact .cons (hw₂.shows (he hclean.1)) (hall hclean.2)

/-- An operand leaves a handle behind if the operator uses it. -/
theorem completes_operand {uses : Bool} {o : Option (Cexpr TypeRef)}
    (ho : ∀ e ∈ o, WalksExpression env lossy ctree e) (hpresent : uses → o.isSome)
    (h : Ready env ctree (nodesOfOperand ctree uses o) s) :
    Completes (fun fuel => Walker.operand (env.sdk lossy) ctree fuel uses o) s fun id s' =>
      Emitted env (nodesOfOperand ctree uses o) (if uses then [.expression id] else []) s s' ∧
        (firstFailure (nodesOfOperand ctree uses o) = none → uses →
          ∃ e, o = some e ∧ s'.Shows env lossy ctree e id) := by
  cases uses with
  | false =>
      have hnodes : nodesOfOperand ctree false o = [] := by cases o <;> rfl
      have hnone : ∀ fuel, Walker.operand (env.sdk lossy) ctree fuel false o = pure noHandle := by
        intro fuel
        cases o <;> simp [Walker.operand]
      simp only [hnone, hnodes]
      exact .pure ⟨.refl h.inv, fun _ huses => by cases huses⟩
  | true =>
      obtain ⟨e, rfl⟩ := Option.isSome_iff_exists.mp (hpresent rfl)
      simp only [Walker.operand, nodesOfOperand, if_true] at h ⊢
      refine (ho e rfl s h).imp ?_
      rintro id s' ⟨hw, -, hshows⟩
      exact ⟨hw, fun hclean _ => ⟨e, rfl, hshows hclean⟩⟩

/-- A call, the callee before its arguments. -/
theorem walksExpression_call (hlossy : DecodesUtf8 lossy) {ea : UInt64} {type : TypeRef}
    {x : Cexpr TypeRef} {args : List (Cexpr TypeRef)} (hx : WalksExpression env lossy ctree x)
    (hargs : ∀ e ∈ args, WalksExpression env lossy ctree e) :
    WalksExpression env lossy ctree (.call ea type x args) := by
  intro s h
  have hnodes : (Cexpr.call ea type x args).nodes ctree =
      x.nodes ctree ++ nodesOfExprs ctree args ++ [.expression (.call ea type x args)] := by
    rw [Cexpr.nodes]
  rw [hnodes] at h
  simp only [Walker.expr]
  have hformed := h.formed (.expression (.call ea type x args)) (by simp)
  refine (completes_type hlossy h.inv hformed.1).bind ?_
  rintro t s₁ ⟨hw₁, ht⟩
  have h₁ := h.after hw₁
  refine (hx s₁ h₁.left.left).bind ?_
  rintro id s₂ ⟨hw₂, -, hcallee⟩
  refine (completes_exprs hargs (h₁.left.right hw₂)).bind ?_
  rintro ids s₃ ⟨hw₃, hall⟩
  refine completes_emit_expression hnodes (h₁.right (hw₂.trans hw₃)) (hw₁.trans (hw₂.trans hw₃)) rfl
    trivial rfl rfl (hw₃.stands (hw₂.stands ht)) fun hclean _ => ?_
  rw [firstFailure_append, Option.or_eq_none_iff] at hclean
  have hall := hall hclean.2
  have hlen := hall.length_eq
  refine ⟨.call (some x, id) ((args.map some).zip ids), ?_, ?_, ?_, ?_⟩
  · rw [ExpressionKind.map, List.map_snd_zip (by simp [hlen])]
  · rw [ExpressionKind.map, List.map_fst_zip (by simp [hlen])]
    rfl
  · have hsnd : ((args.map some).zip ids).map Prod.snd = ids :=
      List.map_snd_zip (by simp [hlen])
    simp only [ExpressionKind.children, List.map_cons]
    conv_lhs => rw [← hsnd, List.map_map]
    rfl
  · intro p hp
    rcases List.mem_cons.mp hp with rfl | hp
    · exact ⟨x, rfl, hw₃.shows (hcallee hclean.1)⟩
    · rw [List.zip_map_left, List.mem_map] at hp
      obtain ⟨q, hq, rfl⟩ := hp
      exact ⟨q.1, rfl, (List.forall₂_iff_zip.mp hall).2 hq⟩

/-- Any other operator, the operands that it uses in their order. -/
theorem walksExpression_op (hlossy : DecodesUtf8 lossy) (huses : ctree.UsesOperands) {ea : UInt64}
    {type : TypeRef} {tag : UInt32} {x y z : Option (Cexpr TypeRef)}
    (hx : ∀ e ∈ x, WalksExpression env lossy ctree e)
    (hy : ∀ e ∈ y, WalksExpression env lossy ctree e)
    (hz : ∀ e ∈ z, WalksExpression env lossy ctree e) :
    WalksExpression env lossy ctree (.op ea type tag x y z) := by
  intro s h
  have hnodes : (Cexpr.op ea type tag x y z).nodes ctree =
      nodesOfOperand ctree (ctree.opUsesX tag) x ++ nodesOfOperand ctree (ctree.opUsesY tag) y ++
        nodesOfOperand ctree (ctree.opUsesZ tag) z ++ [.expression (.op ea type tag x y z)] := by
    rw [Cexpr.nodes]
  rw [hnodes] at h
  obtain ⟨htype, hpx, hpy, hpz⟩ := h.formed (.expression (.op ea type tag x y z)) (by simp)
  simp only [Walker.expr]
  refine (completes_type hlossy h.inv htype).bind ?_
  rintro t s₁ ⟨hw₁, ht⟩
  have h₁ := h.after hw₁
  refine (completes_operand hx hpx h₁.left.left.left).bind ?_
  rintro idx s₂ ⟨hw₂, hshowx⟩
  refine (completes_operand hy hpy (h₁.left.left.right hw₂)).bind ?_
  rintro idy s₃ ⟨hw₃, hshowy⟩
  refine (completes_operand hz hpz (h₁.left.right (hw₂.trans hw₃))).bind ?_
  rintro idz s₄ ⟨hw₄, hshowz⟩
  have hw := (hw₂.trans hw₃).trans hw₄
  -- The operands are walked even where no kind has the tag; the node is then a failure.
  refine completes_emit_expression hnodes (h₁.right hw) (hw₁.trans hw) rfl trivial rfl ?_
    (hw.stands ht) fun hclean hfailure => ?_
  · show (if (classify tag.toNat idx idy idz).isNone then _ else _) = _
    rw [classify_eq, Option.isNone_map]
    rfl
  · simp only [firstFailure_append, Option.or_eq_none_iff] at hclean
    have hsome : ∃ kind, classify tag.toNat 0 1 2 = some kind := by
      cases hkind : classify tag.toNat 0 1 2 with
      | none => simp [Cexpr.failure, hkind] at hfailure
      | some kind => exact ⟨kind, rfl⟩
    obtain ⟨kind, hkind⟩ := hsome
    have hchildren := huses tag kind hkind
    refine ⟨kind.map fun i => (pick x y z i, pick idx idy idz i), ?_, ?_, ?_, ?_⟩
    · rw [classify_eq, hkind, ExpressionKind.map_map]
      rfl
    · rw [Cexpr.kind, hkind, ExpressionKind.map_map]
      rfl
    · rw [ExpressionKind.children_map, hchildren]
      cases ctree.opUsesX tag <;> cases ctree.opUsesY tag <;> cases ctree.opUsesZ tag <;> rfl
    · intro p hp
      rw [ExpressionKind.children_map, hchildren] at hp
      simp only [List.map_append, List.mem_append, List.mem_map, List.mem_ite_nil_right,
        List.mem_singleton] at hp
      rcases hp with (⟨i, ⟨hused, rfl⟩, rfl⟩ | ⟨i, ⟨hused, rfl⟩, rfl⟩) | ⟨i, ⟨hused, rfl⟩, rfl⟩
      · obtain ⟨e, he, hshows⟩ := hshowx hclean.1.1 hused
        exact ⟨e, he, hw₄.shows (hw₃.shows hshows)⟩
      · obtain ⟨e, he, hshows⟩ := hshowy hclean.1.2 hused
        exact ⟨e, he, hw₄.shows hshows⟩
      · exact hshowz hclean.2 hused

theorem walksExpression (hlossy : DecodesUtf8 lossy) (huses : ctree.UsesOperands)
    (e : Cexpr TypeRef) : WalksExpression env lossy ctree e := by
  induction e using Cexpr.induct with
  | step e ih =>
      -- A kind has no operand, one, or those that its operator uses; a call has a list.
      cases e with
      | num ea type value =>
          exact walksExpression_leaf hlossy (c := .eNum ea value)
            (fun _ => by rw [Walker.expr]; rfl) (by rw [Cexpr.nodes]) (fun _ => rfl)
            (fun _ => trivial) (fun _ => rfl) (fun _ => rfl)
            fun _ => ⟨.num value, rfl, rfl, rfl⟩
      | fnum ea type bits =>
          exact walksExpression_leaf hlossy (c := .eFnum ea bits)
            (fun _ => by rw [Walker.expr]; rfl) (by rw [Cexpr.nodes]) (fun _ => rfl)
            (fun _ => trivial) (fun _ => rfl) (fun _ => rfl)
            fun _ => ⟨.fnum bits, rfl, rfl, rfl⟩
      | var ea type idx =>
          exact walksExpression_leaf hlossy (c := .eVar ea idx.toUInt32.toNat)
            (fun _ => by rw [Walker.expr]; rfl) (by rw [Cexpr.nodes]) (fun _ => rfl)
            (fun _ => trivial) (fun _ => rfl) (fun _ => rfl) fun _ => ⟨.var _, rfl, rfl, rfl⟩
      | str ea type string =>
          exact walksExpression_leaf hlossy (c := .eStr ea (lossy (string.getD [])))
            (fun _ => by rw [Walker.expr]; rfl) (by rw [Cexpr.nodes]) (fun _ => rfl)
            (fun _ => trivial) (fun _ => rfl) (fun _ => rfl) fun _ => ⟨.str _, rfl, rfl, rfl⟩
      | helper ea type text =>
          exact walksExpression_leaf hlossy (c := .eHelper ea (lossy (text.getD [])))
            (fun _ => by rw [Walker.expr]; rfl) (by rw [Cexpr.nodes]) (fun _ => rfl)
            (fun _ => trivial) (fun _ => rfl) (fun _ => rfl) fun _ => ⟨.helper _, rfl, rfl, rfl⟩
      | obj ea type objEa =>
          refine walksExpression_leaf hlossy
            (c := .eObj ea objEa (lossy (ctree.getName objEa))) (fun _ => by rw [Walker.expr]; rfl)
            (by rw [Cexpr.nodes]) (fun _ => rfl) (fun _ => trivial) (fun _ => rfl) (fun _ => rfl)
            fun hclean => ?_
          cases haddress : Address.tryNew objEa with
          | none => simp [Cexpr.failure, Address.tryNew_eq_none.mp haddress] at hclean
          | some address =>
              exact ⟨.obj address _, rfl, by rw [Cexpr.kind, haddress]; rfl, rfl⟩
      | ptr ea type x ptrsize =>
          exact walksExpression_unary hlossy
            (c := fun id => .eDeref ea id ptrsize.toUInt32.toNat)
            (fun _ => by rw [Walker.expr]; rfl) (by rw [Cexpr.nodes]) (fun _ _ => rfl)
            (fun _ _ => trivial) (fun _ _ => rfl) (fun _ _ => rfl)
            (fun id => ⟨.deref (some x, id) _, rfl, rfl, rfl⟩) (ih x (List.mem_singleton_self x))
      | memref ea type x m =>
          exact walksExpression_unary hlossy (c := fun id => .eMemref ea id m.toNat)
            (fun _ => by rw [Walker.expr]; rfl) (by rw [Cexpr.nodes]) (fun _ _ => rfl)
            (fun _ _ => trivial) (fun _ _ => rfl) (fun _ _ => rfl)
            (fun id => ⟨.memberRef (some x, id) _, rfl, rfl, rfl⟩)
            (ih x (List.mem_singleton_self x))
      | memptr ea type x m =>
          exact walksExpression_unary hlossy (c := fun id => .eMemptr ea id m.toNat)
            (fun _ => by rw [Walker.expr]; rfl) (by rw [Cexpr.nodes]) (fun _ _ => rfl)
            (fun _ _ => trivial) (fun _ _ => rfl) (fun _ _ => rfl)
            (fun id => ⟨.memberPtr (some x, id) _, rfl, rfl, rfl⟩)
            (ih x (List.mem_singleton_self x))
      | call ea type x args =>
          exact walksExpression_call hlossy (ih x List.mem_cons_self)
            fun e he => ih e (List.mem_cons_of_mem x he)
      | op ea type tag x y z =>
          have hoperand (e : Cexpr TypeRef) (he : e ∈ x ∨ e ∈ y ∨ e ∈ z) :
              WalksExpression env lossy ctree e := by
            refine ih e ?_
            simp only [Cexpr.operands, List.mem_append, Option.mem_toList, or_assoc]
            exact he
          exact walksExpression_op hlossy huses (fun e he => hoperand e (.inl he))
            (fun e he => hoperand e (.inr (.inl he))) fun e he => hoperand e (.inr (.inr he))

end Idakit.Facade
