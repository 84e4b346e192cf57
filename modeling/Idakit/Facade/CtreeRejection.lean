import Idakit.Facade.CtreeFaithful

/-!
What the walk of a decompiled function rejects. An expression whose operator is
not modelled is a failure. A statement of a kind that is not modelled is none:
it becomes an empty statement, so the tree is isomorphic to the body only where
the body has no such statement.
-/

namespace Idakit.Facade

open Idakit.Library Idakit.Types Idakit.Decompiler

variable {env : Environment} {lossy : Name → Text} {ctree : CtreeSdk}

/-! ### Kinds of its own -/

/-- A statement of a kind that the facade does not model has no kind in the
tree. -/
def Cinsn.ownKind {τ : Type} : Cinsn τ → Option (StatementKind (Cexpr τ) (Cinsn τ))
  | .other _ => none
  | s => some s.kind

def SourceNode.modelled {τ : Type} : SourceNode τ → Bool
  | .statement (.other _) => false
  | _ => true

theorem Cinsn.ownKind_eq_some_iff {τ : Type} {c : Cinsn τ}
    {kind : StatementKind (Cexpr τ) (Cinsn τ)} :
    c.ownKind = some kind ↔ c.kind = kind ∧ SourceNode.modelled (.statement c) := by
  cases c <;> simp [ownKind, SourceNode.modelled]

/-! ### The statements of a body -/

/-- An expression holds no statement. -/
theorem statement_notMem_nodes {τ : Type} (c : Cinsn τ) (e : Cexpr τ) :
    .statement c ∉ e.nodes ctree := by
  induction e using Cexpr.induct with
  | step e ih =>
      have hexprs {es : List (Cexpr τ)} (h : ∀ e ∈ es, .statement c ∉ e.nodes ctree) :
          .statement c ∉ nodesOfExprs ctree es := by
        induction es with
        | nil => simp [nodesOfExprs]
        | cons e es ih =>
            rw [nodesOfExprs, List.mem_append, not_or]
            exact ⟨h e List.mem_cons_self, ih fun e he => h e (List.mem_cons_of_mem _ he)⟩
      have hoperand {uses : Bool} {o : Option (Cexpr τ)}
          (h : ∀ e ∈ o, .statement c ∉ e.nodes ctree) :
          .statement c ∉ nodesOfOperand ctree uses o := by
        cases o with
        | none => simp [nodesOfOperand]
        | some e =>
            rw [nodesOfOperand]
            split
            · exact h e rfl
            · exact List.not_mem_nil
      cases e with
      | ptr ea type x ptrsize => simpa [Cexpr.nodes] using ih x (List.mem_singleton_self x)
      | memref ea type x m | memptr ea type x m =>
          simpa [Cexpr.nodes] using ih x (List.mem_singleton_self x)
      | call ea type x a =>
          simpa [Cexpr.nodes] using ⟨ih x List.mem_cons_self,
            hexprs fun e he => ih e (List.mem_cons_of_mem _ he)⟩
      | op ea type tag x y z =>
          have hop (e : Cexpr τ) (he : e ∈ x ∨ e ∈ y ∨ e ∈ z) : .statement c ∉ e.nodes ctree := by
            refine ih e ?_
            simp only [Cexpr.operands, List.mem_append, Option.mem_toList, or_assoc]
            exact he
          simpa [Cexpr.nodes] using ⟨hoperand fun e he => hop e (.inl he),
            hoperand fun e he => hop e (.inr (.inl he)),
            hoperand fun e he => hop e (.inr (.inr he))⟩
      | _ => simp [Cexpr.nodes]

theorem statement_notMem_optNodes {τ : Type} (c : Cinsn τ) (e : Cexpr τ) :
    .statement c ∉ e.optNodes ctree := by
  rw [Cexpr.optNodes]
  split
  · exact List.not_mem_nil
  · exact statement_notMem_nodes c e

theorem mem_nodesOfStmts {τ : Type} {n : SourceNode τ} {cs : List (Cinsn τ)} :
    n ∈ nodesOfStmts ctree cs ↔ ∃ d ∈ cs, n ∈ d.nodes ctree := by
  induction cs with
  | nil => simp [nodesOfStmts]
  | cons c cs ih => simp [nodesOfStmts, ih]

/-- The statements of a statement are itself and those of the statements that
its node is over. -/
theorem statement_mem_nodes_iff {c d : Cinsn TypeRef} :
    .statement d ∈ c.nodes ctree ↔
      d = c ∨ ∃ child, .statement child ∈ c.kind.children ∧ .statement d ∈ child.nodes ctree := by
  cases c with
  | if_ ea e ithen ielse =>
      cases ielse <;> simp [Cinsn.nodes, Cinsn.kind, StatementKind.children,
        statement_notMem_nodes, or_comm, or_left_comm]
  | switch ea e cases =>
      simp [Cinsn.nodes, Cinsn.kind, StatementKind.children, statement_notMem_nodes,
        nodesOfBodies_eq, mem_nodesOfStmts, or_comm]
  | try_ ea body catchs =>
      simp [Cinsn.nodes, Cinsn.kind, StatementKind.children, nodesOfBlocks_eq, mem_nodesOfStmts,
        or_comm, or_left_comm, or_assoc]
  | _ =>
      simp [Cinsn.nodes, Cinsn.kind, StatementKind.children, statement_notMem_nodes,
        statement_notMem_optNodes, mem_nodesOfStmts, or_comm]

/-! ### Isomorphism -/

section

variable (lossy : Name → Text) (ctree : CtreeSdk) (stands : TypeRef → TypeId → Prop) (a : Arenas)

/-- An arena has a statement at a handle under its own kind, over the handles of
its operands and parts in their order. -/
inductive Corresponds : Cinsn TypeRef → StatementId → Prop
  | node {c : Cinsn TypeRef} {id : StatementId}
      (kind : StatementKind (Cexpr TypeRef × ExpressionId) (Cinsn TypeRef × StatementId))
      (hat : a.statementAt id = some (Address.tryNew c.ea, kind.map Prod.snd Prod.snd))
      (hkind : c.ownKind = some (kind.map Prod.fst Prod.fst))
      (hexpressions : ∀ e id', .expression (e, id') ∈ kind.children →
        ShowsExpression lossy ctree stands a e id')
      (hstatements : ∀ d id', .statement (d, id') ∈ kind.children → Corresponds d id') :
      Corresponds c id

end

/-- A statement that is shown is there under its own kind, as long as nothing
in it is of a kind that is not modelled. -/
theorem corresponds_iff {stands : TypeRef → TypeId → Prop} {a : Arenas} {c : Cinsn TypeRef}
    {id : StatementId} :
    Corresponds lossy ctree stands a c id ↔
      ShowsStatement lossy ctree stands a c id ∧
        ∀ n ∈ c.nodes ctree, SourceNode.modelled n := by
  constructor
  · intro h
    induction h with
    | @node c id kind hat hkind hexpressions _ ih =>
        obtain ⟨hshown, hmodelled⟩ := Cinsn.ownKind_eq_some_iff.mp hkind
        refine ⟨.node kind hat hshown hexpressions fun d id' hd => (ih d id' hd).1, fun n hn => ?_⟩
        cases n with
        | expression e => rfl
        | statement d =>
            rcases statement_mem_nodes_iff.mp hn with rfl | ⟨child, hchild, hd⟩
            · exact hmodelled
            · rw [hshown, StatementKind.children_map] at hchild
              obtain ⟨p, hp, heq⟩ := List.mem_map.mp hchild
              cases p with
              | expression e => cases heq
              | statement p =>
                  cases heq
                  exact (ih _ _ hp).2 _ hd
  · rintro ⟨h, hmodelled⟩
    induction h with
    | @node c id kind hat hkind hexpressions _ ih =>
        have hself : .statement c ∈ c.nodes ctree := statement_mem_nodes_iff.mpr (.inl rfl)
        refine .node kind hat (Cinsn.ownKind_eq_some_iff.mpr ⟨hkind, hmodelled _ hself⟩)
          hexpressions fun d id' hd => ih d id' hd fun n hn => ?_
        cases n with
        | expression e => rfl
        | statement x =>
            refine hmodelled _ (statement_mem_nodes_iff.mpr (.inr ⟨d, ?_, hn⟩))
            rw [hkind, StatementKind.children_map]
            exact List.mem_map.mpr ⟨_, hd, rfl⟩

/-- A tree has the nodes of a body, each once, with the same operations over
the same operands and parts in the same order. -/
structure Isomorphic (env : Environment) (lossy : Name → Text) (ctree : CtreeSdk)
    (body : Cinsn TypeRef) (t : Ctree) : Prop where
  tree : t.IsTree t.root
  body : Corresponds lossy ctree (env.Renders t.types) t.toArenas body t.root

def RejectedOrIsomorphic (env : Environment) (lossy : Name → Text) (ctree : CtreeSdk)
    (body : Cinsn TypeRef) : Except ExtractError Ctree → Prop
  | .error _ => True
  | .ok t => Isomorphic env lossy ctree body t

theorem firstFailure_eq_none_iff {nodes : List (SourceNode TypeRef)} :
    firstFailure nodes = none ↔ ∀ n ∈ nodes, SourceNode.failure n = none :=
  List.findSome?_eq_none_iff

/-- The walk of a function ends in an error or in a tree that is isomorphic to
its body, exactly where the body has no statement of a kind that the facade
does not model, or where another node of it is rejected. -/
theorem walk_isomorphic_iff (env : Environment) (lossy : Name → Text) (hlossy : DecodesUtf8 lossy)
    (ctree : CtreeSdk) (huses : ctree.UsesOperands) (f : Cfunc TypeRef) (hf : f.Formed env ctree)
    (debugAssertions : Bool) :
    (∃ result, (∃ least, ∀ fuel, least ≤ fuel →
        walk (env.sdk lossy) ctree fuel debugAssertions f = some result) ∧
      RejectedOrIsomorphic env lossy ctree f.body result) ↔
      (∀ n ∈ f.body.nodes ctree, SourceNode.modelled n) ∨
        ∃ n ∈ f.body.nodes ctree, SourceNode.failure n ≠ none := by
  constructor
  · rintro ⟨result, hends, hgood⟩
    by_cases hclean : firstFailure (f.body.nodes ctree) = none
    · obtain ⟨t, hends', -⟩ := walk_of_clean hlossy huses hf debugAssertions hclean
      obtain rfl := eq_of_answers hends hends'
      exact .inl (corresponds_iff.mp hgood.body).2
    · right
      simpa [firstFailure_eq_none_iff] using hclean
  · intro h
    cases hfirst : firstFailure (f.body.nodes ctree) with
    | some error =>
        exact ⟨.error error, walk_of_failure hlossy huses hf debugAssertions hfirst, trivial⟩
    | none =>
        have hmodelled : ∀ n ∈ f.body.nodes ctree, SourceNode.modelled n := by
          refine h.resolve_right ?_
          rintro ⟨n, hn, hfailure⟩
          exact hfailure (firstFailure_eq_none_iff.mp hfirst n hn)
        obtain ⟨t, hends, hextracted⟩ := walk_of_clean hlossy huses hf debugAssertions hfirst
        exact ⟨.ok t, hends, hextracted.tree, corresponds_iff.mpr ⟨hextracted.body, hmodelled⟩⟩

/-- `switch (n) { case 1: case 2: f(n, 1); break; default: for (; n; ) { } throw; }` -/
def dispatch : Cfunc TypeRef where
  lvars := [⟨[110], .integral ⟨4, by decide⟩ true, true, false, false, 4, [], .reg1 7⟩]
  body :=
    let int := .integral ⟨4, by decide⟩ true
    let n (ea : UInt64) := Cexpr.var ea int 0
    let empty (ea : UInt64) := Cexpr.op ea .void 0 none none none
    .block 0x2000 [
      .switch 0x2000 (n 0x2000) [
        ⟨[1, 2], .block 0x2004 [
          .expr 0x2004 (.call 0x2004 int (.helper 0x2004 .void (some [102]))
            [n 0x2004, .num 0x2004 int 1]),
          .break_ 0x2008]⟩,
        ⟨[], .block 0x200C [
          .for_ 0x200C (empty 0x200C) (n 0x200C) (empty 0x200C) (.block 0x2010 []),
          .throw 0x2014 (empty 0x2014)]⟩]]

theorem formed_dispatch : dispatch.Formed nodeEnvironment operatorSdk where
  nodes := by decide
  lvars := by
    intro l hl
    obtain rfl := List.mem_singleton.mp hl
    exact ⟨by decide, rfl⟩
  expressions := by decide
  statements := by decide
  locals := by decide

theorem walk_isomorphic_dispatch :
    ∃ result, (∃ least, ∀ fuel, least ≤ fuel →
        walk (nodeEnvironment.sdk decodeUtf8) operatorSdk fuel true dispatch = some result) ∧
      RejectedOrIsomorphic nodeEnvironment decodeUtf8 operatorSdk dispatch.body result :=
  (walk_isomorphic_iff nodeEnvironment decodeUtf8 decodesUtf8_decodeUtf8 operatorSdk
    usesOperands_operatorSdk dispatch formed_dispatch true).mpr (.inl (by decide))

/-- A body whose one statement is of a kind that the facade does not model. -/
def unmodelled : Cfunc TypeRef := ⟨[], .other 0x1000⟩

/-- The statement is there as an empty one, and nothing says so. -/
theorem not_walk_isomorphic_unmodelled :
    ¬∀ (env : Environment) (lossy : Name → Text), DecodesUtf8 lossy → ∀ ctree : CtreeSdk,
      ctree.UsesOperands → ∀ f : Cfunc TypeRef, f.Formed env ctree → ∀ debugAssertions,
        ∃ result, (∃ least, ∀ fuel, least ≤ fuel →
            walk (env.sdk lossy) ctree fuel debugAssertions f = some result) ∧
          RejectedOrIsomorphic env lossy ctree f.body result := by
  intro h
  have hformed : unmodelled.Formed nodeEnvironment operatorSdk :=
    ⟨by decide, by decide, by decide, by decide, by decide⟩
  obtain ⟨result, hends, hgood⟩ := h nodeEnvironment decodeUtf8 decodesUtf8_decodeUtf8
    operatorSdk usesOperands_operatorSdk unmodelled hformed true
  obtain ⟨t, hends', -⟩ := walk_of_clean (f := unmodelled) decodesUtf8_decodeUtf8
    usesOperands_operatorSdk hformed true rfl
  obtain rfl := eq_of_answers hends hends'
  obtain ⟨kind, -, hkind⟩ := hgood.body
  cases hkind

end Idakit.Facade
