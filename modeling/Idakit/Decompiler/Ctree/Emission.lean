import Idakit.Decompiler.Ctree.Shape

/-!
Nodes that are emitted after their children. An emission takes the handles of
its children from those that no node has for a child yet, and leaves its own.
Where a builder is left with the handle of the root alone, finishing makes a
tree of it.
-/

namespace Idakit.Decompiler

open Idakit.Types

/-! ### Kinds over other children -/

variable {ε δ σ ρ : Type}

def ExpressionKind.map (f : ε → δ) : ExpressionKind ε → ExpressionKind δ
  | .binary op x y => .binary op (f x) (f y)
  | .assign op x y => .assign op (f x) (f y)
  | .unary op x => .unary op (f x)
  | .ternary cond then_ else_ => .ternary (f cond) (f then_) (f else_)
  | .call callee args => .call (f callee) (args.map f)
  | .index array i => .index (f array) (f i)
  | .memberRef x byteOffset => .memberRef (f x) byteOffset
  | .memberPtr x byteOffset => .memberPtr (f x) byteOffset
  | .cast x => .cast (f x)
  | .deref x size => .deref (f x) size
  | .sizeof x => .sizeof (f x)
  | .num value => .num value
  | .fnum bits => .fnum bits
  | .str s => .str s
  | .obj address name => .obj address name
  | .var v => .var v
  | .helper s => .helper s
  | .typeExpression => .typeExpression
  | .empty => .empty
  | .internal => .internal

def Case.map (f : σ → ρ) (c : Case σ) : Case ρ := ⟨c.values, f c.body⟩

def StatementKind.map (f : ε → δ) (g : σ → ρ) : StatementKind ε σ → StatementKind δ ρ
  | .block statements => .block (statements.map g)
  | .expression e => .expression (f e)
  | .if_ cond then_ else_ => .if_ (f cond) (g then_) (else_.map g)
  | .for_ init cond step body => .for_ (init.map f) (cond.map f) (step.map f) (g body)
  | .while_ cond body => .while_ (f cond) (g body)
  | .do_ body cond => .do_ (g body) (f cond)
  | .switch e cases => .switch (f e) (cases.map (Case.map g))
  | .break_ => .break_
  | .continue_ => .continue_
  | .return_ e => .return_ (e.map f)
  | .goto label => .goto label
  | .asm addrs => .asm addrs
  | .try_ body catches => .try_ (g body) (catches.map g)
  | .throw e => .throw (e.map f)
  | .empty => .empty

def Child.map (f : ε → δ) (g : σ → ρ) : Child ε σ → Child δ ρ
  | .expression e => .expression (f e)
  | .statement s => .statement (g s)

theorem ExpressionKind.children_map (f : ε → δ) (kind : ExpressionKind ε) :
    (kind.map f).children = kind.children.map f := by
  cases kind <;> rfl

theorem ExpressionKind.map_map {γ : Type} (f : ε → δ) (g : δ → γ) (kind : ExpressionKind ε) :
    (kind.map f).map g = kind.map fun x => g (f x) := by
  cases kind <;> simp [ExpressionKind.map]

theorem StatementKind.children_map (f : ε → δ) (g : σ → ρ) (kind : StatementKind ε σ) :
    (kind.map f g).children = kind.children.map (Child.map f g) := by
  cases kind with
  | if_ cond then_ else_ => cases else_ <;> rfl
  | for_ init cond step body => cases init <;> cases cond <;> cases step <;> rfl
  | return_ e | throw e => cases e <;> rfl
  | _ => simp [StatementKind.map, StatementKind.children, Child.map, Case.map]

theorem StatementKind.map_map {ε' σ' : Type} (f : ε → δ) (g : σ → ρ) (f' : δ → ε') (g' : ρ → σ')
    (kind : StatementKind ε σ) :
    (kind.map f g).map f' g' = kind.map (fun x => f' (f x)) fun x => g' (g x) := by
  cases kind <;> simp [StatementKind.map, Case.map, Function.comp_def]

theorem StatementKind.map_id (kind : StatementKind ε σ) :
    kind.map (fun x => x) (fun x => x) = kind := by
  have hcase : Case.map (fun x : σ => x) = id := rfl
  cases kind <;> simp [StatementKind.map, hcase]

namespace Arenas

/-! ### What stands at a handle -/

def expressionAt (a : Arenas) (id : ExpressionId) :
    Option (Option Address × TypeId × ExpressionKind ExpressionId) :=
  a.expressions[id]?.map fun node => (node.address, node.ty, node.kind)

def statementAt (a : Arenas) (id : StatementId) :
    Option (Option Address × StatementKind ExpressionId StatementId) :=
  a.statements[id]?.map fun node => (node.address, node.kind)

/-- Every node is still at its handle. -/
structure Extends (a a' : Arenas) : Prop where
  expressions : ∀ id x, a.expressionAt id = some x → a'.expressionAt id = some x
  statements : ∀ id x, a.statementAt id = some x → a'.statementAt id = some x

theorem Extends.refl (a : Arenas) : a.Extends a := ⟨fun _ _ h => h, fun _ _ h => h⟩

theorem Extends.trans {a a' a'' : Arenas} (h : a.Extends a') (h' : a'.Extends a'') :
    a.Extends a'' where
  expressions id x hx := h'.expressions id x (h.expressions id x hx)
  statements id x hx := h'.statements id x (h.statements id x hx)

theorem expressionAt_unlinked (a : Arenas) (id : ExpressionId) :
    a.unlinked.expressionAt id = a.expressionAt id := by
  simp only [expressionAt, unlinked, List.getElem?_map, Option.map_map]
  rfl

theorem statementAt_unlinked (a : Arenas) (id : StatementId) :
    a.unlinked.statementAt id = a.statementAt id := by
  simp only [statementAt, unlinked, List.getElem?_map, Option.map_map]
  rfl

/-- Parent links are no part of what stands at a handle. -/
theorem Extends.of_unlinked {a a' : Arenas} (h : a'.unlinked = a.unlinked) : a.Extends a' where
  expressions id x hx := by
    rw [← expressionAt_unlinked, h, expressionAt_unlinked]
    exact hx
  statements id x hx := by
    rw [← statementAt_unlinked, h, statementAt_unlinked]
    exact hx

/-! ### Handles that nothing has for a child -/

/-- These are the handles that no node has for a child, and every other one is
a child once. -/
def Open (a : Arenas) (handles : List NodeRef) : Prop := (handles ++ a.links).Perm a.nodes

/-- A new node takes its children from the open handles. -/
theorem Open.alloc {a a' : Arenas} {new : NodeRef} {rest kids : List NodeRef}
    (h : a.Open (rest ++ kids)) (hnew : new ∉ a.nodes) (hnodes : a'.nodes.Perm (new :: a.nodes))
    (hchildren : ∀ node, a'.children node = if node = new then some kids else a.children node) :
    a'.Open (rest ++ [new]) := by
  have hkids (node : NodeRef) : a'.kids node = if node = new then kids else a.kids node := by
    rw [Arenas.kids, hchildren]
    split <;> rfl
  have hold : a.nodes.flatMap a'.kids = a.links := by
    refine List.flatMap_congr fun node hnode => ?_
    have hne : node ≠ new := fun heq => hnew (heq ▸ hnode)
    rw [hkids, if_neg hne]
  have hlinks : a'.links.Perm (kids ++ a.links) := by
    refine (hnodes.flatMap_right a'.kids).trans ?_
    rw [List.flatMap_cons, hkids, if_pos rfl, hold]
  have hrest : (rest ++ a'.links).Perm a.nodes := by
    refine (hlinks.append_left rest).trans ?_
    rw [← List.append_assoc]
    exact h
  rw [Open, List.append_assoc, List.singleton_append]
  exact List.perm_middle.trans ((hrest.cons new).trans hnodes.symm)

theorem Open.mem_nodes {a : Arenas} {handles : List NodeRef} (h : a.Open handles)
    {node : NodeRef} (hnode : node ∈ handles) : node ∈ a.nodes :=
  h.subset (List.mem_append_left _ hnode)

end Arenas

open Arenas

namespace CtreeBuilder

structure Growing (b : CtreeBuilder) (handles : List NodeRef) : Prop where
  built : b.Built
  openHandles : b.Open handles

theorem growing_new : CtreeBuilder.new.Growing [] := ⟨.new, .nil⟩

variable {b : CtreeBuilder}

theorem expressionAt_expression (b : CtreeBuilder) (ty : TypeId)
    (kind : ExpressionKind ExpressionId) (address : Option Address) :
    (b.expression ty kind address).2.expressionAt b.expressions.length =
      some (address, ty, kind) := by
  simp [expressionAt, expression]

theorem statementAt_statement (b : CtreeBuilder)
    (kind : StatementKind ExpressionId StatementId) (address : Option Address) :
    (b.statement kind address).2.statementAt b.statements.length = some (address, kind) := by
  simp [statementAt, statement]

theorem extends_expression (b : CtreeBuilder) (ty : TypeId)
    (kind : ExpressionKind ExpressionId) (address : Option Address) :
    b.Extends (b.expression ty kind address).2.toArenas where
  expressions id x hx := by
    obtain ⟨node, hnode, rfl⟩ := Option.map_eq_some_iff.mp hx
    have hlt := (List.getElem?_eq_some_iff.mp hnode).1
    rw [expressionAt, expression, List.getElem?_append_left hlt, hnode]
    rfl
  statements _ _ hx := hx

theorem extends_statement (b : CtreeBuilder)
    (kind : StatementKind ExpressionId StatementId) (address : Option Address) :
    b.Extends (b.statement kind address).2.toArenas where
  expressions _ _ hx := hx
  statements id x hx := by
    obtain ⟨node, hnode, rfl⟩ := Option.map_eq_some_iff.mp hx
    have hlt := (List.getElem?_eq_some_iff.mp hnode).1
    rw [statementAt, statement, List.getElem?_append_left hlt, hnode]
    rfl

theorem Growing.expression {kind : ExpressionKind ExpressionId} {rest : List NodeRef}
    (h : b.Growing (rest ++ kind.children.map .expression)) (ty : TypeId)
    (address : Option Address) :
    (b.expression ty kind address).2.Growing (rest ++ [.expression b.expressions.length]) where
  built := .expression h.built ty kind address fun c hc =>
    h.openHandles.mem_nodes (List.mem_append_right _ (List.mem_map_of_mem hc))
  openHandles := by
    refine h.openHandles.alloc ?_ ?_ (children_expression b ty kind address)
    · simp
    · simp only [nodes, CtreeBuilder.expression, List.length_append, List.length_singleton,
        List.range_succ, List.map_append, List.map_cons, List.map_nil, List.append_assoc]
      exact List.perm_middle

theorem Growing.statement {kind : StatementKind ExpressionId StatementId}
    {rest : List NodeRef} (h : b.Growing (rest ++ kind.children)) (address : Option Address) :
    (b.statement kind address).2.Growing (rest ++ [.statement b.statements.length]) where
  built := .statement h.built kind address fun c hc =>
    h.openHandles.mem_nodes (List.mem_append_right _ hc)
  openHandles := by
    refine h.openHandles.alloc ?_ ?_ (children_statement b kind address)
    · simp
    · simp only [nodes, CtreeBuilder.statement, List.length_append, List.length_singleton,
        List.range_succ, List.map_append, List.map_cons, List.map_nil, ← List.append_assoc]
      exact List.perm_append_singleton _ _

/-- Other types leave the nodes alone. -/
theorem Growing.types {handles : List NodeRef} (h : b.Growing handles) (types : TypeBuilder) :
    { b with types := types }.Growing handles := ⟨.types h.built types, h.openHandles⟩

theorem Growing.pushLocal {handles : List NodeRef} (h : b.Growing handles) (v : Local) :
    (b.pushLocal v).2.Growing handles := ⟨.pushLocal h.built v, h.openHandles⟩

/-- Where only the root is open, finishing makes a tree and links it. -/
theorem Growing.finish {root : StatementId} (h : b.Growing [.statement root])
    (debugAssertions : Bool) :
    ∃ t, b.finish debugAssertions root = some t ∧ t.IsTree root ∧ b.Extends t.toArenas ∧
      t.root = root ∧ t.types = b.types.table ∧ t.locals = b.locals := by
  have hfirst := h.built.childrenFirst
  have hperm : (Child.statement root :: b.links).Perm b.nodes := h.openHandles
  have hroot : .statement root ∈ b.nodes := hperm.subset List.mem_cons_self
  have hlinks : b.links.Nodup := (List.nodup_cons.mp (hperm.nodup_iff.mpr b.nodup_nodes)).2
  have hattached : ∀ node ∈ b.nodes, node ≠ .statement root → node ∈ b.links :=
    fun node hnode hne => (List.mem_cons.mp (hperm.mem_iff.mpr hnode)).resolve_left hne
  have hall : (b.subtree (.statement root)).Perm b.nodes :=
    (List.perm_ext_iff_of_nodup (nodup_subtree_of_unshared hfirst hlinks _) b.nodup_nodes).mpr
      fun node => ⟨fun hnode => subtree_subset hfirst hroot hnode,
        fun hnode => nodes_subset_of_attached hfirst hattached hnode⟩
  obtain ⟨visited, a', hvisited, hwired, hfinish⟩ := finish_eq hfirst hroot debugAssertions
  have hlength : visited.length = b.total := by
    rw [hvisited.length_eq, hall.length_eq, length_nodes]
  rw [if_pos ⟨hlength.le, fun _ => hlength⟩] at hfinish
  exact ⟨_, hfinish, (IsTree.congr hwired.unlinked root).mpr (isTree_of_perm hfirst hall),
    .of_unlinked hwired.unlinked, rfl, rfl, rfl⟩

end CtreeBuilder

end Idakit.Decompiler
