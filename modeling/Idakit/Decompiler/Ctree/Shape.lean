import Mathlib.Data.List.Count
import Mathlib.Data.List.Lattice
import Mathlib.Data.List.Pairwise
import Mathlib.Data.List.Perm.Subperm
import Idakit.Decompiler.Ctree.Tree

/-!
The shape of a finished tree. The nodes a builder allocates have their
children before them, so the walk that links the parents lists the subtree of
the root, and its count says how long that list is. Where every node but the
root is a child once, the list is every node once.
-/

namespace Idakit.Decompiler

open Idakit.Types
open Idakit.Library

namespace Arenas

/-- The children of a node; a node past its arena has none. -/
def kids (a : Arenas) (node : NodeRef) : List NodeRef := (a.children node).getD []

def nodes (a : Arenas) : List NodeRef :=
  (List.range a.expressions.length).map .expression ++
    (List.range a.statements.length).map .statement

def links (a : Arenas) : List NodeRef := a.nodes.flatMap a.kids

/-- Expressions in the order they were allocated, statements behind them. -/
def rank (a : Arenas) : NodeRef → ℕ
  | .expression id => id
  | .statement id => a.expressions.length + id

def subtree (a : Arenas) (node : NodeRef) : List NodeRef := Library.subtree a.kids a.rank node

def unlinked (a : Arenas) : Arenas where
  expressions := a.expressions.map fun node => { node with parent := none }
  statements := a.statements.map fun node => { node with parent := none }

structure ChildrenFirst (a : Arenas) : Prop where
  mem {node c} (h : c ∈ a.kids node) : c ∈ a.nodes
  ranked : Ranked a.kids a.rank

/-! ### Nodes and children -/

@[simp] theorem expression_mem_nodes (a : Arenas) (id : ExpressionId) :
    .expression id ∈ a.nodes ↔ id < a.expressions.length := by
  simp [nodes]

@[simp] theorem statement_mem_nodes (a : Arenas) (id : StatementId) :
    .statement id ∈ a.nodes ↔ id < a.statements.length := by
  simp [nodes]

theorem mem_nodes_iff (a : Arenas) (node : NodeRef) :
    node ∈ a.nodes ↔ (a.children node).isSome := by
  cases node with
  | expression id => simp [nodes, children]
  | statement id => simp [nodes, children]

theorem nodup_nodes (a : Arenas) : a.nodes.Nodup := by
  have hexpression : ((List.range a.expressions.length).map
      (Child.expression : ℕ → NodeRef)).Nodup :=
    List.nodup_range.map fun _ _ h => Child.expression.inj h
  have hstatement : ((List.range a.statements.length).map
      (Child.statement : ℕ → NodeRef)).Nodup :=
    List.nodup_range.map fun _ _ h => Child.statement.inj h
  refine hexpression.append hstatement ?_
  simp [List.disjoint_left]

@[simp] theorem length_nodes (a : Arenas) : a.nodes.length = a.total := by
  simp [nodes, total]

theorem children_of_mem {a : Arenas} {node : NodeRef} (h : node ∈ a.nodes) :
    a.children node = some (a.kids node) := by
  obtain ⟨cs, hcs⟩ := Option.isSome_iff_exists.mp ((a.mem_nodes_iff node).mp h)
  rw [kids, hcs, Option.getD_some]

theorem kids_of_not_mem {a : Arenas} {node : NodeRef} (h : node ∉ a.nodes) :
    a.kids node = [] := by
  rw [mem_nodes_iff, Option.not_isSome_iff_eq_none] at h
  rw [kids, h, Option.getD_none]

theorem parent_of_not_mem {a : Arenas} {node : NodeRef} (h : node ∉ a.nodes) :
    a.parent node = none := by
  cases node with
  | expression id => simpa [parent] using h
  | statement id => simpa [parent] using h

theorem mem_nodes_of_mem_kids {a : Arenas} {node c : NodeRef} (h : c ∈ a.kids node) :
    node ∈ a.nodes := by
  by_contra hnode
  rw [kids_of_not_mem hnode] at h
  cases h

theorem mem_links_iff {a : Arenas} {c : NodeRef} : c ∈ a.links ↔ ∃ node, c ∈ a.kids node := by
  rw [links, List.mem_flatMap]
  constructor
  · rintro ⟨node, -, h⟩
    exact ⟨node, h⟩
  · rintro ⟨node, h⟩
    exact ⟨node, mem_nodes_of_mem_kids h, h⟩

theorem rank_lt {a : Arenas} {node : NodeRef} (h : node ∈ a.nodes) : a.rank node < a.total := by
  cases node with
  | expression id => exact Nat.lt_add_right _ ((a.expression_mem_nodes id).mp h)
  | statement id => exact Nat.add_lt_add_left ((a.statement_mem_nodes id).mp h) _

/-! ### Parent links leave the rest alone -/

theorem children_unlinked (a : Arenas) (node : NodeRef) :
    a.unlinked.children node = a.children node := by
  cases node with
  | expression id =>
      simp only [unlinked, children, List.getElem?_map, Option.map_map]
      rfl
  | statement id =>
      simp only [unlinked, children, List.getElem?_map, Option.map_map]
      rfl

section Unlinked

variable {a a' : Arenas} (h : a'.unlinked = a.unlinked)

include h

theorem children_congr : a'.children = a.children := by
  funext node
  rw [← children_unlinked a', h, children_unlinked]

theorem kids_congr : a'.kids = a.kids := by
  funext node
  rw [kids, children_congr h, kids]

theorem expressions_length_congr : a'.expressions.length = a.expressions.length := by
  have hlength := congrArg (fun a : Arenas => a.expressions.length) h
  simpa [unlinked] using hlength

theorem statements_length_congr : a'.statements.length = a.statements.length := by
  have hlength := congrArg (fun a : Arenas => a.statements.length) h
  simpa [unlinked] using hlength

theorem nodes_congr : a'.nodes = a.nodes := by
  rw [nodes, expressions_length_congr h, statements_length_congr h, nodes]

theorem rank_congr : a'.rank = a.rank := by
  funext node
  cases node with
  | expression id => rfl
  | statement id => rw [rank, expressions_length_congr h, rank]

theorem links_congr : a'.links = a.links := by
  rw [links, nodes_congr h, kids_congr h, links]

theorem subtree_congr (node : NodeRef) : a'.subtree node = a.subtree node := by
  rw [subtree, kids_congr h, rank_congr h, subtree]

theorem ChildrenFirst.congr (hfirst : a.ChildrenFirst) : a'.ChildrenFirst := by
  constructor
  · intro node c hc
    rw [kids_congr h] at hc
    rw [nodes_congr h]
    exact hfirst.mem hc
  · rw [kids_congr h, rank_congr h]
    exact hfirst.ranked

end Unlinked

/-! ### What linking does -/

/-- Overwriting an element by one that maps to the same leaves the mapped list. -/
theorem map_set_eq_map {α β : Type*} {f : α → β} {l : List α} {i : ℕ} {x y : α}
    (hx : l[i]? = some x) (hf : f y = f x) : (l.set i y).map f = l.map f := by
  apply List.ext_getElem?
  intro j
  rw [List.getElem?_map, List.getElem?_map, List.getElem?_set]
  split
  · next heq =>
      subst heq
      obtain ⟨hlt, rfl⟩ := List.getElem?_eq_some_iff.mp hx
      simp [hlt, hf]
  · rfl

theorem setParent_of_mem {a : Arenas} (node : NodeRef) {c : NodeRef} (h : c ∈ a.nodes) :
    ∃ a', a.setParent node c = some a' ∧ a'.unlinked = a.unlinked ∧
      ∀ x, a'.parent x = if x = c then some (some node) else a.parent x := by
  rw [mem_nodes_iff] at h
  cases c with
  | expression id =>
      rw [children, Option.isSome_map] at h
      obtain ⟨child, hchild⟩ := Option.isSome_iff_exists.mp h
      have hlt := (List.getElem?_eq_some_iff.mp hchild).1
      refine ⟨_, by rw [setParent, hchild]; rfl, ?_, fun x => ?_⟩
      · simp only [unlinked, map_set_eq_map hchild]
      · cases x with
        | expression id' =>
            by_cases heq : id' = id
            · subst heq
              simp [parent, hlt]
            · simp [parent, heq, Ne.symm heq]
        | statement id' => simp [parent]
  | statement id =>
      rw [children, Option.isSome_map] at h
      obtain ⟨child, hchild⟩ := Option.isSome_iff_exists.mp h
      have hlt := (List.getElem?_eq_some_iff.mp hchild).1
      refine ⟨_, by rw [setParent, hchild]; rfl, ?_, fun x => ?_⟩
      · simp only [unlinked, map_set_eq_map hchild]
      · cases x with
        | expression id' => simp [parent]
        | statement id' =>
            by_cases heq : id' = id
            · subst heq
              simp [parent, hlt]
            · simp [parent, heq, Ne.symm heq]

theorem setParents_of_mem {a : Arenas} (node : NodeRef) {cs : List NodeRef}
    (h : ∀ c ∈ cs, c ∈ a.nodes) :
    ∃ a', a.setParents node cs = some a' ∧ a'.unlinked = a.unlinked ∧
      ∀ x, a'.parent x = if x ∈ cs then some (some node) else a.parent x := by
  induction cs generalizing a with
  | nil => exact ⟨a, rfl, rfl, fun x => by simp⟩
  | cons c cs ih =>
      obtain ⟨a₁, hset, hunlinked, hparent⟩ := setParent_of_mem node (h c List.mem_cons_self)
      have hcs : ∀ x ∈ cs, x ∈ a₁.nodes := by
        intro x hx
        rw [nodes_congr hunlinked]
        exact h x (List.mem_cons_of_mem c hx)
      obtain ⟨a₂, hsets, hunlinked', hparent'⟩ := ih hcs
      refine ⟨a₂, ?_, hunlinked'.trans hunlinked, fun x => ?_⟩
      · rw [setParents, hset]
        exact hsets
      · rw [hparent', hparent]
        by_cases hx : x ∈ cs <;> by_cases heq : x = c <;> simp [hx, heq]

/-- Some nodes have become the parents of their children, and nothing else
has changed. -/
structure Wired (visited : List NodeRef) (a a' : Arenas) : Prop where
  unlinked : a'.unlinked = a.unlinked
  parent (c : NodeRef) : c ∉ visited.flatMap a.kids ∧ a'.parent c = a.parent c ∨
    ∃ p ∈ visited, c ∈ a.kids p ∧ a'.parent c = some (some p)

theorem Wired.refl (a : Arenas) : Wired [] a a := ⟨rfl, fun _ => .inl ⟨by simp, rfl⟩⟩

theorem Wired.cons {a a₁ a₂ : Arenas} {node : NodeRef} {visited : List NodeRef}
    (hunlinked : a₁.unlinked = a.unlinked)
    (hparent : ∀ x, a₁.parent x = if x ∈ a.kids node then some (some node) else a.parent x)
    (h : Wired visited a₁ a₂) : Wired (node :: visited) a a₂ := by
  refine ⟨h.unlinked.trans hunlinked, fun c => ?_⟩
  have hc := h.parent c
  rw [kids_congr hunlinked, hparent] at hc
  rcases hc with ⟨hnot, heq⟩ | ⟨p, hp, hkid, heq⟩
  · by_cases hkid : c ∈ a.kids node
    · exact .inr ⟨node, List.mem_cons_self, hkid, by rw [heq, if_pos hkid]⟩
    · refine .inl ⟨?_, by rw [heq, if_neg hkid]⟩
      rw [List.flatMap_cons, List.mem_append]
      exact fun hmem => hmem.elim hkid hnot
  · exact .inr ⟨p, List.mem_cons_of_mem node hp, hkid, heq⟩

end Arenas

open Arenas

theorem CtreeBuilder.link_of_drains {kids : NodeRef → List NodeRef} {stack visited : List NodeRef}
    (h : Drains (fun node => (kids node).reverse) stack visited) (a : Arenas)
    (hkids : a.kids = kids) (hfirst : a.ChildrenFirst) (hstack : ∀ node ∈ stack, node ∈ a.nodes)
    (left : ℕ) :
    ∃ a', Wired visited a a' ∧ CtreeBuilder.link left stack a =
      if visited.length ≤ left then some (left - visited.length, a') else none := by
  induction h generalizing a left with
  | nil => exact ⟨a, .refl a, by simp [CtreeBuilder.link]⟩
  | @cons node stack visited hrest ih =>
      have hnode : node ∈ a.nodes := hstack node List.mem_cons_self
      obtain ⟨a₁, hset, hunlinked, hparent⟩ :=
        setParents_of_mem node fun c (hc : c ∈ a.kids node) => hfirst.mem hc
      have hstack₁ : ∀ x ∈ (kids node).reverse ++ stack, x ∈ a₁.nodes := by
        intro x hx
        rw [nodes_congr hunlinked]
        rcases List.mem_append.mp hx with hx | hx
        · rw [List.mem_reverse, ← hkids] at hx
          exact hfirst.mem hx
        · exact hstack x (List.mem_cons_of_mem node hx)
      have hkids₁ : a₁.kids = kids := (kids_congr hunlinked).trans hkids
      obtain ⟨a₂, hwired, hlink⟩ := ih a₁ hkids₁ (hfirst.congr hunlinked) hstack₁ (left - 1)
      refine ⟨a₂, hwired.cons hunlinked hparent, ?_⟩
      cases left with
      | zero => simp [CtreeBuilder.link]
      | succ left =>
          rw [hkids] at hset
          simp only [CtreeBuilder.link, children_of_mem hnode, Option.bind_eq_bind,
            Option.bind_some, hkids, hset]
          simpa using hlink

namespace CtreeBuilder

/-- Finishing lists the subtree of the root, up to order, and counts it. -/
theorem finish_eq {b : CtreeBuilder} (hfirst : b.ChildrenFirst) {root : StatementId}
    (hroot : .statement root ∈ b.nodes) (debugAssertions : Bool) :
    ∃ visited a', visited.Perm (b.subtree (.statement root)) ∧ Wired visited b.toArenas a' ∧
      b.finish debugAssertions root =
        if visited.length ≤ b.total ∧ (debugAssertions → visited.length = b.total) then
          some ⟨a', b.types.table, b.locals, root⟩
        else none := by
  have hreverse : Ranked (fun node => (b.kids node).reverse) b.rank :=
    fun node c hc => hfirst.ranked node c (List.mem_reverse.mp hc)
  have hdrains := drains_flatMap hreverse [.statement root]
  rw [List.flatMap_singleton] at hdrains
  obtain ⟨a', hwired, hlink⟩ := link_of_drains hdrains b.toArenas rfl hfirst
    (fun node hnode => List.mem_singleton.mp hnode ▸ hroot) b.total
  refine ⟨_, a', subtree_reverse_perm hfirst.ranked _, hwired, ?_⟩
  rw [finish, hlink]
  split
  · next hle =>
      cases debugAssertions with
      | false => simp [hle]
      | true =>
          by_cases hlen : (Library.subtree (fun node => (b.kids node).reverse) b.rank
              (.statement root)).length = b.total
          · simp [hlen]
          · have hleft : b.total - (Library.subtree (fun node => (b.kids node).reverse) b.rank
                (.statement root)).length ≠ 0 := by omega
            simp [hlen, hleft]
  · next hle => simp [hle]

theorem finish_of_not_mem {b : CtreeBuilder} {root : StatementId}
    (hroot : .statement root ∉ b.nodes) (debugAssertions : Bool) :
    b.finish debugAssertions root = none := by
  rw [mem_nodes_iff, Option.not_isSome_iff_eq_none] at hroot
  cases htotal : b.total with
  | zero => simp [finish, htotal, link]
  | succ left => simp [finish, htotal, link, hroot]

/-! ### The builders that calls make -/

/-- The builders that calls make, the children of each new node being handles
that earlier calls gave out. -/
inductive Built : CtreeBuilder → Prop
  | new : Built .new
  | expression {b} (h : Built b) (ty : TypeId) (kind : ExpressionKind ExpressionId)
      (address : Option Address)
      (hkids : ∀ c ∈ kind.children, (.expression c : NodeRef) ∈ b.nodes) :
      Built (b.expression ty kind address).2
  | statement {b} (h : Built b) (kind : StatementKind ExpressionId StatementId)
      (address : Option Address) (hkids : ∀ c ∈ kind.children, c ∈ b.nodes) :
      Built (b.statement kind address).2
  | pushLocal {b} (h : Built b) (v : Local) : Built (b.pushLocal v).2
  | types {b} (h : Built b) (types : TypeBuilder) : Built { b with types := types }

theorem children_expression (b : CtreeBuilder) (ty : TypeId)
    (kind : ExpressionKind ExpressionId) (address : Option Address) (node : NodeRef) :
    (b.expression ty kind address).2.children node =
      if node = .expression b.expressions.length then some (kind.children.map .expression)
      else b.children node := by
  cases node with
  | statement id => rfl
  | expression id =>
      simp only [expression, children, List.getElem?_append, List.getElem?_singleton,
        Child.expression.injEq]
      split
      · next hlt => rw [if_neg (Nat.ne_of_lt hlt)]
      · next hge =>
          by_cases heq : id = b.expressions.length
          · simp [heq]
          · have hsub := Nat.sub_ne_zero_of_lt
              (Nat.lt_of_le_of_ne (Nat.le_of_not_lt hge) (Ne.symm heq))
            simp [heq, hsub, List.getElem?_eq_none_iff.mpr (Nat.le_of_not_lt hge)]

theorem children_statement (b : CtreeBuilder) (kind : StatementKind ExpressionId StatementId)
    (address : Option Address) (node : NodeRef) :
    (b.statement kind address).2.children node =
      if node = .statement b.statements.length then some kind.children else b.children node := by
  cases node with
  | expression id => rfl
  | statement id =>
      simp only [statement, children, List.getElem?_append, List.getElem?_singleton,
        Child.statement.injEq]
      split
      · next hlt => rw [if_neg (Nat.ne_of_lt hlt)]
      · next hge =>
          by_cases heq : id = b.statements.length
          · simp [heq]
          · have hsub := Nat.sub_ne_zero_of_lt
              (Nat.lt_of_le_of_ne (Nat.le_of_not_lt hge) (Ne.symm heq))
            simp [heq, hsub, List.getElem?_eq_none_iff.mpr (Nat.le_of_not_lt hge)]

/-- A new node keeps the children first, if its own are nodes that are there
and everything is ranked as before. -/
theorem childrenFirst_of_alloc {a a' : Arenas} (h : a.ChildrenFirst) {new : NodeRef}
    {kids : List NodeRef} (hkids : ∀ c ∈ kids, c ∈ a.nodes)
    (hchildren : ∀ node, a'.children node = if node = new then some kids else a.children node)
    (hrank : ∀ node ∈ a.nodes, ∀ c ∈ a.nodes, a.rank c < a.rank node → a'.rank c < a'.rank node)
    (hnew : ∀ c ∈ kids, a'.rank c < a'.rank new) : a'.ChildrenFirst := by
  have hnodes : ∀ node ∈ a.nodes, node ∈ a'.nodes := by
    intro node hnode
    rw [mem_nodes_iff] at hnode ⊢
    rw [hchildren]
    split
    · rfl
    · exact hnode
  have hcases : ∀ {node c}, c ∈ a'.kids node → node = new ∧ c ∈ kids ∨ c ∈ a.kids node := by
    intro node c hc
    rw [Arenas.kids, hchildren] at hc
    split at hc
    · next heq => exact .inl ⟨heq, hc⟩
    · exact .inr hc
  constructor
  · intro node c hc
    rcases hcases hc with ⟨-, hc⟩ | hc
    · exact hnodes c (hkids c hc)
    · exact hnodes c (h.mem hc)
  · intro node c hc
    rcases hcases hc with ⟨rfl, hc⟩ | hc
    · exact hnew c hc
    · exact hrank node (mem_nodes_of_mem_kids hc) c (h.mem hc) (h.ranked node c hc)

theorem Built.childrenFirst {b : CtreeBuilder} (h : Built b) : b.ChildrenFirst := by
  induction h with
  | new =>
      have hnone : ∀ {node c}, c ∉ CtreeBuilder.new.kids node := by
        intro node c hc
        cases node <;> cases hc
      exact ⟨fun hc => absurd hc hnone, fun node c hc => absurd hc hnone⟩
  | @expression b h ty kind address hkids ih =>
      refine childrenFirst_of_alloc ih ?_ (children_expression b ty kind address) ?_ ?_
      · intro c hc
        obtain ⟨e, he, rfl⟩ := List.mem_map.mp hc
        exact hkids e he
      · intro node hnode c hc hlt
        -- One more expression moves every statement up by one.
        have hrank : ∀ node, (b.expression ty kind address).2.rank node =
            match node with
            | .expression id => b.rank (.expression id)
            | .statement id => b.rank (.statement id) + 1 := by
          intro node
          cases node with
          | expression id => rfl
          | statement id =>
              simp only [rank, CtreeBuilder.expression, List.length_append, List.length_singleton]
              omega
        rw [hrank, hrank]
        cases node with
        | expression id =>
            cases c with
            | expression id' => exact hlt
            | statement id' =>
                have hid := (b.expression_mem_nodes id).mp hnode
                have hlt' : b.expressions.length + id' < id := hlt
                exact absurd (Nat.lt_of_le_of_lt (Nat.le_add_right _ _) hlt') (Nat.lt_asymm hid)
        | statement id =>
            cases c with
            | expression id' => exact Nat.lt_succ_of_lt hlt
            | statement id' => exact Nat.succ_lt_succ hlt
      · intro c hc
        obtain ⟨e, he, rfl⟩ := List.mem_map.mp hc
        exact (b.expression_mem_nodes e).mp (hkids e he)
  | @statement b h kind address hkids ih =>
      refine childrenFirst_of_alloc ih hkids (children_statement b kind address) ?_ ?_
      · exact fun node _ c _ hlt => hlt
      · exact fun c hc => rank_lt (hkids c hc)
  | pushLocal h v ih => exact ih
  | types h types ih => exact ih

/-- Nothing has a parent before the tree is finished. -/
theorem Built.parent_eq_none {b : CtreeBuilder} (h : Built b) :
    (∀ node ∈ b.expressions, node.parent = none) ∧ ∀ node ∈ b.statements, node.parent = none := by
  induction h with
  | new => simp [CtreeBuilder.new]
  | expression h ty kind address hkids ih =>
      refine ⟨fun node hnode => ?_, ih.2⟩
      rcases List.mem_append.mp hnode with hnode | hnode
      · exact ih.1 node hnode
      · rw [List.mem_singleton.mp hnode]
  | statement h kind address hkids ih =>
      refine ⟨ih.1, fun node hnode => ?_⟩
      rcases List.mem_append.mp hnode with hnode | hnode
      · exact ih.2 node hnode
      · rw [List.mem_singleton.mp hnode]
  | pushLocal h v ih => exact ih
  | types h types ih => exact ih

theorem Built.parent_of_mem {b : CtreeBuilder} (h : Built b) {node : NodeRef}
    (hnode : node ∈ b.nodes) : b.parent node = some none := by
  rw [mem_nodes_iff] at hnode
  cases node with
  | expression id =>
      rw [children, Option.isSome_map] at hnode
      obtain ⟨n, hn⟩ := Option.isSome_iff_exists.mp hnode
      rw [parent, hn, Option.map_some, h.parent_eq_none.1 n (List.mem_of_getElem? hn)]
  | statement id =>
      rw [children, Option.isSome_map] at hnode
      obtain ⟨n, hn⟩ := Option.isSome_iff_exists.mp hnode
      rw [parent, hn, Option.map_some, h.parent_eq_none.2 n (List.mem_of_getElem? hn)]

end CtreeBuilder

/-! ### Trees -/

namespace Arenas

/-- The nodes form a tree: from the root every node is reached once, none is
a child twice and only the root is no child. -/
structure IsTree (a : Arenas) (root : StatementId) : Prop where
  once : ∀ node ∈ a.nodes, (a.subtree (.statement root)).count node = 1
  unshared : ∀ node, a.links.count node ≤ 1
  attached : ∀ node ∈ a.nodes, node ≠ .statement root → node ∈ a.links

def Shared (a : Arenas) : Prop := ∃ node, 2 ≤ a.links.count node

def Orphaned (a : Arenas) (root : StatementId) : Prop :=
  ∃ node ∈ a.nodes, node ≠ .statement root ∧ node ∉ a.links

/-- Where no handle is passed twice, a node has one parent. -/
theorem eq_of_mem_kids {a : Arenas} (hlinks : a.links.Nodup) {p q c : NodeRef}
    (hp : c ∈ a.kids p) (hq : c ∈ a.kids q) : p = q := by
  by_contra hne
  have : Std.Symm (Function.onFun List.Disjoint a.kids) := ⟨fun _ _ h => List.Disjoint.symm h⟩
  exact (List.nodup_flatMap.mp hlinks).2.forall (mem_nodes_of_mem_kids hp)
    (mem_nodes_of_mem_kids hq) hne hp hq

section Trees

variable {a : Arenas} (hfirst : a.ChildrenFirst)

include hfirst

theorem subtree_subset {node : NodeRef} (hnode : node ∈ a.nodes) : a.subtree node ⊆ a.nodes := by
  intro x hx
  have hpath := (mem_subtree_iff hfirst.ranked).mp hx
  rcases Relation.ReflTransGen.cases_tail hpath with rfl | ⟨p, -, hlink⟩
  · exact hnode
  · exact hfirst.mem hlink

theorem nodup_subtree_of_unshared (hlinks : a.links.Nodup) (node : NodeRef) :
    (a.subtree node).Nodup := by
  refine nodup_subtree hfirst.ranked (fun node => ?_) (fun _ _ _ => eq_of_mem_kids hlinks) node
  by_cases hnode : node ∈ a.nodes
  · exact (List.nodup_flatMap.mp hlinks).1 node hnode
  · rw [kids_of_not_mem hnode]
    exact List.nodup_nil

theorem nodes_subset_of_attached {root : StatementId}
    (hattached : ∀ node ∈ a.nodes, node ≠ .statement root → node ∈ a.links) :
    a.nodes ⊆ a.subtree (.statement root) := by
  intro node hnode
  refine mem_subtree_of_attached (S := (· ∈ a.nodes)) hfirst.ranked (fun x hx => rank_lt hx) ?_ hnode
  intro x hx hne
  obtain ⟨p, hp⟩ := mem_links_iff.mp (hattached x hx hne)
  exact ⟨p, mem_nodes_of_mem_kids hp, hp⟩

/-- A walk that lists every node lists the root and every child. -/
theorem links_perm {root : StatementId} (hperm : (a.subtree (.statement root)).Perm a.nodes) :
    (.statement root :: a.links).Perm a.nodes :=
  (List.Perm.cons _ (hperm.flatMap_right a.kids).symm).trans
    ((subtree_perm_children hfirst.ranked _).symm.trans hperm)

theorem isTree_of_perm {root : StatementId} (hperm : (a.subtree (.statement root)).Perm a.nodes) :
    a.IsTree root := by
  have hlinks := links_perm hfirst hperm
  constructor
  · intro node hnode
    rw [hperm.count_eq, List.count_eq_one_of_mem a.nodup_nodes hnode]
  · intro node
    calc
      a.links.count node ≤ (.statement root :: a.links).count node := List.count_le_count_cons
      _ = a.nodes.count node := hlinks.count_eq node
      _ ≤ 1 := List.nodup_iff_count_le_one.mp a.nodup_nodes node
  · intro node hnode hne
    exact (List.mem_cons.mp (hlinks.mem_iff.mpr hnode)).resolve_left hne

/-- A walk of the right length is every node once, unless one node too many
makes up for one too few. -/
theorem isTree_iff_of_length {root : StatementId} (hroot : .statement root ∈ a.nodes)
    (hlength : (a.subtree (.statement root)).length = a.total) :
    a.IsTree root ↔ ¬(a.Shared ∧ a.Orphaned root) := by
  rw [← length_nodes] at hlength
  constructor
  · rintro htree ⟨⟨node, hshared⟩, -⟩
    have hle := htree.unshared node
    omega
  · intro h
    apply isTree_of_perm hfirst
    rcases not_and_or.mp h with hshared | horphaned
    · have hlinks : a.links.Nodup := by
        rw [List.nodup_iff_count_le_one]
        intro node
        have hlt : ¬2 ≤ a.links.count node := fun hle => hshared ⟨node, hle⟩
        omega
      have hnodup := nodup_subtree_of_unshared hfirst hlinks (.statement root)
      exact (hnodup.subperm (subtree_subset hfirst hroot)).perm_of_length_le hlength.ge
    · have hsub : a.nodes ⊆ a.subtree (.statement root) := by
        apply nodes_subset_of_attached hfirst
        intro node hnode hne
        by_contra hlink
        exact horphaned ⟨node, hnode, hne, hlink⟩
      exact ((a.nodup_nodes.subperm hsub).perm_of_length_le hlength.le).symm

end Trees

theorem IsTree.congr {a a' : Arenas} (h : a'.unlinked = a.unlinked) (root : StatementId) :
    a'.IsTree root ↔ a.IsTree root := by
  constructor
  · intro htree
    refine ⟨?_, ?_, ?_⟩
    · simpa [subtree_congr h, nodes_congr h] using htree.once
    · simpa [links_congr h] using htree.unshared
    · simpa [links_congr h, nodes_congr h] using htree.attached
  · intro htree
    refine ⟨?_, ?_, ?_⟩
    · simpa [subtree_congr h, nodes_congr h] using htree.once
    · simpa [links_congr h] using htree.unshared
    · simpa [links_congr h, nodes_congr h] using htree.attached

end Arenas

namespace CtreeBuilder

/-- Where finishing returns a tree, its nodes are those of the builder and
the walk has come to its end. -/
theorem of_finish {b : CtreeBuilder} (hfirst : b.ChildrenFirst) {root : StatementId}
    {debugAssertions : Bool} {t : Ctree} (h : b.finish debugAssertions root = some t) :
    .statement root ∈ b.nodes ∧ t.root = root ∧ t.unlinked = b.unlinked ∧
      (debugAssertions → (b.subtree (.statement root)).length = b.total) := by
  by_cases hroot : .statement root ∈ b.nodes
  · obtain ⟨visited, a', hperm, hwired, hfinish⟩ := finish_eq hfirst hroot debugAssertions
    rw [h] at hfinish
    split at hfinish
    · next hcount =>
        cases hfinish
        exact ⟨hroot, rfl, hwired.unlinked, fun hdebug => hperm.length_eq ▸ hcount.2 hdebug⟩
    · cases hfinish
  · rw [finish_of_not_mem hroot] at h
    cases h

/-- A finished tree is a tree, unless the calls passed one handle twice and
never passed another. -/
theorem finish_isTree_iff {b : CtreeBuilder} (h : b.Built) {root : StatementId} {t : Ctree}
    (hfinish : b.finish true root = some t) :
    t.IsTree t.root ↔ ¬(b.Shared ∧ b.Orphaned root) := by
  obtain ⟨hroot, hrooted, hunlinked, hlength⟩ := of_finish h.childrenFirst hfinish
  rw [hrooted, IsTree.congr hunlinked]
  exact isTree_iff_of_length h.childrenFirst hroot (hlength rfl)

def sumThenReturn : CtreeBuilder :=
  let b := (CtreeBuilder.new.expression 0 (.num 1) none).2
  let b := (b.expression 0 (.num 2) none).2
  let b := (b.expression 0 (.binary .add 0 1) none).2
  let b := (b.statement (.expression 2) none).2
  let b := (b.statement (.return_ none) none).2
  (b.statement (.block [0, 1]) none).2

theorem built_sumThenReturn : sumThenReturn.Built := by
  have hone := Built.new.expression 0 (.num 1) none (by decide)
  have htwo := hone.expression 0 (.num 2) none (by decide)
  have hsum := htwo.expression 0 (.binary .add 0 1) none (by decide)
  have hstatement := hsum.statement (.expression 2) none (by decide)
  have hreturn := hstatement.statement (.return_ none) none (by decide)
  exact hreturn.statement (.block [0, 1]) none (by decide)

theorem finish_isTree_iff_sumThenReturn :
    ∃ t, sumThenReturn.finish true 2 = some t ∧
      (t.IsTree t.root ↔ ¬(sumThenReturn.Shared ∧ sumThenReturn.Orphaned 2)) :=
  ⟨_, rfl, finish_isTree_iff built_sumThenReturn rfl⟩

/-- A block that holds one statement twice, and a statement that nothing
holds. -/
def twiceAndNever : CtreeBuilder :=
  let b := (CtreeBuilder.new.statement .empty none).2
  let b := (b.statement (.block [0, 0]) none).2
  (b.statement .break_ none).2

/-- The walk visits as many nodes as there are, one of them twice and one of
them never. -/
theorem finish_not_isTree :
    twiceAndNever.Built ∧ ∃ t, twiceAndNever.finish true 1 = some t ∧ ¬t.IsTree t.root := by
  refine ⟨?_, _, rfl, fun htree => ?_⟩
  · refine .statement (.statement (.statement .new .empty none ?_) (.block [0, 0]) none ?_)
      .break_ none ?_
    · simp [StatementKind.children]
    · decide
    · simp [StatementKind.children]
  · have hle := htree.unshared (.statement 0)
    exact absurd hle (by decide)

end CtreeBuilder

/-! ### Descendants -/

theorem Ctree.yields_iff {t : Ctree} (hfirst : t.ChildrenFirst) {stack l : List NodeRef}
    (hstack : ∀ node ∈ stack, node ∈ t.nodes) : t.Yields stack l ↔ Drains t.kids stack l := by
  constructor
  · intro h
    clear hstack
    induction h with
    | @done stack h =>
        cases stack with
        | nil => exact .nil
        | cons node stack => simp [Ctree.next] at h
    | @more stack node stack' l h _ ih =>
        cases stack with
        | nil => simp [Ctree.next] at h
        | cons node stack =>
            obtain ⟨kids, hkids, heq⟩ := Option.map_eq_some_iff.mp h
            cases heq
            have hkids' : t.kids node = kids := by rw [Arenas.kids, hkids, Option.getD_some]
            exact .cons (hkids' ▸ ih)
  · intro h
    induction h with
    | nil => exact .done rfl
    | @cons node stack l _ ih =>
        have hnode := hstack node List.mem_cons_self
        have hnext : t.next (node :: stack) = some (some (node, t.kids node ++ stack)) := by
          rw [Ctree.next, children_of_mem hnode, Option.map_some]
        refine .more hnext (ih fun x hx => ?_)
        · rcases List.mem_append.mp hx with hx | hx
          · exact hfirst.mem hx
          · exact hstack x (List.mem_cons_of_mem node hx)

theorem Ctree.descendants_iff {t : Ctree} (hfirst : t.ChildrenFirst) {node : NodeRef}
    (hnode : node ∈ t.nodes) (l : List NodeRef) : t.Descendants node l ↔ l = t.subtree node := by
  have hdrains := drains_flatMap hfirst.ranked [node]
  rw [List.flatMap_singleton] at hdrains
  rw [Ctree.Descendants, yields_iff hfirst fun x hx => List.mem_singleton.mp hx ▸ hnode]
  constructor
  · exact fun h => h.unique hdrains
  · rintro rfl
    exact hdrains

/-! ### Every handle once -/

/-- Where the calls pass every handle but the root's once, and the root's
never, finishing makes the tree: children and parents are inverse, the root
alone has no parent, and the descendants of every node are its pre-order. -/
theorem CtreeBuilder.finish_of_once {b : CtreeBuilder} (h : b.Built) {root : StatementId}
    (hroot : .statement root ∈ b.nodes)
    (honce : ∀ node ∈ b.nodes, b.links.count node = if node = .statement root then 0 else 1)
    (debugAssertions : Bool) :
    ∃ t, b.finish debugAssertions root = some t ∧ t.root = root ∧ t.unlinked = b.unlinked ∧
      (∀ node p, t.parent node = some (some p) ↔ node ∈ t.kids p) ∧
      (∀ node ∈ t.nodes, t.parent node = some none ↔ node = .statement root) ∧
      ∀ node ∈ t.nodes, t.subtree node = node :: (t.kids node).flatMap t.subtree ∧
        (t.subtree node).Nodup ∧ ∀ l, t.Descendants node l ↔ l = t.subtree node := by
  have hfirst := h.childrenFirst
  have hmem : ∀ node, node ∈ b.links → node ∈ b.nodes := by
    intro node hnode
    obtain ⟨p, hp⟩ := mem_links_iff.mp hnode
    exact hfirst.mem hp
  -- Every handle is a child once, but for the root, which is none.
  have hlinks : b.links.Nodup := by
    rw [List.nodup_iff_count_le_one]
    intro node
    by_cases hnode : node ∈ b.nodes
    · rw [honce node hnode]
      split <;> omega
    · rw [List.count_eq_zero_of_not_mem fun hlink => hnode (hmem node hlink)]
      omega
  have hlink : ∀ node ∈ b.nodes, node ≠ .statement root → node ∈ b.links := by
    intro node hnode hne
    rw [← List.count_pos_iff, honce node hnode, if_neg hne]
    omega
  have hrootless : .statement root ∉ b.links := by
    rw [← List.count_eq_zero, honce _ hroot, if_pos rfl]
  have hnodup := nodup_subtree_of_unshared hfirst hlinks
  -- Nothing below the root is listed twice or left out, so the count of visits comes out.
  have hperm : (b.subtree (.statement root)).Perm b.nodes :=
    (List.perm_ext_iff_of_nodup (hnodup _) b.nodup_nodes).mpr fun node =>
      ⟨fun hnode => subtree_subset hfirst hroot hnode,
        fun hnode => nodes_subset_of_attached hfirst hlink hnode⟩
  obtain ⟨visited, a', hvisited, hwired, hfinish⟩ := finish_eq hfirst hroot debugAssertions
  have hlength : visited.length = b.total := by
    rw [hvisited.length_eq, hperm.length_eq, length_nodes]
  rw [if_pos ⟨hlength.le, fun _ => hlength⟩] at hfinish
  have hkids : a'.kids = b.kids := kids_congr hwired.unlinked
  have hnodes : a'.nodes = b.nodes := nodes_congr hwired.unlinked
  have hfirst' : a'.ChildrenFirst := hfirst.congr hwired.unlinked
  -- A node has become a parent if and only if it has the child.
  have hwire : ∀ node, node ∉ b.links ∧ a'.parent node = b.parent node ∨
      ∃ p, node ∈ b.kids p ∧ a'.parent node = some (some p) := by
    intro node
    rcases hwired.parent node with ⟨hnot, heq⟩ | ⟨p, -, hp, heq⟩
    · refine .inl ⟨fun hmem => hnot ?_, heq⟩
      exact ((hvisited.trans hperm).flatMap_right b.kids).mem_iff.mpr hmem
    · exact .inr ⟨p, hp, heq⟩
  refine ⟨_, hfinish, rfl, hwired.unlinked, fun node p => ?_, fun node hnode => ?_,
    fun node hnode => ⟨subtree_eq hfirst'.ranked node, ?_,
      Ctree.descendants_iff hfirst' hnode⟩⟩
  · show a'.parent node = some (some p) ↔ node ∈ a'.kids p
    rw [hkids]
    rcases hwire node with ⟨hnot, heq⟩ | ⟨q, hq, heq⟩
    · rw [heq]
      constructor
      · intro hparent
        by_cases hnode : node ∈ b.nodes
        · rw [h.parent_of_mem hnode] at hparent
          cases hparent
        · rw [parent_of_not_mem hnode] at hparent
          cases hparent
      · exact fun hkid => absurd (mem_links_iff.mpr ⟨p, hkid⟩) hnot
    · rw [heq]
      constructor
      · intro hparent
        cases hparent
        exact hq
      · intro hkid
        rw [eq_of_mem_kids hlinks hkid hq]
  · show a'.parent node = some none ↔ node = .statement root
    have hnode' : node ∈ b.nodes := hnodes ▸ hnode
    rcases hwire node with ⟨hnot, heq⟩ | ⟨q, hq, heq⟩
    · rw [heq, h.parent_of_mem hnode', eq_self, true_iff]
      by_contra hne
      exact hnot (hlink node hnode' hne)
    · rw [heq]
      constructor
      · intro hparent
        cases hparent
      · rintro rfl
        exact absurd (mem_links_iff.mpr ⟨q, hq⟩) hrootless
  · show (a'.subtree node).Nodup
    rw [subtree_congr hwired.unlinked]
    exact hnodup node

theorem CtreeBuilder.finish_of_once_sumThenReturn :
    ∃ t, sumThenReturn.finish true 2 = some t ∧ t.root = 2 ∧
      t.unlinked = sumThenReturn.unlinked ∧
      (∀ node p, t.parent node = some (some p) ↔ node ∈ t.kids p) ∧
      (∀ node ∈ t.nodes, t.parent node = some none ↔ node = .statement 2) ∧
      ∀ node ∈ t.nodes, t.subtree node = node :: (t.kids node).flatMap t.subtree ∧
        (t.subtree node).Nodup ∧ ∀ l, t.Descendants node l ↔ l = t.subtree node :=
  finish_of_once built_sumThenReturn (by decide) (by decide) true

end Idakit.Decompiler
