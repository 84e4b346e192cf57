import Idakit.Library.Traversal
import Idakit.Types.Builder
import Idakit.Decompiler.Ctree.Node

/-!
The tree of a decompiled function and the builder that assembles it. Nodes
are allocated children first into two arenas; finishing links every node to
its parent by one walk from the root, and checks the number of nodes that the
walk visits.

`none` stands for a panic: a handle past its arena, or a check that fails.
Debug assertions are a parameter.
-/

namespace Idakit.Decompiler

open Idakit.Types

structure Arenas where
  expressions : List ExpressionNode
  statements : List StatementNode

namespace Arenas

def total (a : Arenas) : ℕ := a.expressions.length + a.statements.length

def children (a : Arenas) : NodeRef → Option (List NodeRef)
  | .expression id => a.expressions[id]?.map fun node => node.kind.children.map .expression
  | .statement id => a.statements[id]?.map fun node => node.kind.children

def parent (a : Arenas) : NodeRef → Option (Option NodeRef)
  | .expression id => a.expressions[id]?.map ExpressionNode.parent
  | .statement id => a.statements[id]?.map StatementNode.parent

/-- Link a node to its parent; a handle past its arena panics. -/
def setParent (a : Arenas) (node : NodeRef) : NodeRef → Option Arenas
  | .expression id =>
      a.expressions[id]?.map fun child =>
        { a with expressions := a.expressions.set id { child with parent := some node } }
  | .statement id =>
      a.statements[id]?.map fun child =>
        { a with statements := a.statements.set id { child with parent := some node } }

def setParents (a : Arenas) (node : NodeRef) : List NodeRef → Option Arenas
  | [] => some a
  | child :: kids => do
      let a ← a.setParent node child
      a.setParents node kids

end Arenas

structure Ctree extends Arenas where
  types : TypeTable
  locals : List Local
  root : StatementId

structure CtreeBuilder extends Arenas where
  types : TypeBuilder
  locals : List Local

namespace CtreeBuilder

def new : CtreeBuilder := ⟨⟨[], []⟩, .new, []⟩

def expression (b : CtreeBuilder) (ty : TypeId) (kind : ExpressionKind ExpressionId)
    (address : Option Address) : ExpressionId × CtreeBuilder :=
  (b.expressions.length, { b with expressions := b.expressions ++ [⟨address, ty, none, kind⟩] })

def statement (b : CtreeBuilder) (kind : StatementKind ExpressionId StatementId)
    (address : Option Address) : StatementId × CtreeBuilder :=
  (b.statements.length, { b with statements := b.statements ++ [⟨address, none, kind⟩] })

def pushLocal (b : CtreeBuilder) (v : Local) : LocalId × CtreeBuilder :=
  (b.locals.length, { b with locals := b.locals ++ [v] })

/-- The walk that links parents. The nodes it may still visit bound it: a
visit past the number of nodes panics. The stack's top is in front, so the
last child is visited first. -/
def link : ℕ → List NodeRef → Arenas → Option (ℕ × Arenas)
  | left, [], a => some (left, a)
  | 0, _ :: _, _ => none
  | left + 1, node :: stack, a => do
      let kids ← a.children node
      let a ← a.setParents node kids
      link left (kids.reverse ++ stack) a

/-- Finish the tree rooted at a statement. With debug assertions, every node
must have been visited. -/
def finish (b : CtreeBuilder) (debugAssertions : Bool) (root : StatementId) : Option Ctree := do
  let (left, arenas) ← link b.total [.statement root] b.toArenas
  if debugAssertions && left != 0 then none
  else some { arenas with types := b.types.table, locals := b.locals, root }

end CtreeBuilder

namespace Ctree

/-- One step of the pre-order walk: the node on top of the stack, its
children put in its place with the first one on top. -/
def next (t : Ctree) : List NodeRef → Option (Option (NodeRef × List NodeRef))
  | [] => some none
  | node :: stack => (t.children node).map fun kids => some (node, kids ++ stack)

inductive Yields (t : Ctree) : List NodeRef → List NodeRef → Prop
  | done {stack} (h : t.next stack = some none) : Yields t stack []
  | more {stack node stack' l} (h : t.next stack = some (some (node, stack')))
      (hrest : Yields t stack' l) : Yields t stack (node :: l)

def Descendants (t : Ctree) (node : NodeRef) (l : List NodeRef) : Prop := t.Yields [node] l

end Ctree

end Idakit.Decompiler
