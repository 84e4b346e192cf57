import Idakit.Library.StableSort
import Idakit.Library.Fuel
import Idakit.Types.Table
import Idakit.Types.Canonical.Model
import Idakit.Types.Canonical.Walk
import Idakit.Types.Canonical.Invariance
import Idakit.Library.FiniteGraph
import Idakit.Types.Canonical.Termination
import Idakit.Library.Delimited
import Idakit.Types.Canonical.Spelling
import Idakit.Types.Canonical.ReadBack
import Idakit.Types.Canonical.Form
import Idakit.Types.Interning
import Idakit.Library.Matching
import Idakit.Types.Canonical.Embed
import Idakit.Types.Canonical.Engine
import Idakit.Types.Canonical.Accessors
import Idakit.Types.Canonical.Reordering
import Idakit.Types.Canonical.Mirror
import Idakit.Types.Builder
import Idakit.Types.Resolved
import Idakit.Types.Aliases
import Idakit.Facade.TypeWalk
import Idakit.Facade.WalkCalls
import Idakit.Library.LittleEndian
import Idakit.Types.Expr
import Idakit.Facade.Recipe
import Idakit.Facade.RecipeBuild
import Idakit.Decompiler.Ctree.Node
import Idakit.Library.Traversal
import Idakit.Decompiler.Ctree.Tree
import Idakit.Decompiler.Ctree.Shape
import Idakit.Decompiler.Ctree.Extract
import Idakit.Decompiler.Ctree.Callbacks
import Idakit.Types.Edit
import Idakit.Facade.UdtEdit
import Idakit.Decompiler.Ctree.ControlFlow
import Idakit.Decompiler.Ctree.DanglingElse
import Idakit.Library.MaximalMunch
import Idakit.Library.CExpression.Tokens
import Idakit.Library.CExpression.Grammar
import Idakit.Decompiler.Ctree.ExpressionText
import Idakit.Decompiler.Ctree.Precedence
import Idakit.Decompiler.Ctree.Fusion
import Idakit.Library.Unfolding
import Idakit.Facade.Environment
import Idakit.Facade.WalkInvariant
import Idakit.Facade.WalkEnvironment
import Idakit.Facade.Placeholders
import Idakit.Facade.WalkFaithful
import Idakit.Library.DepthFirst
import Idakit.Facade.TypedefSizes
import Idakit.Library.Transition
import Idakit.Runner.Scheduler
import Idakit.Library.Utf8
import Idakit.Library.Reader
import Idakit.Runner.Protocol
import Idakit.Runner.Worker
import Idakit.Runner.Pool
import Idakit.Kernel.Claim
import Idakit.Kernel.Pump
import Idakit.Kernel.CallsServed
import Idakit.Decompiler.Invalidation
import Idakit.Library.Descriptors
import Idakit.Library.Whitespace
import Idakit.Facade.Guarded
import Idakit.Kernel.Lifecycle
import Idakit.Library.KeyedMap
import Idakit.Netnode.Hash
import Idakit.Library.Iterator
import Idakit.Search.Pattern
import Idakit.Search.Matches
import Idakit.Library.Outcome
import Idakit.Facade.Instruction
import Idakit.Instructions.Decode
import Idakit.Instructions.Registers
import Idakit.Instructions.Operands
import Idakit.Flowchart.Extract
import Idakit.Flowchart.Faithful
import Idakit.Types.Canonical.RootSize
import Idakit.Types.Canonical.OrderFree
import Idakit.Types.Canonical.Unpaired
import Idakit.Types.Canonical.Renames
import Idakit.Types.TableHistory
import Idakit.Library.Imperative
import Idakit.Facade.RecipeMachine
import Idakit.Facade.MemberWrites
import Idakit.Library.Overflow
import Idakit.Decompiler.Ctree.Query
import Idakit.Runner.Affinity
import Idakit.Runner.Choice
import Idakit.Library.SortedMap
import Idakit.Types.Canonical.Catalog
import Idakit.Netnode.HashEntries
import Idakit.Facade.FuncSig
import Idakit.Library.Tiling
import Idakit.Instructions.Walk
import Idakit.Facade.PatchBytes
import Idakit.Library.Aarch64
import Idakit.Kernel.GMain
import Idakit.Kernel.GMainSound
import Idakit.Decompiler.Ctree.Emission
import Idakit.Facade.CtreeWalk
import Idakit.Facade.CtreeShown
import Idakit.Facade.CtreeExpressions
import Idakit.Facade.CtreeStatements
import Idakit.Facade.CtreeFaithful
import Idakit.Facade.CtreeRejection
import Idakit.Runner.CutLine
import Idakit.Runner.Session
import Idakit.Runner.SessionSteps
import Idakit.Runner.SessionSound
import Idakit.Facade.RecipeRefines
import Idakit.Facade.RecipeMeaning
import Idakit.Library.LastWrite
import Idakit.Facade.TypeApply
import Idakit.Facade.TypeReadBack
