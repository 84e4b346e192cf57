import Idakit.Decompiler.Ctree.Node

/-!
The control flow of a rendered body, read back. A statement is rendered to
tokens, and the tokens are read by the statement grammar of C, with `try` and
`catch` added to it: an `else` belongs to the nearest `if` that has none, and
a `catch` to the nearest `try`.

An expression is one token here, or no token at all when it renders to
nothing. Indentation and line ends separate tokens and are left out.
-/

namespace Idakit.Decompiler

inductive StatementTree (ε : Type)
  | node (kind : StatementKind ε (StatementTree ε))

inductive StatementToken (ε : Type)
  | leftBrace | rightBrace | leftParen | rightParen | semicolon | colon
  | if_ | else_ | for_ | while_ | do_ | switch | case_ | default_ | break_ | continue_
  | return_ | goto | asm | try_ | catch_ | throw
  | expression (e : ε)
  | number (v : UInt64)
  /-- The identifier `LABEL_n`. -/
  | label (n : { n : Int32 // 0 ≤ n })
  /-- What a negative label renders to: the identifier `LABEL_` and a minus. -/
  | labelMinus
  deriving DecidableEq

variable {ε : Type}

/-! ### Rendering -/

section Render

-- Which expressions render to nothing.
variable (blank : ε → Bool)

def renderExpression (e : ε) : List (StatementToken ε) :=
  if blank e then [] else [.expression e]

def renderOptional (e : Option ε) : List (StatementToken ε) :=
  e.toList.flatMap (renderExpression blank)

def renderLabel (label : Int32) : List (StatementToken ε) :=
  if h : 0 ≤ label then [.label ⟨label, h⟩] else [.labelMinus, .number label.toInt.natAbs.toUInt64]

/-- A case without values is the default. -/
def renderValues (values : List UInt64) : List (StatementToken ε) :=
  if values.isEmpty then [.default_, .colon]
  else values.flatMap fun v => [.case_, .number v, .colon]

mutual

def StatementTree.render : StatementTree ε → List (StatementToken ε)
  | .node (.block statements) => .leftBrace :: renderStatements statements ++ [.rightBrace]
  | .node (.expression e) => renderExpression blank e ++ [.semicolon]
  | .node (.if_ cond then_ none) =>
      .if_ :: .leftParen :: renderExpression blank cond ++ .rightParen :: then_.render
  | .node (.if_ cond then_ (some else_)) =>
      .if_ :: .leftParen :: renderExpression blank cond ++ .rightParen :: then_.render ++
        .else_ :: else_.render
  | .node (.for_ init cond step body) =>
      .for_ :: .leftParen :: renderOptional blank init ++ .semicolon ::
        renderOptional blank cond ++ .semicolon :: renderOptional blank step ++
        .rightParen :: body.render
  | .node (.while_ cond body) =>
      .while_ :: .leftParen :: renderExpression blank cond ++ .rightParen :: body.render
  | .node (.do_ body cond) =>
      .do_ :: body.render ++ .while_ :: .leftParen :: renderExpression blank cond ++
        [.rightParen, .semicolon]
  | .node (.switch e cases) =>
      .switch :: .leftParen :: renderExpression blank e ++ .rightParen :: .leftBrace ::
        renderCases cases ++ [.rightBrace]
  | .node .break_ => [.break_, .semicolon]
  | .node .continue_ => [.continue_, .semicolon]
  | .node (.return_ e) => .return_ :: renderOptional blank e ++ [.semicolon]
  | .node (.goto label) => .goto :: renderLabel label ++ [.semicolon]
  -- How many instructions there are is told in a comment.
  | .node (.asm _) => [.asm, .leftBrace, .rightBrace]
  | .node (.try_ body catches) => .try_ :: body.render ++ renderCatches catches
  | .node (.throw e) => .throw :: renderOptional blank e ++ [.semicolon]
  | .node .empty => [.semicolon]

def renderStatements : List (StatementTree ε) → List (StatementToken ε)
  | [] => []
  | s :: statements => s.render ++ renderStatements statements

def renderCases : List (Case (StatementTree ε)) → List (StatementToken ε)
  | [] => []
  | ⟨values, body⟩ :: cases => renderValues values ++ body.render ++ renderCases cases

def renderCatches : List (StatementTree ε) → List (StatementToken ε)
  | [] => []
  | s :: catches => .catch_ :: s.render ++ renderCatches catches

end

end Render

/-! ### Reading -/

def readOptional : List (StatementToken ε) → Option ε × List (StatementToken ε)
  | .expression e :: ts => (some e, ts)
  | ts => (none, ts)

def readHeader (ts : List (StatementToken ε)) :
    Option ((Option ε × Option ε × Option ε) × List (StatementToken ε)) :=
  match readOptional ts with
  | (init, .semicolon :: ts) =>
      match readOptional ts with
      | (cond, .semicolon :: ts) =>
          match readOptional ts with
          | (step, .rightParen :: ts) => some ((init, cond, step), ts)
          | _ => none
      | _ => none
  | _ => none

def readValues : List (StatementToken ε) → List UInt64 × List (StatementToken ε)
  | .case_ :: .number v :: .colon :: ts => ((v :: (readValues ts).1), (readValues ts).2)
  | ts => ([], ts)

mutual

def readStatement : ℕ → List (StatementToken ε) →
    Option (StatementTree ε × List (StatementToken ε))
  | 0, _ => none
  | n + 1, .leftBrace :: ts => do
      let (statements, ts) ← readStatements n ts
      some (.node (.block statements), ts)
  | _ + 1, .semicolon :: ts => some (.node .empty, ts)
  | _ + 1, .expression e :: .semicolon :: ts => some (.node (.expression e), ts)
  | n + 1, .if_ :: .leftParen :: .expression cond :: .rightParen :: ts => do
      let (then_, ts) ← readStatement n ts
      match ts with
      | .else_ :: ts => do
          let (else_, ts) ← readStatement n ts
          some (.node (.if_ cond then_ (some else_)), ts)
      | ts => some (.node (.if_ cond then_ none), ts)
  | n + 1, .for_ :: .leftParen :: ts => do
      let ((init, cond, step), ts) ← readHeader ts
      let (body, ts) ← readStatement n ts
      some (.node (.for_ init cond step body), ts)
  | n + 1, .while_ :: .leftParen :: .expression cond :: .rightParen :: ts => do
      let (body, ts) ← readStatement n ts
      some (.node (.while_ cond body), ts)
  | n + 1, .do_ :: ts => do
      let (body, ts) ← readStatement n ts
      match ts with
      | .while_ :: .leftParen :: .expression cond :: .rightParen :: .semicolon :: ts =>
          some (.node (.do_ body cond), ts)
      | _ => none
  | n + 1, .switch :: .leftParen :: .expression e :: .rightParen :: .leftBrace :: ts => do
      let (cases, ts) ← readCases n ts
      some (.node (.switch e cases), ts)
  | _ + 1, .break_ :: .semicolon :: ts => some (.node .break_, ts)
  | _ + 1, .continue_ :: .semicolon :: ts => some (.node .continue_, ts)
  | _ + 1, .return_ :: ts =>
      match readOptional ts with
      | (e, .semicolon :: ts) => some (.node (.return_ e), ts)
      | _ => none
  | _ + 1, .goto :: .label label :: .semicolon :: ts => some (.node (.goto label), ts)
  | _ + 1, .asm :: .leftBrace :: .rightBrace :: ts => some (.node (.asm []), ts)
  | n + 1, .try_ :: ts => do
      let (body, ts) ← readStatement n ts
      let (catches, ts) ← readCatches n ts
      some (.node (.try_ body catches), ts)
  | _ + 1, .throw :: ts =>
      match readOptional ts with
      | (e, .semicolon :: ts) => some (.node (.throw e), ts)
      | _ => none
  | _ + 1, _ => none

def readStatements : ℕ → List (StatementToken ε) →
    Option (List (StatementTree ε) × List (StatementToken ε))
  | 0, _ => none
  | _ + 1, .rightBrace :: ts => some ([], ts)
  | n + 1, ts => do
      let (s, ts) ← readStatement n ts
      let (statements, ts) ← readStatements n ts
      some (s :: statements, ts)

def readCases : ℕ → List (StatementToken ε) →
    Option (List (Case (StatementTree ε)) × List (StatementToken ε))
  | 0, _ => none
  | _ + 1, .rightBrace :: ts => some ([], ts)
  | n + 1, .default_ :: .colon :: ts => do
      let (body, ts) ← readStatement n ts
      let (cases, ts) ← readCases n ts
      some (⟨[], body⟩ :: cases, ts)
  | n + 1, ts =>
      match readValues ts with
      | ([], _) => none
      | (v :: values, ts) => do
          let (body, ts) ← readStatement n ts
          let (cases, ts) ← readCases n ts
          some (⟨v :: values, body⟩ :: cases, ts)

def readCatches : ℕ → List (StatementToken ε) →
    Option (List (StatementTree ε) × List (StatementToken ε))
  | 0, _ => none
  | n + 1, .catch_ :: ts => do
      let (s, ts) ← readStatement n ts
      let (catches, ts) ← readCatches n ts
      some (s :: catches, ts)
  | _ + 1, ts => some ([], ts)

end

/-- The statement that the whole text reads as. -/
def readBody (ts : List (StatementToken ε)) : Option (StatementTree ε) :=
  match readStatement (2 * ts.length) ts with
  | some (s, []) => some s
  | _ => none

/-! ### Skeletons -/

namespace StatementTree

def inside : StatementTree ε → List (StatementTree ε)
  | .node (.block statements) => statements
  | .node (.if_ _ then_ else_) => then_ :: else_.toList
  | .node (.for_ _ _ _ body) | .node (.while_ _ body) | .node (.do_ body _) => [body]
  | .node (.switch _ cases) => cases.map Case.body
  | .node (.try_ body catches) => body :: catches
  | .node (.expression _) | .node .break_ | .node .continue_ | .node (.return_ _)
  | .node (.goto _) | .node (.asm _) | .node (.throw _) | .node .empty => []

inductive Everywhere (p : StatementTree ε → Prop) : StatementTree ε → Prop
  | mk {s} (here : p s) (all : ∀ t ∈ s.inside, Everywhere p t) : Everywhere p s

variable (blank : ε → Bool)

mutual

/-- What a reader can know of a statement: not the addresses behind an `asm`,
and of an expression that renders to nothing only that none is there. -/
def skeleton : StatementTree ε → StatementTree ε
  | .node (.block statements) => .node (.block (skeletons statements))
  | .node (.expression e) => if blank e then .node .empty else .node (.expression e)
  | .node (.if_ cond then_ none) => .node (.if_ cond then_.skeleton none)
  | .node (.if_ cond then_ (some else_)) =>
      .node (.if_ cond then_.skeleton (some else_.skeleton))
  | .node (.for_ init cond step body) =>
      .node (.for_ (init.filter (!blank ·)) (cond.filter (!blank ·)) (step.filter (!blank ·))
        body.skeleton)
  | .node (.while_ cond body) => .node (.while_ cond body.skeleton)
  | .node (.do_ body cond) => .node (.do_ body.skeleton cond)
  | .node (.switch e cases) => .node (.switch e (caseSkeletons cases))
  | .node .break_ => .node .break_
  | .node .continue_ => .node .continue_
  | .node (.return_ e) => .node (.return_ (e.filter (!blank ·)))
  | .node (.goto label) => .node (.goto label)
  | .node (.asm _) => .node (.asm [])
  | .node (.try_ body catches) => .node (.try_ body.skeleton (skeletons catches))
  | .node (.throw e) => .node (.throw (e.filter (!blank ·)))
  | .node .empty => .node .empty

def skeletons : List (StatementTree ε) → List (StatementTree ε)
  | [] => []
  | s :: statements => s.skeleton :: skeletons statements

def caseSkeletons : List (Case (StatementTree ε)) → List (Case (StatementTree ε))
  | [] => []
  | ⟨values, body⟩ :: cases => ⟨values, body.skeleton⟩ :: caseSkeletons cases

end

/-! ### Open ends -/

/-- The statement whose last token is the last one of a statement, where the
two can go on alike. -/
def tail : StatementTree ε → Option (StatementTree ε)
  | .node (.if_ _ then_ none) => some then_
  | .node (.if_ _ _ (some else_)) => some else_
  | .node (.for_ _ _ _ body) | .node (.while_ _ body) => some body
  | .node (.try_ body catches) => some ((body :: catches).getLast (by simp))
  | .node (.block _) | .node (.expression _) | .node (.do_ _ _) | .node (.switch _ _)
  | .node .break_ | .node .continue_ | .node (.return_ _) | .node (.goto _) | .node (.asm _)
  | .node (.throw _) | .node .empty => none

inductive EndsIn (p : StatementTree ε → Prop) : StatementTree ε → Prop
  | here {s} (h : p s) : EndsIn p s
  | tail {s t} (h : s.tail = some t) (ht : EndsIn p t) : EndsIn p s

def IsBareIf : StatementTree ε → Prop
  | .node (.if_ _ _ none) => True
  | _ => False

def IsTry : StatementTree ε → Prop
  | .node (.try_ _ _) => True
  | _ => False

/-- An `else` behind this statement would belong to an `if` inside. -/
abbrev OpenIf : StatementTree ε → Prop := EndsIn IsBareIf

/-- A `catch` behind this statement would belong to a `try` inside. -/
abbrev OpenTry : StatementTree ε → Prop := EndsIn IsTry

/-- What the grammar needs of a statement, what is inside it apart. -/
def UnambiguousHere : StatementTree ε → Prop
  | .node (.if_ cond then_ else_) => blank cond = false ∧ (else_.isSome → ¬ then_.OpenIf)
  | .node (.while_ cond _) | .node (.do_ _ cond) | .node (.switch cond _) => blank cond = false
  | .node (.goto label) => 0 ≤ label
  | .node (.try_ body catches) => ∀ s ∈ (body :: catches).dropLast, ¬ s.OpenTry
  | .node (.block _) | .node (.expression _) | .node (.for_ _ _ _ _) | .node .break_
  | .node .continue_ | .node (.return_ _) | .node (.asm _) | .node (.throw _)
  | .node .empty => True

/-- No `else` and no `catch` stands where a statement before it takes it, no
condition renders to nothing and no label is negative. -/
def Unambiguous : StatementTree ε → Prop := Everywhere (UnambiguousHere blank)

end StatementTree

end Idakit.Decompiler
