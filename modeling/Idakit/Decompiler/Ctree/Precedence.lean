import Idakit.Decompiler.Ctree.ExpressionText

/-!
The parentheses of a rendered expression are enough: its tokens, read by the
precedence and associativity of the C operators, are the expression again.

Each level of the grammar has its own statement. An operand is followed by
whatever the reader makes of it: if the climbing from the operand on ends in a
result, so does reading the tokens.
-/

namespace Idakit.Decompiler

open Idakit.Types Idakit.Library Idakit.Library.CExpression

namespace ExpressionTree

variable {names : Spelling}

theorem Everywhere.here {p : ExpressionTree → Prop} {e : ExpressionTree}
    (h : e.Everywhere p) : p e := by
  cases h with
  | mk here all => exact here

theorem Everywhere.all {p : ExpressionTree → Prop} {e : ExpressionTree}
    (h : e.Everywhere p) : ∀ c ∈ e.children, c.Everywhere p := by
  cases h with
  | mk here all => exact all

theorem childrenInduct {motive : ExpressionTree → Prop}
    (step : ∀ e, (∀ c ∈ e.children, motive c) → motive e) (e : ExpressionTree) : motive e := by
  have none_ : ∀ c ∈ ([] : List ExpressionTree), motive c := by simp
  have more {x : ExpressionTree} {l : List ExpressionTree} (hx : motive x)
      (hl : ∀ c ∈ l, motive c) : ∀ c ∈ x :: l, motive c := by
    simpa using And.intro hx hl
  exact @ExpressionTree.rec motive (fun kind => ∀ c ∈ kind.children, motive c)
    (fun l => ∀ c ∈ l, motive c) (fun _ _ h => step _ h)
    (fun _ _ _ hx hy => more hx (more hy none_)) (fun _ _ _ hx hy => more hx (more hy none_))
    (fun _ _ hx => more hx none_)
    (fun _ _ _ hc ht he => more hc (more ht (more he none_))) (fun _ _ hc hl => more hc hl)
    (fun _ _ ha hi => more ha (more hi none_)) (fun _ _ hx => more hx none_)
    (fun _ _ hx => more hx none_) (fun _ hx => more hx none_) (fun _ _ hx => more hx none_)
    (fun _ hx => more hx none_) (fun _ => none_) (fun _ => none_) (fun _ => none_)
    (fun _ _ => none_) (fun _ => none_) (fun _ => none_) none_ none_ none_ none_
    (fun _ _ hx hl => more hx hl) e

/-! ### Operands -/

/-- The precedence that the right end of an expression asks for. -/
def rightPrec : ExpressionTree → Prec
  | .node _ (.binary op _ _) => (binPrec op).tighter
  | .node _ (.assign _ _ _) => .assign
  | .node _ (.ternary _ _ _) => .ternary
  | _ => .unary

def Begins (t : Token) : Prop := t ≠ .glyph .rightParen ∧ ∀ s, t ≠ .word (.type s)

def operand (names : Spelling) (min : Prec) (e : ExpressionTree) : List Token :=
  tokens (parenthesize min e.prec (e.inner names))

/-- The tokens of an expression are read as the expression, on each level of
the grammar that it belongs to. Every token costs at most four units of fuel. -/
structure Reads (names : Spelling) (e : ExpressionTree) : Prop where
  head : ∃ t ts, tokens (e.inner names) = t :: ts ∧ Begins t
  expr : ∀ {p} (rest) (k) {res}, p ≤ e.prec → NoPost rest → Below e.rightPrec rest →
    (∀ m ≥ k, climb m p (e.erase names) rest = some res) →
    ∀ n ≥ k + 4 * (tokens (e.inner names)).length + 2,
      readExpr n p (tokens (e.inner names) ++ rest) = some res
  unary : ∀ {rest}, Prec.unary ≤ e.prec → NoPost rest →
    ∀ n ≥ 4 * (tokens (e.inner names)).length + 1,
      readUnary n (tokens (e.inner names) ++ rest) = some (e.erase names, rest)
  post : ∀ {rest k res}, Prec.post ≤ e.prec →
    (∀ m ≥ k, readPost m (e.erase names) rest = some res) →
    ∀ n ≥ k + 4 * (tokens (e.inner names)).length,
      readUnary n (tokens (e.inner names) ++ rest) = some res

theorem operand_of_le {min : Prec} {e : ExpressionTree} (h : min ≤ e.prec) :
    operand names min e = tokens (e.inner names) := by
  rw [operand, parenthesize, if_neg (Nat.not_lt.mpr h)]

theorem operand_of_lt {min : Prec} {e : ExpressionTree} (h : e.prec < min) :
    operand names min e =
      .glyph .leftParen :: (tokens (e.inner names) ++ [.glyph .rightParen]) := by
  rw [operand, parenthesize, if_pos h, tokens_append]
  rfl

theorem Reads.operand_head {e : ExpressionTree} (h : Reads names e) (min : Prec) :
    ∃ t ts, operand names min e = t :: ts ∧ Begins t := by
  by_cases hmin : e.prec < min
  · exact ⟨_, _, operand_of_lt hmin, by simp [Begins]⟩
  · rw [operand_of_le (Nat.not_lt.mp hmin)]
    exact h.head

theorem climb_stops {p : ℕ} {rest : List Token} (h : Below p rest) {x : CTree} :
    ∀ m ≥ 1, climb m p x rest = some (x, rest) := by
  intro m hm
  obtain ⟨m, rfl⟩ : ∃ l, m = l + 1 := ⟨m - 1, by omega⟩
  exact climb_of_below h m x

theorem readPost_stops {rest : List Token} (h : NoPost rest) {x : CTree} :
    ∀ m ≥ 1, readPost m x rest = some (x, rest) := by
  intro m hm
  obtain ⟨m, rfl⟩ : ∃ l, m = l + 1 := ⟨m - 1, by omega⟩
  exact readPost_of_noPost h m x

/-- An expression in parentheses is read by its own tokens. -/
theorem Reads.paren {e : ExpressionTree} (h : Reads names e) {rest : List Token} {k : ℕ}
    {res : CTree × List Token} (hpost : ∀ m ≥ k, readPost m (e.erase names) rest = some res)
    (n : ℕ) (hn : n ≥ k + 4 * (tokens (e.inner names)).length + 8) :
    readUnary n (.glyph .leftParen :: (tokens (e.inner names) ++ [.glyph .rightParen]) ++ rest) =
      some res := by
  obtain ⟨n, rfl⟩ : ∃ m, n = m + 1 := ⟨n - 1, by omega⟩
  obtain ⟨t, ts, hts, -, htype⟩ := h.head
  have hbelow (p : ℕ) : Below p (.glyph .rightParen :: rest) := below_of_no_level rfl p rest
  have hread := h.expr (.glyph .rightParen :: rest) 1 (Nat.zero_le _) rfl (hbelow _)
    (climb_stops (hbelow 0)) n (by omega)
  rw [List.cons_append, List.append_assoc, List.singleton_append, readUnary]
  · simp only [hread, Option.bind_eq_bind, Option.bind_some]
    exact hpost n (by omega)
  · intro s ts' h
    rw [hts] at h
    exact htype s (List.cons.inj h).1

theorem Reads.operand_post {e : ExpressionTree} (h : Reads names e) {rest : List Token} {k : ℕ}
    {res : CTree × List Token} (hpost : ∀ m ≥ k, readPost m (e.erase names) rest = some res)
    (n : ℕ) (hn : n ≥ k + 4 * (operand names .post e).length) :
    readUnary n (operand names .post e ++ rest) = some res := by
  by_cases hmin : e.prec < .post
  · rw [operand_of_lt hmin] at hn ⊢
    refine h.paren hpost n ?_
    simp only [List.length_cons, List.length_append, List.length_nil] at hn
    omega
  · rw [operand_of_le (Nat.not_lt.mp hmin)] at hn ⊢
    exact h.post (Nat.not_lt.mp hmin) hpost n hn

theorem Reads.operand_unary {e : ExpressionTree} (h : Reads names e) {rest : List Token}
    (hrest : NoPost rest) (n : ℕ) (hn : n ≥ 4 * (operand names .unary e).length + 1) :
    readUnary n (operand names .unary e ++ rest) = some (e.erase names, rest) := by
  by_cases hmin : e.prec < .unary
  · rw [operand_of_lt hmin] at hn ⊢
    refine h.paren (readPost_stops hrest) n ?_
    simp only [List.length_cons, List.length_append, List.length_nil] at hn
    omega
  · rw [operand_of_le (Nat.not_lt.mp hmin)] at hn ⊢
    exact h.unary (Nat.not_lt.mp hmin) hrest n hn

theorem Reads.operand_expr {e : ExpressionTree} (h : Reads names e) {p min : Prec}
    (hp : p ≤ min) (rest : List Token) (k : ℕ) {res : CTree × List Token} (hrest : NoPost rest)
    (hbelow : min ≤ e.prec → Below e.rightPrec rest)
    (hclimb : ∀ m ≥ k, climb m p (e.erase names) rest = some res)
    (n : ℕ) (hn : n ≥ k + 4 * (operand names min e).length + 2) :
    readExpr n p (operand names min e ++ rest) = some res := by
  by_cases hmin : e.prec < min
  · rw [operand_of_lt hmin] at hn ⊢
    simp only [List.length_cons, List.length_append, List.length_nil] at hn
    obtain ⟨n, rfl⟩ : ∃ m, n = m + 1 := ⟨n - 1, by omega⟩
    rw [readExpr, h.paren (readPost_stops hrest) n (by omega)]
    exact hclimb n (by omega)
  · rw [operand_of_le (Nat.not_lt.mp hmin)] at hn ⊢
    have hmin := Nat.not_lt.mp hmin
    exact h.expr rest k (hp.trans hmin) hrest (hbelow hmin) hclimb n hn

/-! ### From one level to the looser ones -/

/-- What is read as an operand of an operator in front is read as an expression. -/
theorem expr_of_unary {e : ExpressionTree}
    (h : ∀ {rest}, NoPost rest → ∀ n ≥ 4 * (tokens (e.inner names)).length + 1,
      readUnary n (tokens (e.inner names) ++ rest) = some (e.erase names, rest))
    {p : ℕ} (rest : List Token) (k : ℕ) {res : CTree × List Token} (hrest : NoPost rest)
    (hclimb : ∀ m ≥ k, climb m p (e.erase names) rest = some res)
    (n : ℕ) (hn : n ≥ k + 4 * (tokens (e.inner names)).length + 2) :
    readExpr n p (tokens (e.inner names) ++ rest) = some res := by
  obtain ⟨n, rfl⟩ : ∃ m, n = m + 1 := ⟨n - 1, by omega⟩
  rw [readExpr, h hrest n (by omega)]
  exact hclimb n (by omega)

theorem Reads.of_unary {e : ExpressionTree} (hprec : e.prec = .unary)
    (head : ∃ t ts, tokens (e.inner names) = t :: ts ∧ Begins t)
    (h : ∀ {rest}, NoPost rest → ∀ n ≥ 4 * (tokens (e.inner names)).length + 1,
      readUnary n (tokens (e.inner names) ++ rest) = some (e.erase names, rest)) :
    Reads names e where
  head := head
  expr := fun rest k _ _ hrest _ hclimb => expr_of_unary h rest k hrest hclimb
  unary := fun _ => h
  post := fun hpost => absurd (hprec ▸ hpost) (by decide : ¬ Prec.post ≤ Prec.unary)

theorem Reads.of_post {e : ExpressionTree}
    (head : ∃ t ts, tokens (e.inner names) = t :: ts ∧ Begins t)
    (h : ∀ {rest k res}, (∀ m ≥ k, readPost m (e.erase names) rest = some res) →
      ∀ n ≥ k + 4 * (tokens (e.inner names)).length,
        readUnary n (tokens (e.inner names) ++ rest) = some res) :
    Reads names e where
  head := head
  expr := fun rest k _ _ hrest _ hclimb =>
    expr_of_unary (fun hrest n hn => h (readPost_stops hrest) n (by omega)) rest k hrest hclimb
  unary := fun _ hrest n hn => h (readPost_stops hrest) n (by omega)
  post := fun _ => h

theorem Reads.of_expr {e : ExpressionTree} (hprec : e.prec < .unary)
    (head : ∃ t ts, tokens (e.inner names) = t :: ts ∧ Begins t)
    (h : ∀ {p} (rest) (k) {res}, p ≤ e.prec → NoPost rest → Below e.rightPrec rest →
      (∀ m ≥ k, climb m p (e.erase names) rest = some res) →
      ∀ n ≥ k + 4 * (tokens (e.inner names)).length + 2,
        readExpr n p (tokens (e.inner names) ++ rest) = some res) :
    Reads names e where
  head := head
  expr := h
  unary := fun hunary => absurd hprec (Nat.not_lt.mpr hunary)
  post := fun hpost => absurd hprec (Nat.not_lt.mpr ((Nat.le_succ Prec.unary).trans hpost))

/-- A leaf is one token. -/
theorem Reads.of_leaf {e : ExpressionTree} {t : Token} (htokens : tokens (e.inner names) = [t])
    (hbegins : Begins t)
    (h : ∀ n ts, readUnary (n + 1) (t :: ts) = readPost n (e.erase names) ts) :
    Reads names e := by
  refine .of_post ⟨t, [], htokens, hbegins⟩ fun {rest k res} hpost n hn => ?_
  rw [htokens, List.length_singleton] at hn
  obtain ⟨n, rfl⟩ : ∃ m, n = m + 1 := ⟨n - 1, by omega⟩
  rw [htokens, List.singleton_append, h, hpost n (by omega)]

/-! ### Operators -/

/-- What stops the reading of an operand stops the reading of its right end. -/
theorem below_rightPrec {e : ExpressionTree} {q : Prec} {ts : List Token} (h : Below q ts)
    (hq : q ≤ e.prec) : Below e.rightPrec ts := by
  obtain ⟨ty, kind⟩ := e
  cases kind with
  | binary op x y => exact h.mono (hq.trans (Nat.le_succ _))
  | assign op x y => exact h.mono hq
  | ternary c t e => exact h.mono hq
  | _ => exact below_unary ts

/-- An operand on the left of an operator ends before it. Only assignments
and conditionals group to the right, and those ask for more on their left. -/
theorem below_operator {e : ExpressionTree} {g : Glyph} {l q : ℕ} {ts : List Token}
    (hg : g.level = some l) (hl : l ≤ q) (hright : l = q → q ≠ Prec.assign ∧ q ≠ Prec.ternary)
    (hq : q ≤ e.prec) : Below e.rightPrec (.glyph g :: ts) := by
  obtain ⟨ty, kind⟩ := e
  cases kind with
  | binary op x y => exact below_of_level hg (Nat.lt_succ_of_le (hl.trans hq)) ts
  | assign op x y =>
      simp only [prec, Prec.assign] at hq hright
      exact below_of_level hg (show l < 2 by omega) ts
  | ternary c t e =>
      simp only [prec, Prec.ternary] at hq hright
      exact below_of_level hg (show l < 3 by omega) ts
  | _ => exact below_unary _

theorem operator_symbol (op : BinaryOp) : op.symbol.level = some (binPrec op) ∧
    op.symbol.operator = some (binPrec op, (binPrec op).tighter) := by
  cases op <;> exact ⟨rfl, rfl⟩

theorem operator_assign_symbol (op : AssignmentOp) : op.symbol.level = some Prec.assign ∧
    op.symbol.operator = some (Prec.assign, Prec.assign) := by
  cases op <;> exact ⟨rfl, rfl⟩

theorem noPost_of_operator {g : Glyph} {o : ℕ × ℕ} (hg : g.operator = some o) (ts : List Token) :
    NoPost (.glyph g :: ts) := by
  cases g <;> first | rfl | cases hg

/-- One turn of the climbing: an operator and the operand on its right. -/
theorem climb_operator {g : Glyph} {l r : ℕ} (hg : g.operator = some (l, r))
    {x : CTree} {y : ExpressionTree} (hy : Reads names y) {p : ℕ} (hp : p ≤ l)
    {rest : List Token} (hrest : NoPost rest) (hbelow : Below r rest) {k : ℕ}
    {res : CTree × List Token}
    (hclimb : ∀ m ≥ k, climb m p (.binary g x (y.erase names)) rest = some res) :
    ∀ m ≥ k + 4 * (operand names r y).length + 4,
      climb m p x (.glyph g :: (operand names r y ++ rest)) = some res := by
  intro m hm
  obtain ⟨m, rfl⟩ : ∃ l, m = l + 1 := ⟨m - 1, by omega⟩
  have hread := hy.operand_expr le_rfl rest 1 hrest (below_rightPrec hbelow)
    (climb_stops hbelow) m (by omega)
  have hquestion : g ≠ .question := by
    rintro rfl
    cases hg
  rw [climb]
  · simp only [hg, hread, hp, if_true, Option.bind_eq_bind, Option.bind_some]
    exact hclimb m (by omega)
  · exact fun h => hquestion h

/-- One turn of the climbing: a conditional. -/
theorem climb_ternary {x : CTree} {t e : ExpressionTree} (ht : Reads names t)
    (he : Reads names e) {p : ℕ} (hp : p ≤ Prec.ternary) {rest : List Token}
    (hrest : NoPost rest) (hbelow : Below Prec.ternary rest) {k : ℕ} {res : CTree × List Token}
    (hclimb : ∀ m ≥ k, climb m p (.ternary x (t.erase names) (e.erase names)) rest = some res) :
    ∀ m ≥ k + 4 * ((operand names .any t).length + (operand names .ternary e).length) + 4,
      climb m p x (.glyph .question :: (operand names .any t ++
        .glyph .colon :: (operand names .ternary e ++ rest))) = some res := by
  intro m hm
  obtain ⟨m, rfl⟩ : ∃ l, m = l + 1 := ⟨m - 1, by omega⟩
  have hcolon {p : ℕ} : Below p (.glyph .colon :: (operand names .ternary e ++ rest)) :=
    below_of_no_level rfl p _
  have hthen := ht.operand_expr (le_refl Prec.any)
    (.glyph .colon :: (operand names .ternary e ++ rest)) 1 rfl
    (fun _ => hcolon) (climb_stops hcolon) m (by omega)
  have helse := he.operand_expr le_rfl rest 1 hrest (below_rightPrec hbelow)
    (climb_stops hbelow) m (by omega)
  rw [climb, if_pos hp, hthen]
  simp only [Option.bind_eq_bind, Option.bind_some, helse]
  exact hclimb m (by omega)

/-! ### One level of an expression -/

theorem operand_append_head {e : ExpressionTree} (h : Reads names e) (min : Prec)
    (l : List Token) : ∃ t ts, operand names min e ++ l = t :: ts ∧ Begins t := by
  obtain ⟨t, ts, hts, hbegins⟩ := h.operand_head min
  exact ⟨t, ts ++ l, by rw [hts, List.cons_append], hbegins⟩

theorem tokens_binary (ty : TypeId) (op : BinaryOp) (x y : ExpressionTree) :
    tokens (inner names (.node ty (.binary op x y))) =
      operand names (binPrec op) x ++
        .glyph op.symbol :: operand names (binPrec op).tighter y := by
  rw [inner]
  split
  · next h =>
      subst h
      simp only [tokens_append, operand]
      rw [List.append_assoc]
      rfl
  · simp [tokens_append, operand, spaced, tokens]

theorem binPrec_lt_unary (op : BinaryOp) : binPrec op < Prec.unary := by
  cases op <;> decide

theorem reads_binary (ty : TypeId) (op : BinaryOp) {x y : ExpressionTree} (hx : Reads names x)
    (hy : Reads names y) : Reads names (.node ty (.binary op x y)) := by
  obtain ⟨hlevel, hop⟩ := operator_symbol op
  have htokens := @tokens_binary names ty op x y
  refine .of_expr (binPrec_lt_unary op) ?_ fun {p} rest k res hp hrest hbelow hclimb n hn => ?_
  · rw [htokens]
    exact operand_append_head hx _ _
  · rw [htokens] at hn ⊢
    rw [List.append_assoc, List.cons_append]
    simp only [List.length_append, List.length_cons] at hn
    have hright : binPrec op ≠ Prec.assign ∧ binPrec op ≠ Prec.ternary := by
      cases op <;> decide
    exact hx.operand_expr (show p ≤ binPrec op from hp) _ _ (noPost_of_operator hop _)
      (below_operator hlevel le_rfl fun _ => hright)
      (climb_operator hop hy hp hrest hbelow hclimb) n (by omega)

theorem reads_assign (ty : TypeId) (op : AssignmentOp) {x y : ExpressionTree}
    (hx : Reads names x) (hy : Reads names y) : Reads names (.node ty (.assign op x y)) := by
  obtain ⟨hlevel, hop⟩ := operator_assign_symbol op
  have htokens : tokens (inner names (.node ty (.assign op x y))) =
      operand names Prec.assign.tighter x ++ .glyph op.symbol :: operand names Prec.assign y := by
    simp [inner, tokens_append, operand, spaced, tokens]
  refine .of_expr (show Prec.assign < Prec.unary by decide) ?_
    fun {p} rest k res hp hrest hbelow hclimb n hn => ?_
  · rw [htokens]
    exact operand_append_head hx _ _
  · rw [htokens] at hn ⊢
    rw [List.append_assoc, List.cons_append]
    simp only [List.length_append, List.length_cons] at hn
    have hp : p ≤ Prec.assign := hp
    have hleft : p ≤ Prec.assign.tighter := hp.trans (Nat.le_succ _)
    exact hx.operand_expr hleft _ _ (noPost_of_operator hop _)
      (below_operator hlevel (Nat.le_succ _) (by decide))
      (climb_operator hop hy hp hrest hbelow hclimb) n (by omega)

theorem reads_ternary (ty : TypeId) {c t e : ExpressionTree} (hc : Reads names c)
    (ht : Reads names t) (he : Reads names e) : Reads names (.node ty (.ternary c t e)) := by
  have htokens : tokens (inner names (.node ty (.ternary c t e))) =
      operand names Prec.ternary.tighter c ++ .glyph .question :: (operand names .any t ++
        .glyph .colon :: operand names .ternary e) := by
    simp [inner, tokens_append, operand, spaced, tokens]
  refine .of_expr (show Prec.ternary < Prec.unary by decide) ?_
    fun {p} rest k res hp hrest hbelow hclimb n hn => ?_
  · rw [htokens]
    exact operand_append_head hc _ _
  · rw [htokens] at hn ⊢
    simp only [List.length_append, List.length_cons] at hn
    rw [List.append_assoc, List.cons_append, List.append_assoc, List.cons_append]
    have hp : p ≤ Prec.ternary := hp
    have hlevel : Glyph.question.level = some Prec.ternary := rfl
    have hleft : p ≤ Prec.ternary.tighter := hp.trans (Nat.le_succ _)
    exact hc.operand_expr hleft (.glyph .question :: _) _ rfl
      (below_operator hlevel (Nat.le_succ _) (by decide))
      (climb_ternary ht he hp hrest hbelow hclimb) n (by omega)

/-- An operator in front of its operand. -/
theorem reads_unary {e x : ExpressionTree} {g : Glyph} (hprec : e.prec = .unary)
    (hg : g.isUnary = true) (hx : Reads names x)
    (htokens : tokens (e.inner names) = .glyph g :: operand names .unary x)
    (herase : e.erase names = .unary g (x.erase names)) : Reads names e := by
  refine .of_unary hprec ⟨_, _, htokens, ?_, by simp⟩ fun {rest} hrest n hn => ?_
  · rintro h
    cases h
    cases hg
  · rw [htokens] at hn ⊢
    rw [List.length_cons] at hn
    obtain ⟨n, rfl⟩ : ∃ m, n = m + 1 := ⟨n - 1, by omega⟩
    have hread := hx.operand_unary hrest n (by omega)
    rw [List.cons_append, readUnary]
    · simp only [hg, if_true, hread, Option.bind_eq_bind, Option.bind_some, herase]
    all_goals
      intros
      subst_vars
      cases hg

theorem reads_cast (ty : TypeId) {x : ExpressionTree} (hx : Reads names x) :
    Reads names (.node ty (.cast x)) := by
  have htokens : tokens (inner names (.node ty (.cast x))) = .glyph .leftParen ::
      .word (.type (names.printType ty)) :: .glyph .rightParen :: operand names .unary x := by
    simp [inner, tokens, operand]
  refine .of_unary rfl ⟨_, _, htokens, by simp [Begins]⟩ fun {rest} hrest n hn => ?_
  rw [htokens] at hn ⊢
  simp only [List.length_cons] at hn
  obtain ⟨n, rfl⟩ : ∃ m, n = m + 1 := ⟨n - 1, by omega⟩
  have hread := hx.operand_unary hrest n (by omega)
  simp only [List.cons_append, readUnary, hread, Option.bind_eq_bind, Option.bind_some, erase]

theorem reads_sizeof (ty : TypeId) {x : ExpressionTree} (hx : Reads names x) :
    Reads names (.node ty (.sizeof x)) := by
  have htokens : tokens (inner names (.node ty (.sizeof x))) = .word .sizeof ::
      (.glyph .leftParen :: (tokens (x.inner names) ++ [.glyph .rightParen])) := by
    rw [← operand_of_le (Nat.zero_le x.prec)]
    simp [inner, tokens, tokens_append, operand]
  refine .of_unary rfl ⟨_, _, htokens, by simp [Begins]⟩ fun {rest} hrest n hn => ?_
  rw [htokens] at hn ⊢
  simp only [List.length_cons, List.length_append, List.length_nil] at hn
  obtain ⟨n, rfl⟩ : ∃ m, n = m + 1 := ⟨n - 1, by omega⟩
  have hread := hx.paren (readPost_stops hrest) n (by omega)
  rw [List.cons_append, readUnary, hread, erase]
  rfl

/-! ### Operators behind an operand -/

/-- An operator behind its operand, with all that belongs to it. -/
theorem reads_post {e x : ExpressionTree} {l : List Token} (hx : Reads names x)
    (htokens : tokens (e.inner names) = operand names .post x ++ l)
    (h : ∀ {rest k res}, (∀ m ≥ k, readPost m (e.erase names) rest = some res) →
      ∀ m ≥ k + 4 * l.length, readPost m (x.erase names) (l ++ rest) = some res) :
    Reads names e := by
  refine .of_post ?_ fun {rest k res} hpost n hn => ?_
  · rw [htokens]
    exact operand_append_head hx _ _
  · rw [htokens] at hn ⊢
    rw [List.length_append] at hn
    rw [List.append_assoc]
    exact hx.operand_post (h hpost) n (by omega)

/-- An operator behind its operand that is done with after a few tokens. -/
theorem reads_post_short {e x : ExpressionTree} {l : List Token} (hx : Reads names x)
    (htokens : tokens (e.inner names) = operand names .post x ++ l) (hl : l ≠ [])
    (h : ∀ n rest, readPost (n + 1) (x.erase names) (l ++ rest) =
      readPost n (e.erase names) rest) : Reads names e := by
  refine reads_post hx htokens fun {rest k res} hpost m hm => ?_
  have hpos := List.length_pos_iff.mpr hl
  obtain ⟨m, rfl⟩ : ∃ l, m = l + 1 := ⟨m - 1, by omega⟩
  rw [h]
  exact hpost m (by omega)

theorem reads_index (ty : TypeId) {x i : ExpressionTree} (hx : Reads names x)
    (hi : Reads names i) : Reads names (.node ty (.index x i)) := by
  have htokens : tokens (inner names (.node ty (.index x i))) = operand names .post x ++
      .glyph .leftBracket :: (operand names .any i ++ [.glyph .rightBracket]) := by
    simp [inner, tokens, tokens_append, operand]
  refine reads_post hx htokens fun {rest k res} hpost m hm => ?_
  simp only [List.length_cons, List.length_append, List.length_nil] at hm
  obtain ⟨m, rfl⟩ : ∃ l, m = l + 1 := ⟨m - 1, by omega⟩
  have hbelow {p : ℕ} : Below p (.glyph .rightBracket :: rest) :=
    below_of_no_level rfl p rest
  have hread := hi.operand_expr (le_refl Prec.any) (.glyph .rightBracket :: rest) 1 rfl
    (fun _ => hbelow) (climb_stops hbelow) m (by omega)
  rw [List.cons_append, List.append_assoc, List.singleton_append, readPost, hread]
  exact hpost m (by omega)

theorem readArgs_render {args : List ExpressionTree} (h : ∀ a ∈ args, Reads names a)
    (hne : args ≠ []) (rest : List Token) (n : ℕ)
    (hn : n ≥ 4 * (tokens (innerArgs names args)).length + 4) :
    readArgs n (tokens (innerArgs names args) ++ .glyph .rightParen :: rest) =
      some (eraseArgs names args, rest) := by
  induction args generalizing n with
  | nil => exact absurd rfl hne
  | cons a args ih =>
      obtain ⟨n, rfl⟩ : ∃ m, n = m + 1 := ⟨n - 1, by omega⟩
      have ha := h a (by simp)
      cases args with
      | nil =>
          have htokens : tokens (innerArgs names [a]) = operand names .assign a := rfl
          have hbelow {p : ℕ} : Below p (.glyph .rightParen :: rest) :=
            below_of_no_level rfl p rest
          rw [htokens] at hn ⊢
          have hread := ha.operand_expr (le_refl Prec.assign) (.glyph .rightParen :: rest) 1 rfl
            (fun _ => hbelow) (climb_stops hbelow) n (by omega)
          rw [readArgs, hread]
          rfl
      | cons b args =>
          have htokens : tokens (innerArgs names (a :: b :: args)) = operand names .assign a ++
              .glyph .comma :: tokens (innerArgs names (b :: args)) := by
            simp [innerArgs, tokens, tokens_append, operand, commaBlank]
          rw [htokens] at hn ⊢
          rw [List.append_assoc, List.cons_append]
          simp only [List.length_append, List.length_cons] at hn
          have hbelow (ts : List Token) : Below Prec.assign (.glyph .comma :: ts) :=
            below_of_level rfl (by decide) ts
          have hread := ha.operand_expr (le_refl Prec.assign)
            (.glyph .comma :: (tokens (innerArgs names (b :: args)) ++
              .glyph .rightParen :: rest)) 1 rfl
            (fun hle => below_rightPrec (hbelow _) hle) (climb_stops (hbelow _)) n (by omega)
          have hmore := ih (fun a ha => h a (List.mem_cons_of_mem _ ha)) (by simp) n (by omega)
          rw [readArgs, hread]
          simp only [Option.bind_eq_bind, Option.bind_some, hmore, eraseArgs]

theorem reads_call (ty : TypeId) {x : ExpressionTree} {args : List ExpressionTree}
    (hx : Reads names x) (hargs : ∀ a ∈ args, Reads names a) :
    Reads names (.node ty (.call x args)) := by
  have htokens : tokens (inner names (.node ty (.call x args))) = operand names .post x ++
      .glyph .leftParen :: (tokens (innerArgs names args) ++ [.glyph .rightParen]) := by
    simp [inner, tokens, tokens_append, operand]
  refine reads_post hx htokens fun {rest k res} hpost m hm => ?_
  simp only [List.length_cons, List.length_append, List.length_nil] at hm
  obtain ⟨m, rfl⟩ : ∃ l, m = l + 1 := ⟨m - 1, by omega⟩
  rw [List.cons_append, List.append_assoc, List.singleton_append]
  cases args with
  | nil => exact hpost m (by omega)
  | cons a args =>
      have hread := readArgs_render hargs (by simp) rest m (by omega)
      obtain ⟨t, ts, hts, hbegins, -⟩ : ∃ t ts, tokens (innerArgs names (a :: args)) = t :: ts ∧
          Begins t := by
        have ha := hargs a (by simp)
        cases args with
        | nil => exact ha.operand_head .assign
        | cons b args =>
            simp only [innerArgs, tokens_append]
            rw [List.append_assoc]
            exact operand_append_head ha _ _
      rw [readPost, hread]
      · exact hpost m (by omega)
      · intro ts' h
        rw [hts] at h
        exact hbegins (List.cons.inj h).1

/-! ### Floating-point numbers -/

theorem floatText_of_isUnsigned {bits : UInt64} (h : isUnsigned bits = true) :
    floatText names bits = [.token (.number (names.float bits).number)] := by
  obtain ⟨hfinite, hsign⟩ : isFinite bits = true ∧ isSignNegative bits = false := by
    simpa [isUnsigned] using h
  simp [floatText, isNan, hfinite, hsign]

/-- Every expression of C whose constants are tokens is read from its tokens. -/
theorem reads_of_isC {e : ExpressionTree} (h : e.IsC) (hspelled : e.Spelled) :
    Reads names e := by
  induction e using childrenInduct with
  | step e ih =>
  have hin : ∀ c ∈ e.children, Reads names c :=
    fun c hc => ih c hc (h.all c hc) (hspelled.all c hc)
  have hhere := h.here
  have hconstant := hspelled.here
  -- Every operand is read on its level; what is left is the operator of the node itself.
  clear ih h hspelled
  obtain ⟨ty, kind⟩ := e
  cases kind with
  | binary op x y =>
      exact reads_binary ty op (hin x List.mem_cons_self)
        (hin y (List.mem_cons_of_mem _ List.mem_cons_self))
  | assign op x y =>
      exact reads_assign ty op (hin x List.mem_cons_self)
        (hin y (List.mem_cons_of_mem _ List.mem_cons_self))
  | unary op x =>
      have hx := hin x List.mem_cons_self
      cases hop : op.isPost with
      | false =>
          refine @reads_unary names _ x op.symbol ?_ ?_ hx ?_ ?_
          · show (if op.isPost then Prec.post else Prec.unary) = _
            rw [if_neg (by simp [hop])]
          · cases op <;> rfl
          · simp [inner, hop, tokens, operand]
          · simp [erase, hop]
      | true =>
          refine @reads_post_short names _ x [.glyph op.symbol] hx ?_ (by simp) fun n rest => ?_
          · simp [inner, hop, tokens, tokens_append, operand]
          · cases op <;> first | rfl | cases hop
  | ternary c t e =>
      exact reads_ternary ty (hin c List.mem_cons_self)
        (hin t (List.mem_cons_of_mem _ List.mem_cons_self))
        (hin e (List.mem_cons_of_mem _ (List.mem_cons_of_mem _ List.mem_cons_self)))
  | call x args =>
      exact reads_call ty (hin x List.mem_cons_self)
        fun a ha => hin a (List.mem_cons_of_mem _ ha)
  | index x i =>
      exact reads_index ty (hin x List.mem_cons_self)
        (hin i (List.mem_cons_of_mem _ List.mem_cons_self))
  | memberRef x offset =>
      refine @reads_post_short names _ x
        [.glyph .dot, .word (.name (names.fieldName x.ty offset false))]
        (hin x List.mem_cons_self) ?_ (by simp) fun n rest => rfl
      simp [inner, tokens, tokens_append, operand]
  | memberPtr x offset =>
      refine @reads_post_short names _ x
        [.glyph .arrow, .word (.name (names.fieldName x.ty offset true))]
        (hin x List.mem_cons_self) ?_ (by simp) fun n rest => rfl
      simp [inner, tokens, tokens_append, operand]
  | cast x => exact reads_cast ty (hin x List.mem_cons_self)
  | deref x size =>
      refine @reads_unary names _ x .star rfl rfl (hin x List.mem_cons_self) ?_ rfl
      simp [inner, tokens, operand]
  | sizeof x => exact reads_sizeof ty (hin x List.mem_cons_self)
  | obj address name =>
      cases name <;> exact .of_leaf rfl (by simp [Begins]) fun n ts => rfl
  | fnum bits =>
      have hunsigned : isUnsigned bits = true := hconstant
      have htokens : tokens (inner names (.node ty (.fnum bits))) =
          [.number (names.float bits).number] := by
        rw [inner, floatText_of_isUnsigned hunsigned]
        rfl
      refine .of_leaf htokens (by simp [Begins]) fun n ts => ?_
      rw [erase, if_pos hunsigned]
      rfl
  | num v | str s | var v | helper s =>
      exact .of_leaf rfl (by simp [Begins]) fun n ts => rfl
  | typeExpression | empty | internal => exact hhere.elim

/-- The tokens of such an expression read as the expression. -/
theorem readTokens_render {e : ExpressionTree} (h : e.IsC) (hspelled : e.Spelled) :
    readTokens (tokens (e.expression names .any)) = some (e.erase names) := by
  have hexpr : tokens (e.expression names .any) = tokens (e.inner names) :=
    operand_of_le (Nat.zero_le e.prec)
  have hbelow {p : ℕ} : Below p [] := trivial
  have hread := (@reads_of_isC names e h hspelled).expr [] 1 (Nat.zero_le _) trivial hbelow
    (climb_stops hbelow) (4 * (tokens (e.inner names)).length + 3) (by omega)
  rw [List.append_nil] at hread
  rw [hexpr, readTokens, hread]

end ExpressionTree

end Idakit.Decompiler
