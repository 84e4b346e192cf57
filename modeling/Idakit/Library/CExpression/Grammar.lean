import Idakit.Library.CExpression.Tokens

/-!
The expressions of C by the precedence and associativity of its operators.
An expression is read by climbing: an operand, and then as many operators as
bind at least as tight as is asked for, each with the operand on its right.

What a reader drops are the parentheses: the other tokens of an expression
stand in it in the order of the text.
-/

namespace Idakit.Library.CExpression

/-- An expression as its grammar sees it: operators by their punctuators. -/
inductive CTree
  | number (n : Number)
  /-- A constant that is no token; nothing reads as one. -/
  | constant
  | word (w : Word)
  | unary (g : Glyph) (x : CTree)
  /-- An operator that stands behind its operand. -/
  | post (g : Glyph) (x : CTree)
  | sizeof (x : CTree)
  | cast (type : List Char) (x : CTree)
  /-- A binary operator or an assignment. -/
  | binary (g : Glyph) (x y : CTree)
  | ternary (cond then_ else_ : CTree)
  | call (callee : CTree) (args : List CTree)
  | index (array index : CTree)
  | member (g : Glyph) (x : CTree) (name : List Char)

/-! ### Operators -/

/-- How tight an operator between two operands binds, and how tight the
operand on its right must. A left-associative operator asks for more. -/
def Glyph.operator : Glyph → Option (ℕ × ℕ)
  | .comma => some (1, 2)
  | .eq | .barEq | .caretEq | .ampEq | .plusEq | .minusEq | .starEq | .shrEq | .shlEq | .slashEq
  | .percentEq => some (2, 2)
  | .barBar => some (4, 5)
  | .ampAmp => some (5, 6)
  | .bar => some (6, 7)
  | .caret => some (7, 8)
  | .amp => some (8, 9)
  | .eqEq | .bangEq => some (9, 10)
  | .ge | .le | .gt | .lt => some (10, 11)
  | .shr | .shl => some (11, 12)
  | .plus | .minus => some (12, 13)
  | .star | .slash | .percent => some (13, 14)
  | _ => none

def Glyph.isUnary : Glyph → Bool
  | .minus | .plus | .bang | .tilde | .amp | .star | .plusPlus | .minusMinus => true
  | _ => false

/-! ### Reading -/

mutual

/-- An expression whose operators bind at least as tight as `p`. -/
def readExpr : ℕ → ℕ → List Token → Option (CTree × List Token)
  | 0, _, _ => none
  | n + 1, p, ts => do
      let (x, ts) ← readUnary n ts
      climb n p x ts

def climb : ℕ → ℕ → CTree → List Token → Option (CTree × List Token)
  | 0, _, _, _ => none
  | n + 1, p, x, .glyph .question :: ts =>
      if p ≤ 3 then do
        let (then_, ts) ← readExpr n 0 ts
        match ts with
        | .glyph .colon :: ts => do
            let (else_, ts) ← readExpr n 3 ts
            climb n p (.ternary x then_ else_) ts
        | _ => none
      else some (x, .glyph .question :: ts)
  | n + 1, p, x, .glyph g :: ts =>
      match g.operator with
      | some (q, r) =>
          if p ≤ q then do
            let (y, ts) ← readExpr n r ts
            climb n p (.binary g x y) ts
          else some (x, .glyph g :: ts)
      | none => some (x, .glyph g :: ts)
  | _ + 1, _, x, ts => some (x, ts)

def readUnary : ℕ → List Token → Option (CTree × List Token)
  | 0, _ => none
  | n + 1, .glyph .leftParen :: .word (.type t) :: .glyph .rightParen :: ts => do
      let (x, ts) ← readUnary n ts
      some (.cast t x, ts)
  | n + 1, .glyph .leftParen :: ts => do
      let (x, ts) ← readExpr n 0 ts
      match ts with
      | .glyph .rightParen :: ts => readPost n x ts
      | _ => none
  | n + 1, .glyph g :: ts =>
      if g.isUnary then do
        let (x, ts) ← readUnary n ts
        some (.unary g x, ts)
      else none
  | n + 1, .word .sizeof :: ts => do
      let (x, ts) ← readUnary n ts
      some (.sizeof x, ts)
  | _ + 1, .word (.type _) :: _ => none
  | n + 1, .word w :: ts => readPost n (.word w) ts
  | n + 1, .number k :: ts => readPost n (.number k) ts
  | _ + 1, [] => none

def readPost : ℕ → CTree → List Token → Option (CTree × List Token)
  | 0, _, _ => none
  | n + 1, x, .glyph .leftBracket :: ts => do
      let (i, ts) ← readExpr n 0 ts
      match ts with
      | .glyph .rightBracket :: ts => readPost n (.index x i) ts
      | _ => none
  | n + 1, x, .glyph .leftParen :: .glyph .rightParen :: ts => readPost n (.call x []) ts
  | n + 1, x, .glyph .leftParen :: ts => do
      let (args, ts) ← readArgs n ts
      readPost n (.call x args) ts
  | n + 1, x, .glyph .dot :: .word (.name s) :: ts => readPost n (.member .dot x s) ts
  | n + 1, x, .glyph .arrow :: .word (.name s) :: ts => readPost n (.member .arrow x s) ts
  | n + 1, x, .glyph .plusPlus :: ts => readPost n (.post .plusPlus x) ts
  | n + 1, x, .glyph .minusMinus :: ts => readPost n (.post .minusMinus x) ts
  | _ + 1, x, ts => some (x, ts)

def readArgs : ℕ → List Token → Option (List CTree × List Token)
  | 0, _ => none
  | n + 1, ts => do
      let (a, ts) ← readExpr n 2 ts
      match ts with
      | .glyph .comma :: ts => do
          let (args, ts) ← readArgs n ts
          some (a :: args, ts)
      | .glyph .rightParen :: ts => some ([a], ts)
      | _ => none

end

attribute [grind =] readExpr climb readUnary readPost readArgs

def readTokens (ts : List Token) : Option CTree :=
  match readExpr (4 * ts.length + 3) 0 ts with
  | some (x, []) => some x
  | _ => none

def readText (text : List Symbol) : Option CTree := (tokenize text).bind readTokens

/-! ### Where reading stops -/

/-- How tight what starts with a punctuator binds to an operand before it. -/
def Glyph.level (g : Glyph) : Option ℕ :=
  if g = .question then some 3 else g.operator.map Prod.fst

def Glyph.isPost : Glyph → Bool
  | .leftBracket | .leftParen | .dot | .arrow | .plusPlus | .minusMinus => true
  | _ => false

/-- No operator that binds as tight as `p` stands in front. -/
def Below (p : ℕ) : List Token → Prop
  | .glyph g :: _ => ∀ q, g.level = some q → q < p
  | _ => True

/-- No operator that stands behind its operand is in front. -/
def NoPost : List Token → Prop
  | .glyph g :: _ => g.isPost = false
  | _ => True

theorem Below.mono {p q : ℕ} (hpq : p ≤ q) {ts : List Token} (h : Below p ts) : Below q ts := by
  match ts, h with
  | [], _ => trivial
  | .number _ :: _, _ => trivial
  | .word _ :: _, _ => trivial
  | .glyph _ :: _, h => exact fun r hr => (h r hr).trans_le hpq

theorem below_of_level {g : Glyph} {l p : ℕ} (hg : g.level = some l) (hp : l < p)
    (ts : List Token) : Below p (.glyph g :: ts) := by
  intro q hq
  rw [hg] at hq
  exact Option.some.inj hq ▸ hp

theorem below_of_no_level {g : Glyph} (hg : g.level = none) (p : ℕ) (ts : List Token) :
    Below p (.glyph g :: ts) := by
  intro q hq
  rw [hg] at hq
  cases hq

theorem level_lt (g : Glyph) (q : ℕ) (h : g.level = some q) : q < 14 := by
  cases g <;> cases h <;> decide

/-- No operator binds as tight as an operand with its own. -/
theorem below_unary (ts : List Token) : Below 14 ts := by
  match ts with
  | [] => trivial
  | .number _ :: _ => trivial
  | .word _ :: _ => trivial
  | .glyph g :: _ => exact level_lt g

theorem climb_of_below {p : ℕ} {ts : List Token} (h : Below p ts) (n : ℕ) (x : CTree) :
    climb (n + 1) p x ts = some (x, ts) := by
  rw [climb.eq_def]
  dsimp only
  split
  · next hn => cases hn
  · next hn =>
      cases hn
      rw [if_neg (Nat.not_le.mpr (h 3 rfl))]
  · next g ts hne hn =>
      cases hn
      split
      · next q r hop =>
          have hq : g.level = some q := by
            rw [Glyph.level, if_neg fun hg => hne hg, hop]
            rfl
          rw [if_neg (Nat.not_le.mpr (h q hq))]
      · rfl
  · rfl

theorem readPost_of_noPost {ts : List Token} (h : NoPost ts) (n : ℕ) (x : CTree) :
    readPost (n + 1) x ts = some (x, ts) := by
  rw [readPost.eq_def]
  dsimp only
  split
  · next hn => cases hn
  all_goals first | rfl | cases h

/-! ### The tokens of an expression -/

mutual

/-- The tokens of an expression but its parentheses, and where it holds a
constant that is none. -/
def CTree.bare : CTree → List (Option Token)
  | .number n => [some (.number n)]
  | .constant => [none]
  | .word w => [some (.word w)]
  | .unary g x => some (.glyph g) :: x.bare
  | .post g x => x.bare ++ [some (.glyph g)]
  | .sizeof x => some (.word .sizeof) :: x.bare
  | .cast t x => some (.word (.type t)) :: x.bare
  | .binary g x y => x.bare ++ some (.glyph g) :: y.bare
  | .ternary cond then_ else_ =>
      cond.bare ++ some (.glyph .question) ::
        (then_.bare ++ some (.glyph .colon) :: else_.bare)
  | .call callee args => callee.bare ++ bareArgs args
  | .index array index =>
      array.bare ++ some (.glyph .leftBracket) ::
        (index.bare ++ [some (.glyph .rightBracket)])
  | .member g x name => x.bare ++ [some (.glyph g), some (.word (.name name))]

def bareArgs : List CTree → List (Option Token)
  | [] => []
  | [a] => a.bare
  | a :: args => a.bare ++ some (.glyph .comma) :: bareArgs args

end

def isParen (t : Token) : Bool := t = .glyph .leftParen || t = .glyph .rightParen

def withoutParens (ts : List Token) : List (Option Token) := (ts.filter (!isParen ·)).map some

@[simp] theorem withoutParens_nil : withoutParens [] = [] := rfl

@[simp] theorem withoutParens_leftParen (ts : List Token) :
    withoutParens (.glyph .leftParen :: ts) = withoutParens ts := rfl

@[simp] theorem withoutParens_rightParen (ts : List Token) :
    withoutParens (.glyph .rightParen :: ts) = withoutParens ts := rfl

theorem withoutParens_glyph {g : Glyph} (hl : g ≠ .leftParen) (hr : g ≠ .rightParen)
    (ts : List Token) : withoutParens (.glyph g :: ts) = some (.glyph g) :: withoutParens ts := by
  simp [withoutParens, isParen, hl, hr]

@[simp] theorem withoutParens_word (w : Word) (ts : List Token) :
    withoutParens (.word w :: ts) = some (.word w) :: withoutParens ts := by
  simp [withoutParens, isParen]

@[simp] theorem withoutParens_number (n : Number) (ts : List Token) :
    withoutParens (.number n :: ts) = some (.number n) :: withoutParens ts := by
  simp [withoutParens, isParen]

theorem none_notMem_withoutParens (ts : List Token) : none ∉ withoutParens ts := by
  simp [withoutParens]

theorem ne_paren_of_operator {g : Glyph} {o : ℕ × ℕ} (h : g.operator = some o) :
    g ≠ .leftParen ∧ g ≠ .rightParen := by
  constructor <;> rintro rfl <;> cases h

theorem ne_paren_of_isUnary {g : Glyph} (h : g.isUnary = true) :
    g ≠ .leftParen ∧ g ≠ .rightParen := by
  constructor <;> rintro rfl <;> cases h

/-- What the readers keep of the tokens. -/
structure KeepsTokens (n : ℕ) : Prop where
  expr : ∀ ⦃p ts x rest⦄, readExpr n p ts = some (x, rest) →
    withoutParens ts = x.bare ++ withoutParens rest
  climb : ∀ ⦃p x ts y rest⦄, climb n p x ts = some (y, rest) →
    x.bare ++ withoutParens ts = y.bare ++ withoutParens rest
  unary : ∀ ⦃ts x rest⦄, readUnary n ts = some (x, rest) →
    withoutParens ts = x.bare ++ withoutParens rest
  post : ∀ ⦃x ts y rest⦄, readPost n x ts = some (y, rest) →
    x.bare ++ withoutParens ts = y.bare ++ withoutParens rest
  args : ∀ ⦃ts l rest⦄, readArgs n ts = some (l, rest) →
    l ≠ [] ∧ withoutParens ts = bareArgs l ++ withoutParens rest

namespace KeepsTokens

variable {n p : ℕ} {x y : CTree} {ts rest : List Token} (ih : ∀ k, n = k + 1 → KeepsTokens k)

include ih

theorem expr_step (h : readExpr n p ts = some (x, rest)) :
    withoutParens ts = x.bare ++ withoutParens rest := by
  revert h
  fun_cases readExpr n p ts with
  | case1 p ts => exact nofun
  | case2 n p ts =>
      intro h
      simp only [Option.bind_eq_bind, Option.bind_eq_some_iff] at h
      obtain ⟨⟨y, ts₁⟩, hy, h⟩ := h
      rw [(ih n rfl).unary hy, (ih n rfl).climb h]

theorem climb_step (h : Library.CExpression.climb n p x ts = some (y, rest)) :
    x.bare ++ withoutParens ts = y.bare ++ withoutParens rest := by
  revert h
  fun_cases Library.CExpression.climb n p x ts with
  | case1 p x ts => exact nofun
  | case2 n p x ts hp =>
      -- A conditional: its operands are kept one after the other.
      intro h
      simp only [Option.bind_eq_bind, Option.bind_eq_some_iff] at h
      obtain ⟨⟨t, ts₁⟩, ht, h⟩ := h
      dsimp only at h
      split at h
      · simp only [Option.bind_eq_some_iff] at h
        obtain ⟨⟨e, ts₂⟩, he, h⟩ := h
        rw [← (ih n rfl).climb h, withoutParens_glyph (by simp) (by simp), (ih n rfl).expr ht,
          withoutParens_glyph (by simp) (by simp), (ih n rfl).expr he]
        simp [CTree.bare]
      · cases h
  | case4 n p x g ts hquestion q r hop hp =>
      intro h
      obtain ⟨hl, hr⟩ := ne_paren_of_operator hop
      simp only [Option.bind_eq_bind, Option.bind_eq_some_iff] at h
      obtain ⟨⟨z, ts₁⟩, hz, h⟩ := h
      rw [← (ih n rfl).climb h, withoutParens_glyph hl hr, (ih n rfl).expr hz]
      simp [CTree.bare]
  | case3 | case5 | case6 | case7 =>
      intro h
      obtain ⟨rfl, rfl⟩ := Prod.mk.inj (Option.some.inj h)
      rfl

theorem unary_step (h : readUnary n ts = some (x, rest)) :
    withoutParens ts = x.bare ++ withoutParens rest := by
  revert h
  fun_cases readUnary n ts with
  | case2 n t ts =>
      intro h
      simp only [Option.bind_eq_bind, Option.bind_eq_some_iff] at h
      obtain ⟨⟨y, ts₁⟩, hy, h⟩ := h
      obtain ⟨rfl, rfl⟩ := Prod.mk.inj (Option.some.inj h)
      rw [withoutParens_leftParen, withoutParens_word, withoutParens_rightParen,
        (ih n rfl).unary hy, CTree.bare, List.cons_append]
  | case3 n ts htype =>
      -- The parentheses are what is dropped.
      intro h
      simp only [Option.bind_eq_bind, Option.bind_eq_some_iff] at h
      obtain ⟨⟨y, ts₁⟩, hy, h⟩ := h
      dsimp only at h
      split at h
      · rw [← (ih n rfl).post h, withoutParens_leftParen, (ih n rfl).expr hy,
          withoutParens_rightParen]
      · cases h
  | case4 n g ts htype hparen hg =>
      intro h
      obtain ⟨hl, hr⟩ := ne_paren_of_isUnary hg
      simp only [Option.bind_eq_bind, Option.bind_eq_some_iff] at h
      obtain ⟨⟨y, ts₁⟩, hy, h⟩ := h
      obtain ⟨rfl, rfl⟩ := Prod.mk.inj (Option.some.inj h)
      rw [withoutParens_glyph hl hr, (ih n rfl).unary hy, CTree.bare, List.cons_append]
  | case6 n ts =>
      intro h
      simp only [Option.bind_eq_bind, Option.bind_eq_some_iff] at h
      obtain ⟨⟨y, ts₁⟩, hy, h⟩ := h
      obtain ⟨rfl, rfl⟩ := Prod.mk.inj (Option.some.inj h)
      rw [withoutParens_word, (ih n rfl).unary hy, CTree.bare, List.cons_append]
  | case8 n w ts hsizeof htype =>
      intro h
      rw [← (ih n rfl).post h, withoutParens_word, CTree.bare, List.cons_append, List.nil_append]
  | case9 n k ts =>
      intro h
      rw [← (ih n rfl).post h, withoutParens_number, CTree.bare, List.cons_append,
        List.nil_append]
  | case1 | case5 | case7 | case10 => exact nofun

theorem post_step (h : readPost n x ts = some (y, rest)) :
    x.bare ++ withoutParens ts = y.bare ++ withoutParens rest := by
  revert h
  fun_cases readPost n x ts with
  | case1 x ts => exact nofun
  | case2 n x ts =>
      intro h
      simp only [Option.bind_eq_bind, Option.bind_eq_some_iff] at h
      obtain ⟨⟨i, ts₁⟩, hi, h⟩ := h
      dsimp only at h
      split at h
      · rw [← (ih n rfl).post h, withoutParens_glyph (by simp) (by simp), (ih n rfl).expr hi,
          withoutParens_glyph (by simp) (by simp)]
        simp [CTree.bare]
      · cases h
  | case3 n x ts =>
      intro h
      rw [← (ih n rfl).post h]
      simp [CTree.bare, bareArgs]
  | case4 n x ts hempty =>
      intro h
      simp only [Option.bind_eq_bind, Option.bind_eq_some_iff] at h
      obtain ⟨⟨l, ts₁⟩, hl, h⟩ := h
      rw [← (ih n rfl).post h, withoutParens_leftParen, ((ih n rfl).args hl).2, CTree.bare,
        List.append_assoc]
  | case5 n x s ts | case6 n x s ts | case7 n x ts | case8 n x ts =>
      -- What is read here is one operator, with a name or without.
      intro h
      rw [← (ih n rfl).post h, withoutParens_glyph (by simp) (by simp)]
      simp [CTree.bare]
  | case9 =>
      intro h
      obtain ⟨rfl, rfl⟩ := Prod.mk.inj (Option.some.inj h)
      rfl

theorem args_step {l : List CTree} (h : readArgs n ts = some (l, rest)) :
    l ≠ [] ∧ withoutParens ts = bareArgs l ++ withoutParens rest := by
  revert h
  fun_cases readArgs n ts with
  | case1 ts => exact nofun
  | case2 n ts =>
      intro h
      simp only [Option.bind_eq_bind, Option.bind_eq_some_iff] at h
      obtain ⟨⟨a, ts₁⟩, ha, h⟩ := h
      dsimp only at h
      split at h
      · simp only [Option.bind_eq_some_iff] at h
        obtain ⟨⟨more, ts₂⟩, hmore, h⟩ := h
        obtain ⟨rfl, rfl⟩ := Prod.mk.inj (Option.some.inj h)
        obtain ⟨hne, hmore⟩ := (ih n rfl).args hmore
        obtain ⟨b, more, rfl⟩ := List.exists_cons_of_ne_nil hne
        refine ⟨by simp, ?_⟩
        rw [(ih n rfl).expr ha, withoutParens_glyph (by simp) (by simp), hmore]
        simp [bareArgs]
      · obtain ⟨rfl, rfl⟩ := Prod.mk.inj (Option.some.inj h)
        exact ⟨by simp, by rw [(ih n rfl).expr ha, withoutParens_rightParen, bareArgs]⟩
      · cases h

end KeepsTokens

/-- A reader keeps every token but the parentheses, in their order. -/
theorem keepsTokens (n : ℕ) : KeepsTokens n := by
  have steps (n : ℕ) (ih : ∀ k, n = k + 1 → KeepsTokens k) : KeepsTokens n :=
    { expr := fun _ _ _ _ => KeepsTokens.expr_step ih
      climb := fun _ _ _ _ _ => KeepsTokens.climb_step ih
      unary := fun _ _ _ => KeepsTokens.unary_step ih
      post := fun _ _ _ _ => KeepsTokens.post_step ih
      args := fun _ _ _ => KeepsTokens.args_step ih }
  induction n with
  | zero => exact steps 0 nofun
  | succ n ih => exact steps (n + 1) fun k hk => Nat.succ.inj hk ▸ ih

theorem bare_of_readTokens {ts : List Token} {x : CTree} (h : readTokens ts = some x) :
    withoutParens ts = x.bare := by
  rw [readTokens] at h
  split at h
  · next hread =>
      obtain rfl := Option.some.inj h
      simpa using (keepsTokens _).expr hread
  · cases h

/-- What is read holds tokens only. -/
theorem none_notMem_of_readText {text : List Symbol} {x : CTree} (h : readText text = some x) :
    none ∉ x.bare := by
  obtain ⟨ts, -, hread⟩ := Option.bind_eq_some_iff.mp h
  rw [← bare_of_readTokens hread]
  exact none_notMem_withoutParens ts

/-! ### Texts and their tokens -/

theorem eq_paren_of_head {g : Glyph} (hg : g = .leftParen ∨ g = .rightParen) {t : Token}
    (h : t.symbols.head? = g.symbols.head?) : t = .glyph g := by
  cases t with
  | glyph g' =>
      have hall : ∀ g' ∈ Glyph.all, (g'.symbols.head? = Glyph.leftParen.symbols.head? →
          g' = .leftParen) ∧ (g'.symbols.head? = Glyph.rightParen.symbols.head? →
          g' = .rightParen) := by decide
      rcases hg with rfl | rfl
      · rw [(hall g' g'.mem_all).1 h]
      · rw [(hall g' g'.mem_all).2 h]
  | number n =>
      have hfirst := n.starts
      rcases hg with rfl | rfl
      all_goals
        obtain hchar := Symbol.char.inj (Option.some.inj h)
        rw [hchar] at hfirst
        rcases hfirst with hfirst | hfirst <;> simp at hfirst
  | word w => rcases hg with rfl | rfl <;> cases h

theorem isParen_iff {t : Token} :
    isParen t = true ↔ ∃ g, (g = .leftParen ∨ g = .rightParen) ∧ t = .glyph g := by
  simp [isParen]

/-- Two lists of tokens with one text, whose tokens without parentheses are the
same, are the same. -/
theorem eq_of_text_eq {ts us : List Token}
    (htext : ts.flatMap Token.symbols = us.flatMap Token.symbols)
    (hbare : withoutParens ts = withoutParens us) : ts = us := by
  induction ts generalizing us with
  | nil =>
      cases us with
      | nil => rfl
      | cons u us => simp [munches.spell_ne_nil u] at htext
  | cons t ts ih =>
      cases us with
      | nil => simp [munches.spell_ne_nil t] at htext
      | cons u us =>
          rw [List.flatMap_cons, List.flatMap_cons] at htext
          have hhead : t.symbols.head? = u.symbols.head? := by
            have h := congrArg List.head? htext
            rwa [List.head?_append_of_ne_nil _ (munches.spell_ne_nil t),
              List.head?_append_of_ne_nil _ (munches.spell_ne_nil u)] at h
          have htu : t = u := by
            by_cases ht : isParen t = true
            · obtain ⟨g, hg, rfl⟩ := isParen_iff.mp ht
              exact (eq_paren_of_head hg hhead.symm).symm
            · by_cases hu : isParen u = true
              · obtain ⟨g, hg, rfl⟩ := isParen_iff.mp hu
                exact eq_paren_of_head hg hhead
              · simp only [withoutParens, List.filter_cons, ht, hu] at hbare
                exact Option.some.inj (List.cons.inj hbare).1
          subst htu
          rw [ih (List.append_cancel_left htext)]
          by_cases ht : isParen t = true
          · simpa [withoutParens, ht] using hbare
          · simpa [withoutParens, ht] using hbare

/-- A text reads as the expression of its tokens exactly if each token is read
where it is written. -/
theorem readText_flatten_iff {ps : List (Piece Token)} {x : CTree}
    (hx : readTokens (tokens ps) = some x) :
    readText (flatten .blank Token.symbols ps) = some x ↔
      Munched .blank Token.symbols munch ps := by
  rw [readText]
  constructor
  · intro h
    obtain ⟨ts, hts, hread⟩ := Option.bind_eq_some_iff.mp h
    have htext : ts.flatMap Token.symbols = (tokens ps).flatMap Token.symbols := by
      rw [← filter_of_lex munches hts, filter_flatten munches]
    obtain rfl := eq_of_text_eq htext
      ((bare_of_readTokens hread).trans (bare_of_readTokens hx).symm)
    exact munched_of_lex munches hts
  · intro h
    rw [tokenize, lex_flatten munches h le_rfl, Option.bind_some, hx]

end Idakit.Library.CExpression
