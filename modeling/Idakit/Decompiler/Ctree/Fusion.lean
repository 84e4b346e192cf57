import Idakit.Decompiler.Ctree.Precedence

/-!
Where the text of an expression reads as other tokens than were written.
Operators in front of an operand are written without a blank between them, so
two of them can be one longer token; a number goes on over a point behind it,
and over a sign behind its last digit where that is an `e`.

An expression is read back exactly if none of this happens in it and its
floating-point numbers are tokens.
-/

namespace Idakit.Decompiler

open Idakit.Types Idakit.Library Idakit.Library.CExpression

/-- An operator and the one on its operand are one token, or begin as one. -/
def UnaryOp.fuses : UnaryOp → UnaryOp → Bool
  | .neg, .neg | .neg, .fNeg | .fNeg, .neg | .fNeg, .fNeg => true
  | .neg, .preDec | .fNeg, .preDec => true
  | .ref, .ref => true
  | _, _ => false

namespace ExpressionTree

variable (names : Spelling)

def unaryOp : ExpressionTree → Option UnaryOp
  | .node _ (.unary op _) => some op
  | _ => none

def number : ExpressionTree → Option Number
  | .node _ (.num v) => some (intNumber v)
  | .node _ (.fnum bits) =>
      if isUnsigned bits then some (names.float bits).number else none
  | .node _ (.obj address none) => some (hexNumber address.raw.toNat)
  | _ => none

/-- A sign behind this expression would be part of its number. -/
def takesSign (e : ExpressionTree) : Prop :=
  ∃ n, e.number names = some n ∧ endsInExponent false n.tail = true

/-- No token of a node is read together with the next one. -/
def UnfusedHere : ExpressionTree → Prop
  | .node _ (.unary op x) =>
      if op.isPost then ¬ x.takesSign names
      else ∀ op', x.unaryOp = some op' → op.fuses op' = false
  | .node _ (.memberRef x _) => x.number names = none
  | .node _ (.memberPtr x _) => ¬ x.takesSign names
  | _ => True

/-- No token is read together with the next one. -/
def Unfused : ExpressionTree → Prop := Everywhere (UnfusedHere names)

variable {names}

/-- Every token is read where it is written. -/
abbrev Apart (ps : List (Piece Token)) : Prop := Munched .blank Token.symbols munch ps

def firstSymbol (ps : List (Piece Token)) : Option Symbol :=
  (flatten .blank Token.symbols ps).head?

/-! ### Tokens in their places -/

theorem apart_blank {ps : List (Piece Token)} : Apart (.blank :: ps) ↔ Apart ps := Iff.rfl

theorem apart_word {w : Word} {ps : List (Piece Token)} :
    Apart (.token (.word w) :: ps) ↔ Apart ps :=
  ⟨And.right, fun h => ⟨rfl, h⟩⟩

theorem Apart.glyph {g : Glyph} {ps : List (Piece Token)} (h : Apart ps)
    (hfirst : ∀ s ∈ firstSymbol ps, g.goesOn s = false) (hdot : g ≠ .dot) :
    Apart (.token (.glyph g) :: ps) :=
  ⟨munch_glyph hfirst fun h => absurd h hdot, h⟩

theorem apart_closed {g : Glyph} (hg : g.closed = true) (hdot : g ≠ .dot)
    {ps : List (Piece Token)} : Apart (.token (.glyph g) :: ps) ↔ Apart ps :=
  ⟨And.right, fun h => h.glyph (fun s _ => Glyph.goesOn_of_closed hg s) hdot⟩

/-- Before a blank every punctuator is read. -/
theorem apart_glyph_blank {g : Glyph} (hdot : g ≠ .dot) {ps : List (Piece Token)} :
    Apart (.token (.glyph g) :: .blank :: ps) ↔ Apart ps := by
  refine ⟨fun h => h.2, fun h => Apart.glyph (apart_blank.mpr h) (fun s hs => ?_) hdot⟩
  obtain rfl := Option.some.inj hs
  rw [Bool.eq_false_iff]
  intro h
  obtain ⟨c, hc⟩ := Glyph.exists_char_of_goesOn h
  cases hc

theorem apart_dot_word {w : Word} {ps : List (Piece Token)} :
    Apart (.token (.glyph .dot) :: .token (.word w) :: ps) ↔ Apart ps := by
  refine ⟨fun h => h.2.2, fun h => ⟨?_, apart_word.mpr h⟩⟩
  refine munch_glyph (fun s hs => ?_) fun _ => rfl
  obtain rfl := Option.some.inj hs
  rw [Bool.eq_false_iff]
  intro h
  obtain ⟨c, hc⟩ := Glyph.exists_char_of_goesOn h
  cases hc

/-! ### Numbers -/

theorem isAlphanum_of_mem_hex {n : ℕ} {c : Char} (hc : c ∈ Nat.toDigits 16 n) :
    c.isAlphanum = true := by
  induction n using Nat.strong_induction_on with
  | _ n ih =>
  have hdigit : ∀ d < 16, d.digitChar.isAlphanum = true := by decide
  rw [Nat.toDigits_eq_if (by decide)] at hc
  split at hc
  · next hn => rw [List.mem_singleton.mp hc, hdigit n hn]
  · next hn =>
      rcases List.mem_append.mp hc with hc | hc
      · exact ih (n / 16) (by omega) hc
      · rw [List.mem_singleton.mp hc, hdigit _ (Nat.mod_lt n (by decide))]

theorem number_fnum {ty : TypeId} {bits : UInt64} {n : Number}
    (h : number names (.node ty (.fnum bits)) = some n) :
    isUnsigned bits = true ∧ (names.float bits).number = n := by
  rw [number] at h
  split at h
  · next hunsigned => exact ⟨hunsigned, Option.some.inj h⟩
  · cases h

theorem number_parts {e : ExpressionTree} {n : Number} (h : e.number names = some n) :
    n.first.isDigit = true ∧ ∀ s ∈ n.tail, isNumberPart s = true := by
  have hex (k : ℕ) : (hexNumber k).first.isDigit = true ∧
      ∀ s ∈ (hexNumber k).tail, isNumberPart s = true := by
    refine ⟨rfl, fun s hs => ?_⟩
    obtain ⟨c, hc, rfl⟩ := List.mem_map.mp hs
    rcases List.mem_cons.mp hc with rfl | hc
    · rfl
    · simp [isNumberPart, isAlphanum_of_mem_hex hc]
  obtain ⟨ty, kind⟩ := e
  cases kind with
  | num v =>
      obtain rfl := Option.some.inj h
      rw [intNumber]
      split
      · next hv => exact ⟨isDigit_digitChar_of_lt hv, by simp [numberOf]⟩
      · exact hex v.toNat
  | fnum bits =>
      obtain ⟨-, rfl⟩ := number_fnum h
      refine ⟨(names.float bits).isDigit, fun s hs => ?_⟩
      obtain ⟨c, hc, rfl⟩ := List.mem_map.mp hs
      rcases (names.float bits).isDecimal c hc with hdigit | rfl
      · simp [isNumberPart, Char.isAlphanum, hdigit]
      · rfl
  | obj address name =>
      cases name with
      | none =>
          obtain rfl := Option.some.inj h
          exact hex _
      | some name => cases h
  | _ => cases h

/-- A number is read in its place exactly if nothing behind it goes on with it. -/
theorem apart_number {e : ExpressionTree} {n : Number} (h : e.number names = some n)
    {ps : List (Piece Token)} : Apart (.token (.number n) :: ps) ↔
      (∀ s ∈ firstSymbol ps, continuesNumber (endsInExponent false n.tail) s = false) ∧
        Apart ps := by
  obtain ⟨hfirst, htail⟩ := number_parts h
  exact and_congr (munch_number_iff hfirst htail _) Iff.rfl

/-! ### What a text begins with -/

/-- A symbol that no operator in front of an operand goes on with. -/
def Quiet (s : Symbol) : Prop :=
  (∃ w, s = .word w) ∨ (∃ c, c.isDigit = true ∧ s = .char c) ∨ s = .char '('

theorem goesOn_of_quiet {s : Symbol} (hs : Quiet s) (g : Glyph) : g.goesOn s = false := by
  have hparen : ∀ g ∈ Glyph.all, g.goesOn (.char '(') = false := by decide
  rcases hs with ⟨w, rfl⟩ | ⟨c, hc, rfl⟩ | rfl
  · rw [Bool.eq_false_iff]
    intro h
    obtain ⟨c, hc⟩ := Glyph.exists_char_of_goesOn h
    cases hc
  · exact Glyph.goesOn_digit hc g
  · exact hparen g g.mem_all

theorem firstSymbol_paren (min : Prec) {e : ExpressionTree} (h : e.prec < min)
    (rest : List (Piece Token)) :
    firstSymbol (parenthesize min e.prec (e.inner names) ++ rest) = some (.char '(') := by
  rw [parenthesize, if_pos h]
  rfl

/-- The text of what binds tight begins with a word, a digit or a parenthesis. -/
theorem quiet_of_post {e : ExpressionTree} (h : e.IsC) (hspelled : e.Spelled)
    (hprec : Prec.post ≤ e.prec) (rest : List (Piece Token)) :
    ∃ s, firstSymbol (e.inner names ++ rest) = some s ∧ Quiet s := by
  induction e using childrenInduct generalizing rest with
  | step e ih =>
  have operand {x : ExpressionTree} (hx : x ∈ e.children) (l : List (Piece Token)) :
      ∃ s, firstSymbol (parenthesize .post x.prec (x.inner names) ++ l) = some s ∧ Quiet s := by
    by_cases hmin : x.prec < .post
    · exact ⟨_, firstSymbol_paren _ hmin l, .inr (.inr rfl)⟩
    · rw [parenthesize, if_neg hmin]
      exact ih x hx (h.all x hx) (hspelled.all x hx) (Nat.not_lt.mp hmin) l
  have hhere := h.here
  have hconstant := hspelled.here
  obtain ⟨ty, kind⟩ := e
  cases kind with
  | num v =>
      have hdigit := (@number_parts names (.node ty (.num v)) _ rfl).1
      exact ⟨_, rfl, .inr (.inl ⟨_, hdigit, rfl⟩)⟩
  | fnum bits =>
      rw [inner, floatText_of_isUnsigned hconstant]
      exact ⟨_, rfl, .inr (.inl ⟨_, (names.float bits).isDigit, rfl⟩)⟩
  | obj address name =>
      cases name with
      | none => exact ⟨_, rfl, .inr (.inl ⟨'0', rfl, rfl⟩)⟩
      | some name => exact ⟨_, rfl, .inl ⟨_, rfl⟩⟩
  | str s | var v | helper s => exact ⟨_, rfl, .inl ⟨_, rfl⟩⟩
  | typeExpression | empty | internal => exact hhere.elim
  | call x args | index x i | memberRef x offset | memberPtr x offset =>
      rw [inner, List.append_assoc]
      exact operand List.mem_cons_self _
  | unary op x =>
      cases hop : op.isPost with
      | false =>
          rw [prec, hop] at hprec
          exact absurd hprec (by decide)
      | true =>
          rw [inner, if_pos hop, List.append_assoc]
          exact operand List.mem_cons_self _
  | binary op x y =>
      rw [prec] at hprec
      cases op <;> exact absurd hprec (by decide)
  | cast x | deref x size | sizeof x | assign op x y | ternary c t e =>
      rw [prec] at hprec
      exact absurd hprec (by decide)

/-- The text of an operand begins so, or with the operator of the operand. -/
theorem firstSymbol_unary {e : ExpressionTree} (h : e.IsC) (hspelled : e.Spelled) (rest : List (Piece Token)) :
    ∃ s, firstSymbol (parenthesize .unary e.prec (e.inner names) ++ rest) = some s ∧
      (Quiet s ∨ s = .char '*' ∨ ∃ op, e.unaryOp = some op ∧ op.isPost = false ∧
        op.symbol.symbols.head? = some s) := by
  by_cases hmin : e.prec < .unary
  · exact ⟨_, firstSymbol_paren _ hmin rest, .inl (.inr (.inr rfl))⟩
  rw [parenthesize, if_neg hmin]
  by_cases hpost : Prec.post ≤ e.prec
  · obtain ⟨s, hs, hquiet⟩ := @quiet_of_post names e h hspelled hpost rest
    exact ⟨s, hs, .inl hquiet⟩
  -- What is left has the precedence of an operator in front.
  have hunary : e.prec = .unary :=
    Nat.le_antisymm (Nat.le_of_lt_succ (Nat.not_le.mp hpost)) (Nat.not_lt.mp hmin)
  clear hmin hpost
  obtain ⟨ty, kind⟩ := e
  cases kind with
  | cast x => exact ⟨_, rfl, .inl (.inr (.inr rfl))⟩
  | sizeof x => exact ⟨_, rfl, .inl (.inl ⟨_, rfl⟩)⟩
  | deref x size => exact ⟨_, rfl, .inr (.inl rfl)⟩
  | unary op x =>
      cases hop : op.isPost with
      | true =>
          rw [prec, hop] at hunary
          exact absurd hunary (by decide)
      | false =>
          rw [inner, if_neg (by simp [hop])]
          obtain ⟨c, l, hg, -⟩ := op.symbol.symbols_eq_cons
          refine ⟨.char c, ?_, .inr (.inr ⟨op, rfl, hop, by rw [hg]; rfl⟩)⟩
          rw [firstSymbol, List.cons_append, flatten, Token.symbols, hg]
          rfl
  | binary op x y =>
      rw [prec] at hunary
      cases op <;> exact absurd hunary (by decide)
  | _ =>
      rw [prec] at hunary
      exact absurd hunary (by decide)

/-- Operators in front of an operand that do not fuse leave each other alone. -/
theorem goesOn_of_not_fuses {op op' : UnaryOp} (hop : op.isPost = false) (hop' : op'.isPost = false)
    (h : op.fuses op' = false) : ∀ s ∈ op'.symbol.symbols.head?, op.symbol.goesOn s = false := by
  cases op <;> cases hop <;> cases op' <;> cases hop' <;> cases h <;> decide

theorem goesOn_star (g : Glyph) (hg : g.isUnary = true) : g.goesOn (.char '*') = false := by
  cases g <;> cases hg <;> decide

theorem goesOn_of_star {op : UnaryOp} (hop : op.isPost = false) :
    ∀ s ∈ op.symbol.symbols.head?, Glyph.star.goesOn s = false := by
  cases op <;> cases hop <;> decide

/-! ### Each token in its place -/

/-- No number goes on with what the text begins with. -/
def Calm (ps : List (Piece Token)) : Prop :=
  ∀ s ∈ firstSymbol ps, ∀ exponent, continuesNumber exponent s = false

/-- The text of an expression keeps its tokens apart from what follows it. -/
structure Separates (names : Spelling) (e : ExpressionTree) : Prop where
  calm : ∀ {rest}, Apart rest → Calm rest → Apart (e.inner names ++ rest)
  post : Prec.post ≤ e.prec → e.number names = none → ∀ {rest}, Apart rest →
    Apart (e.inner names ++ rest)

theorem calm_blank (ps : List (Piece Token)) : Calm (.blank :: ps) := by
  intro s hs exponent
  obtain rfl := Option.some.inj hs
  cases exponent <;> rfl

theorem calm_glyph {g : Glyph} (hg : g = .rightParen ∨ g = .rightBracket ∨ g = .comma)
    (ps : List (Piece Token)) : Calm (.token (.glyph g) :: ps) := by
  intro s hs exponent
  rcases hg with rfl | rfl | rfl <;> obtain rfl := Option.some.inj hs <;> cases exponent <;> rfl

theorem Separates.paren {e : ExpressionTree} (h : Separates names e)
    {rest : List (Piece Token)} (hrest : Apart rest) :
    Apart (.token (.glyph .leftParen) :: e.inner names ++ [.token (.glyph .rightParen)] ++ rest) := by
  have hright : Apart (.token (.glyph .rightParen) :: rest) :=
    (apart_closed rfl (by simp)).mpr hrest
  have hcalm := calm_glyph (.inl rfl) rest
  simp only [List.cons_append, List.append_assoc, List.nil_append]
  exact (apart_closed rfl (by simp)).mpr (h.calm hright hcalm)

theorem Separates.operand_calm {e : ExpressionTree} (h : Separates names e) (min : Prec)
    {rest : List (Piece Token)} (hrest : Apart rest) (hcalm : Calm rest) :
    Apart (parenthesize min e.prec (e.inner names) ++ rest) := by
  rw [parenthesize]
  split
  · exact h.paren hrest
  · exact h.calm hrest hcalm

theorem inner_of_number {e : ExpressionTree} {n : Number} (h : e.number names = some n) :
    e.inner names = [.token (.number n)] := by
  obtain ⟨ty, kind⟩ := e
  cases kind with
  | num v => obtain rfl := Option.some.inj h; rfl
  | fnum bits =>
      obtain ⟨hunsigned, rfl⟩ := number_fnum h
      rw [inner, floatText_of_isUnsigned hunsigned]
  | obj address name =>
      cases name with
      | none => obtain rfl := Option.some.inj h; rfl
      | some name => cases h
  | _ => cases h

theorem Separates.operand_post {e : ExpressionTree} (h : Separates names e)
    {rest : List (Piece Token)} (hrest : Apart rest)
    (hnumber : ∀ n, e.number names = some n →
      ∀ s ∈ firstSymbol rest, continuesNumber (endsInExponent false n.tail) s = false) :
    Apart (parenthesize .post e.prec (e.inner names) ++ rest) := by
  rw [parenthesize]
  split
  · exact h.paren hrest
  · next hmin =>
      cases hn : e.number names with
      | none => exact h.post (Nat.not_lt.mp hmin) hn hrest
      | some n =>
          rw [inner_of_number hn]
          exact (apart_number hn).mpr ⟨hnumber n hn, hrest⟩

/-- An operator between two operands, with its blanks. -/
theorem apart_spaced {g : Glyph} (hdot : g ≠ .dot) {ps : List (Piece Token)} :
    Apart (spaced g ++ ps) ↔ Apart ps := by
  show Apart (.token (.glyph g) :: .blank :: ps) ↔ _
  exact apart_glyph_blank hdot

theorem apart_commaBlank {ps : List (Piece Token)} : Apart (commaBlank ++ ps) ↔ Apart ps :=
  apart_glyph_blank (by simp)

theorem symbol_ne_dot (op : BinaryOp) : op.symbol ≠ .dot := by
  cases op <;> simp [BinaryOp.symbol]

theorem assign_symbol_ne_dot (op : AssignmentOp) : op.symbol ≠ .dot := by
  cases op <;> simp [AssignmentOp.symbol]

theorem calm_spaced (g : Glyph) (ps : List (Piece Token)) : Calm (spaced g ++ ps) :=
  calm_blank _

theorem Separates.of_calm {e : ExpressionTree} (hprec : ¬ Prec.post ≤ e.prec)
    (h : ∀ {rest}, Apart rest → Calm rest → Apart (e.inner names ++ rest)) : Separates names e :=
  ⟨h, fun hpost => absurd hpost hprec⟩

theorem Separates.of_post {e : ExpressionTree}
    (h : ∀ {rest}, Apart rest → Apart (e.inner names ++ rest)) : Separates names e :=
  ⟨fun hrest _ => h hrest, fun _ _ _ => h⟩

theorem Separates.of_number {e : ExpressionTree} {n : Number} (h : e.number names = some n) :
    Separates names e := by
  refine ⟨fun {rest} hrest hcalm => ?_, fun _ hnone => ?_⟩
  · rw [inner_of_number h]
    exact (apart_number h).mpr ⟨fun s hs => hcalm s hs _, hrest⟩
  · rw [h] at hnone
    cases hnone

/-- An operator in front of an operand that begins with nothing it goes on with. -/
theorem Separates.of_unary {e x : ExpressionTree} {g : Glyph} (hprec : ¬ Prec.post ≤ e.prec)
    (hinner : e.inner names = .token (.glyph g) :: parenthesize .unary x.prec (x.inner names))
    (hx : Separates names x) (hC : x.IsC) (hspelled : x.Spelled) (hg : g.isUnary = true)
    (hops : ∀ op, x.unaryOp = some op → op.isPost = false →
      ∀ s ∈ op.symbol.symbols.head?, g.goesOn s = false) : Separates names e := by
  refine .of_calm hprec fun {rest} hrest hcalm => ?_
  have hdot : g ≠ .dot := by
    rintro rfl
    cases hg
  rw [hinner, List.cons_append]
  refine (hx.operand_calm .unary hrest hcalm).glyph (fun s hs => ?_) hdot
  obtain ⟨s', hs', hcases⟩ := @firstSymbol_unary names x hC hspelled rest
  rw [hs', Option.mem_some_iff] at hs
  subst hs
  rcases hcases with hquiet | rfl | ⟨op, hop, hpost, hhead⟩
  · exact goesOn_of_quiet hquiet g
  · exact goesOn_star g hg
  · exact hops op hop hpost s' hhead

theorem apart_args {args : List ExpressionTree} (h : ∀ a ∈ args, Separates names a)
    {rest : List (Piece Token)} (hrest : Apart rest) (hcalm : Calm rest) :
    Apart (innerArgs names args ++ rest) := by
  induction args with
  | nil => exact hrest
  | cons a args ih =>
      have ha := h a (by simp)
      cases args with
      | nil => exact ha.operand_calm .assign hrest hcalm
      | cons b args =>
          have hmore := ih fun a ha => h a (List.mem_cons_of_mem _ ha)
          rw [innerArgs, List.append_assoc, List.append_assoc]
          · exact ha.operand_calm .assign (apart_commaBlank.mpr hmore) (calm_glyph (by simp) _)
          · simp

theorem endsInExponent_of_not_takesSign {e : ExpressionTree} {n : Number}
    (h : ¬ e.takesSign names) (hn : e.number names = some n) :
    endsInExponent false n.tail = false := by
  rw [Bool.eq_false_iff]
  exact fun hexponent => h ⟨n, hn, hexponent⟩

/-- In an expression without fusion every token is read in its place. -/
theorem separates_of_unfused {e : ExpressionTree} (hC : e.IsC) (hspelled : e.Spelled)
    (h : e.Unfused names) : Separates names e := by
  induction e using childrenInduct with
  | step e ih =>
  have hin : ∀ c ∈ e.children, Separates names c :=
    fun c hc => ih c hc (hC.all c hc) (hspelled.all c hc) (h.all c hc)
  have hchildren := hC.all
  have hconstants := hspelled.all
  have hconstant := hspelled.here
  have hhere := h.here
  clear ih hC hspelled h
  obtain ⟨ty, kind⟩ := e
  cases kind with
  | binary op x y =>
      have hx := hin x List.mem_cons_self
      have hy := hin y (List.mem_cons_of_mem _ List.mem_cons_self)
      have hprec : binPrec op < Prec.post := (binPrec_lt_unary op).trans (Nat.lt_succ_self _)
      -- Blanks or a comma keep the operator from what is on its left.
      refine .of_calm (Nat.not_le.mpr hprec) fun {rest} hrest hcalm => ?_
      rw [inner]
      split
      · rw [List.append_assoc, List.append_assoc]
        exact hx.operand_calm _ (apart_commaBlank.mpr (hy.operand_calm _ hrest hcalm))
          (calm_glyph (by simp) _)
      · rw [List.append_assoc, List.append_assoc]
        exact hx.operand_calm _ ((apart_spaced (symbol_ne_dot op)).mpr
          (hy.operand_calm _ hrest hcalm)) (calm_spaced _ _)
  | assign op x y =>
      have hx := hin x List.mem_cons_self
      have hy := hin y (List.mem_cons_of_mem _ List.mem_cons_self)
      refine .of_calm (by decide : ¬ Prec.post ≤ Prec.assign) fun {rest} hrest hcalm => ?_
      rw [inner, List.append_assoc, List.append_assoc]
      exact hx.operand_calm _ ((apart_spaced (assign_symbol_ne_dot op)).mpr
        (hy.operand_calm _ hrest hcalm)) (calm_spaced _ _)
  | ternary c t e =>
      have hc := hin c List.mem_cons_self
      have ht := hin t (List.mem_cons_of_mem _ List.mem_cons_self)
      have he := hin e (List.mem_cons_of_mem _ (List.mem_cons_of_mem _ List.mem_cons_self))
      refine .of_calm (by decide : ¬ Prec.post ≤ Prec.ternary) fun {rest} hrest hcalm => ?_
      rw [inner]
      simp only [List.append_assoc]
      have helse := (@apart_spaced .colon (by simp) _).mpr (he.operand_calm .ternary hrest hcalm)
      exact hc.operand_calm _ ((apart_spaced (by simp)).mpr
        (ht.operand_calm _ helse (calm_spaced .colon _))) (calm_spaced .question _)
  | unary op x =>
      have hx := hin x List.mem_cons_self
      rw [UnfusedHere] at hhere
      cases hop : op.isPost with
      | false =>
          -- A prefix operator fuses with one in front of its operand.
          rw [if_neg (by simp [hop])] at hhere
          refine .of_unary (by simp [prec, hop]) (by rw [inner, if_neg (by simp [hop])]) hx
            (hchildren x List.mem_cons_self) (hconstants x List.mem_cons_self)
            (by cases op <;> rfl) fun op' hop' hpost' => ?_
          exact goesOn_of_not_fuses hop hpost' (hhere op' hop')
      | true =>
          -- A sign behind an operand may go on with a number.
          rw [if_pos hop] at hhere
          refine .of_post fun {rest} hrest => ?_
          rw [inner, if_pos hop, List.append_assoc, List.singleton_append]
          refine hx.operand_post ((apart_closed ?_ ?_).mpr hrest) fun n hn s hs => ?_
          · cases op <;> cases hop <;> decide
          · cases op <;> simp [UnaryOp.symbol]
          · rw [endsInExponent_of_not_takesSign hhere hn]
            cases op <;> cases hop <;> obtain rfl := Option.some.inj hs <;> rfl
  | call x args =>
      have hx := hin x List.mem_cons_self
      have hargs : ∀ a ∈ args, Separates names a := fun a ha => hin a (List.mem_cons_of_mem _ ha)
      refine .of_post fun {rest} hrest => ?_
      rw [inner, List.append_assoc, List.cons_append, List.append_assoc, List.singleton_append]
      have hclose : Apart (.token (.glyph .rightParen) :: rest) :=
        (apart_closed rfl (by simp)).mpr hrest
      refine hx.operand_post ((apart_closed rfl (by simp)).mpr
        (apart_args hargs hclose (calm_glyph (by simp) _))) fun n hn s hs => ?_
      obtain rfl := Option.some.inj hs
      cases endsInExponent false n.tail <;> rfl
  | index x i =>
      have hx := hin x List.mem_cons_self
      have hi := hin i (List.mem_cons_of_mem _ List.mem_cons_self)
      refine .of_post fun {rest} hrest => ?_
      rw [inner, List.append_assoc, List.cons_append, List.append_assoc, List.singleton_append]
      have hclose : Apart (.token (.glyph .rightBracket) :: rest) :=
        (apart_closed rfl (by simp)).mpr hrest
      refine hx.operand_post ((apart_closed rfl (by simp)).mpr
        (hi.operand_calm .any hclose (calm_glyph (by simp) _))) fun n hn s hs => ?_
      obtain rfl := Option.some.inj hs
      cases endsInExponent false n.tail <;> rfl
  | memberRef x offset =>
      have hx := hin x List.mem_cons_self
      -- A dot behind a number is part of it.
      have hnone : x.number names = none := hhere
      refine .of_post fun {rest} hrest => ?_
      rw [inner, List.append_assoc]
      refine hx.operand_post (apart_dot_word.mpr hrest) fun n hn => ?_
      rw [hnone] at hn
      cases hn
  | memberPtr x offset =>
      have hx := hin x List.mem_cons_self
      refine .of_post fun {rest} hrest => ?_
      rw [inner, List.append_assoc]
      refine hx.operand_post ((apart_closed rfl (by simp)).mpr (apart_word.mpr hrest))
        fun n hn s hs => ?_
      obtain rfl := Option.some.inj hs
      rw [endsInExponent_of_not_takesSign hhere hn]
      rfl
  | cast x =>
      have hx := hin x List.mem_cons_self
      refine .of_calm (by decide : ¬ Prec.post ≤ Prec.unary) fun {rest} hrest hcalm => ?_
      rw [inner]
      exact (apart_closed rfl (by simp)).mpr (apart_word.mpr ((apart_closed rfl (by simp)).mpr
        (hx.operand_calm .unary hrest hcalm)))
  | deref x size =>
      have hx := hin x List.mem_cons_self
      refine .of_unary (by decide : ¬ Prec.post ≤ Prec.unary) (by rw [inner]) hx
        (hchildren x List.mem_cons_self) (hconstants x List.mem_cons_self) rfl
        fun op _ hpost => goesOn_of_star hpost
  | sizeof x =>
      have hx := hin x List.mem_cons_self
      refine .of_calm (by decide : ¬ Prec.post ≤ Prec.unary) fun {rest} hrest hcalm => ?_
      rw [inner]
      simp only [List.cons_append, List.append_assoc, List.nil_append]
      have hclose : Apart (.token (.glyph .rightParen) :: rest) :=
        (apart_closed rfl (by simp)).mpr hrest
      exact apart_word.mpr ((apart_closed rfl (by simp)).mpr
        (hx.operand_calm .any hclose (calm_glyph (by simp) _)))
  | num v => exact .of_number rfl
  | fnum bits => exact .of_number (if_pos hconstant)
  | obj address name =>
      cases name with
      | none => exact .of_number rfl
      | some name => exact .of_post fun hrest => apart_word.mpr hrest
  | str s | var v | helper s => exact .of_post fun hrest => apart_word.mpr hrest
  | typeExpression => exact .of_post fun hrest => apart_word.mpr hrest
  | empty | internal => exact .of_post fun hrest => hrest

/-! ### What a fusion breaks -/

theorem infix_parenthesize (min p : Prec) (l : List (Piece Token)) :
    l <:+: parenthesize min p l := by
  rw [parenthesize]
  split
  · exact ⟨[_], [_], rfl⟩
  · exact List.infix_rfl

theorem infix_innerArgs {args : List ExpressionTree} {a : ExpressionTree} (ha : a ∈ args) :
    a.inner names <:+: innerArgs names args := by
  induction args with
  | nil => cases ha
  | cons b args ih =>
      have hfirst := infix_parenthesize .assign b.prec (b.inner names)
      cases args with
      | nil => exact List.mem_singleton.mp ha ▸ hfirst
      | cons c args =>
          rw [innerArgs]
          · rcases List.mem_cons.mp ha with rfl | ha
            · exact List.infix_append_of_infix_left (List.infix_append_of_infix_left hfirst)
            · exact List.infix_append_of_infix_right (ih ha)
          · simp

/-- The text of a child is part of the text of its parent. -/
theorem infix_inner {e c : ExpressionTree} (hc : c ∈ e.children) :
    c.inner names <:+: e.inner names := by
  -- Where an operand can stand in the text of its parent.
  have operand (min : Prec) : c.inner names <:+: parenthesize min c.prec (c.inner names) :=
    infix_parenthesize min c.prec (c.inner names)
  have left {l l' : List (Piece Token)} (h : c.inner names <:+: l) : c.inner names <:+: l ++ l' :=
    List.infix_append_of_infix_left h
  have right {l l' : List (Piece Token)} (h : c.inner names <:+: l') : c.inner names <:+: l ++ l' :=
    List.infix_append_of_infix_right h
  have behind {p : Piece Token} {l : List (Piece Token)} (h : c.inner names <:+: l) :
      c.inner names <:+: p :: l := List.infix_cons h
  obtain ⟨ty, kind⟩ := e
  cases kind with
  | binary op x y =>
      rw [inner]
      rcases List.mem_pair.mp hc with rfl | rfl
      · split <;> exact left (left (operand _))
      · split <;> exact right (operand _)
  | assign op x y =>
      rw [inner]
      rcases List.mem_pair.mp hc with rfl | rfl
      · exact left (left (operand _))
      · exact right (operand _)
  | unary op x =>
      rw [inner]
      obtain rfl := List.mem_singleton.mp hc
      split
      · exact left (operand _)
      · exact behind (operand _)
  | ternary x t e =>
      rw [inner]
      rcases List.mem_cons.mp hc with rfl | hc
      · exact left (left (left (left (operand _))))
      · rcases List.mem_pair.mp hc with rfl | rfl
        · exact left (left (right (operand _)))
        · exact right (operand _)
  | call x args =>
      rw [inner]
      rcases List.mem_cons.mp hc with rfl | hc
      · exact left (operand _)
      · exact right (behind (left (infix_innerArgs hc)))
  | index x i =>
      rw [inner]
      rcases List.mem_pair.mp hc with rfl | rfl
      · exact left (operand _)
      · exact right (behind (left (operand _)))
  | memberRef x offset | memberPtr x offset =>
      rw [inner]
      obtain rfl := List.mem_singleton.mp hc
      exact left (operand _)
  | cast x =>
      rw [inner]
      obtain rfl := List.mem_singleton.mp hc
      exact behind (behind (behind (operand _)))
  | deref x size =>
      rw [inner]
      obtain rfl := List.mem_singleton.mp hc
      exact behind (operand _)
  | sizeof x =>
      rw [inner]
      obtain rfl := List.mem_singleton.mp hc
      exact behind (behind (left (operand _)))
  | _ => cases hc

theorem operand_of_number {e : ExpressionTree} {n : Number} (h : e.number names = some n) :
    parenthesize .post e.prec (e.inner names) = [.token (.number n)] := by
  rw [inner_of_number h, parenthesize, if_neg]
  obtain ⟨ty, kind⟩ := e
  cases kind with
  | num v | fnum bits | obj address name => exact (by decide : ¬ Prec.primary < Prec.post)
  | _ => cases h

/-- Two operators that fuse are not read as the two. -/
theorem not_apart_of_fuses {op op' : UnaryOp} (h : op.fuses op' = true)
    {ps : List (Piece Token)} :
    ¬ Apart (.token (.glyph op.symbol) :: .token (.glyph op'.symbol) :: ps) := by
  intro hapart
  obtain ⟨u, rest, hu, hlen⟩ : ∃ (u : Glyph) (rest : List Symbol),
      op.symbol.symbols ++ (op'.symbol.symbols ++ flatten .blank Token.symbols ps) =
        u.symbols ++ rest ∧ op.symbol.symbols.length < u.symbols.length := by
    cases op <;> cases op' <;> cases h
    all_goals first
      | exact ⟨.minusMinus, _, rfl, by decide⟩
      | exact ⟨.ampAmp, _, rfl, by decide⟩
  exact not_munch_glyph hu hlen hapart.1

/-- Where every token is read in its place no two of them fuse. -/
theorem unfusedHere_of_apart {e : ExpressionTree} {rest : List (Piece Token)}
    (h : Apart (e.inner names ++ rest)) : e.UnfusedHere names := by
  obtain ⟨ty, kind⟩ := e
  cases kind with
  | unary op x =>
      rw [UnfusedHere]
      rw [inner] at h
      split
      · next hop =>
          rintro ⟨n, hn, hexponent⟩
          rw [if_pos hop, operand_of_number hn, List.append_assoc] at h
          have hsign := ((apart_number hn).mp h).1
          rw [hexponent] at hsign
          cases op <;> cases hop <;> exact absurd (hsign _ rfl) (by decide)
      · next hop =>
          intro op' hop'
          rw [Bool.eq_false_iff]
          intro hfuses
          obtain ⟨ty', kind'⟩ := x
          cases kind' with
          | unary op'' y =>
              obtain rfl := Option.some.inj hop'
              have hpost : op''.isPost = false := by
                cases op <;> cases op'' <;> first | rfl | cases hfuses
              rw [if_neg hop, parenthesize, if_neg (by simp [prec, hpost]), inner,
                if_neg (by simp [hpost])] at h
              exact not_apart_of_fuses hfuses h
          | _ => cases hop'
  | memberRef x offset =>
      show x.number names = none
      cases hn : x.number names with
      | none => rfl
      | some n =>
          rw [inner, operand_of_number hn, List.append_assoc] at h
          have hdot := ((apart_number hn).mp h).1 (.char '.') rfl
          simp [continuesNumber, isNumberPart] at hdot
  | memberPtr x offset =>
      rintro ⟨n, hn, hexponent⟩
      rw [inner, operand_of_number hn, List.append_assoc] at h
      have hsign := ((apart_number hn).mp h).1 (.char '-') rfl
      simp [continuesNumber, hexponent, isSign] at hsign
  | _ => trivial

theorem unfused_of_apart {e : ExpressionTree} {rest : List (Piece Token)}
    (h : Apart (e.inner names ++ rest)) : e.Unfused names := by
  induction e using childrenInduct generalizing rest with
  | step e ih =>
  refine .mk (unfusedHere_of_apart h) fun c hc => ?_
  obtain ⟨a, b, hab⟩ := @infix_inner names e c hc
  rw [← hab, List.append_assoc, List.append_assoc] at h
  exact ih c hc (Munched.right h)

/-! ### Expressions that are read back -/

theorem none_mem_bareArgs {args : List ExpressionTree} {a : ExpressionTree} (ha : a ∈ args)
    (hnone : none ∈ (a.erase names).bare) : none ∈ bareArgs (eraseArgs names args) := by
  induction args with
  | nil => cases ha
  | cons b args ih =>
      cases args with
      | nil => exact List.mem_singleton.mp ha ▸ hnone
      | cons c args =>
          rw [eraseArgs, eraseArgs, bareArgs]
          · rcases List.mem_cons.mp ha with rfl | ha
            · exact List.mem_append_left _ hnone
            · exact List.mem_append_right _ (List.mem_cons_of_mem _ (ih ha))
          · simp

/-- A constant inside a child is one inside its parent. -/
theorem none_mem_bare {e c : ExpressionTree} (hc : c ∈ e.children)
    (hnone : none ∈ (c.erase names).bare) : none ∈ (e.erase names).bare := by
  obtain ⟨ty, kind⟩ := e
  cases kind with
  | binary op x y | assign op x y =>
      rcases List.mem_pair.mp hc with rfl | rfl <;> simp [erase, CTree.bare, hnone]
  | unary op x =>
      obtain rfl := List.mem_singleton.mp hc
      rw [erase]
      split <;> simp [CTree.bare, hnone]
  | ternary x t e =>
      rcases List.mem_cons.mp hc with rfl | hc
      · simp [erase, CTree.bare, hnone]
      · rcases List.mem_pair.mp hc with rfl | rfl <;> simp [erase, CTree.bare, hnone]
  | call x args =>
      rcases List.mem_cons.mp hc with rfl | hc
      · simp [erase, CTree.bare, hnone]
      · simp [erase, CTree.bare, none_mem_bareArgs hc hnone]
  | index x i =>
      rcases List.mem_pair.mp hc with rfl | rfl <;> simp [erase, CTree.bare, hnone]
  | memberRef x offset | memberPtr x offset | cast x | deref x size | sizeof x =>
      obtain rfl := List.mem_singleton.mp hc
      simp [erase, CTree.bare, hnone]
  | _ => cases hc

theorem spelled_of_none_notMem {e : ExpressionTree} (h : none ∉ (e.erase names).bare) :
    e.Spelled := by
  induction e using childrenInduct with
  | step e ih =>
  refine .mk ?_ fun c hc => ih c hc fun hnone => h (none_mem_bare hc hnone)
  obtain ⟨ty, kind⟩ := e
  cases kind with
  | fnum bits =>
      rw [erase] at h
      split at h
      · next hunsigned => exact hunsigned
      · exact absurd List.mem_cons_self h
  | _ => trivial

/-- The text of an expression of C reads as the expression if and only if its
constants are tokens and no two tokens in it fuse. -/
theorem readText_text_iff {e : ExpressionTree} (h : e.IsC) :
    readText (e.text names) = some (e.erase names) ↔ e.Spelled ∧ e.Unfused names := by
  have hexpr : e.expression names .any = e.inner names ++ [] := by
    rw [expression, parenthesize, if_neg (Nat.not_lt_zero _), List.append_nil]
  constructor
  · intro hread
    have hspelled := spelled_of_none_notMem (none_notMem_of_readText hread)
    rw [text, readText_flatten_iff (readTokens_render h hspelled), hexpr] at hread
    exact ⟨hspelled, unfused_of_apart hread⟩
  · rintro ⟨hspelled, hunfused⟩
    rw [text, readText_flatten_iff (readTokens_render h hspelled), hexpr]
    refine (separates_of_unfused h hspelled hunfused).calm trivial ?_
    intro s hs
    cases hs

/-- Names without a type table: locals and members by number. -/
def plainSpelling : Spelling where
  localName v := 'v' :: Nat.toDigits 10 v
  fieldName _ offset _ := 'f' :: Nat.toDigits 10 offset
  printType _ := ['i', 'n', 't']
  float _ := ⟨'0', [], isDigit_zero, nofun⟩

def negLocal : ExpressionTree := .node 0 (.unary .neg (.node 0 (.var 0)))

theorem isC_negLocal : negLocal.IsC := by
  refine .mk trivial fun c hc => ?_
  obtain rfl := List.mem_singleton.mp hc
  exact .mk trivial nofun

def scaled : ExpressionTree :=
  .node 0 (.binary .fmul negLocal (.node 0 (.fnum 0x3ff8000000000000)))

theorem everywhere_scaled {p : ExpressionTree → Prop} (htop : p scaled) (hneg : p negLocal)
    (hlocal : p (.node 0 (.var 0))) (hnumber : p (.node 0 (.fnum 0x3ff8000000000000))) :
    scaled.Everywhere p := by
  refine .mk htop fun c hc => ?_
  rcases List.mem_pair.mp hc with rfl | rfl
  · refine .mk hneg fun c hc => ?_
    obtain rfl := List.mem_singleton.mp hc
    exact .mk hlocal nofun
  · exact .mk hnumber nofun

theorem readText_text_iff_scaled :
    readText (scaled.text plainSpelling) = some (scaled.erase plainSpelling) :=
  (readText_text_iff (everywhere_scaled trivial trivial trivial trivial)).mpr
    ⟨everywhere_scaled trivial trivial trivial rfl,
      everywhere_scaled trivial (fun op' hop' => by cases hop') trivial trivial⟩

/-- A negation of a negation has the text of a decrement. -/
theorem not_readText_neg_neg :
    (node 0 (.unary .neg negLocal)).IsC ∧
      readText ((node 0 (.unary .neg negLocal)).text plainSpelling) =
        some ((node 0 (.unary .preDec (.node 0 (.var 0)))).erase plainSpelling) ∧
      (node 0 (.unary .preDec (.node 0 (.var 0)))).erase plainSpelling ≠
        (node 0 (.unary .neg negLocal)).erase plainSpelling := by
  refine ⟨.mk trivial fun c hc => ?_, rfl, ?_⟩
  · obtain rfl := List.mem_singleton.mp hc
    exact isC_negLocal
  · simp [erase, negLocal, UnaryOp.isPost, UnaryOp.symbol]

/-- So has the negation of a number with a sign, here of minus one and a half. -/
example : readText ((node 0 (.unary .neg (.node 0 (.fnum 0xbff8000000000000)))).text
    plainSpelling) = some (.unary .minusMinus (.number (plainSpelling.float 0).number)) := rfl

end ExpressionTree

end Idakit.Decompiler
