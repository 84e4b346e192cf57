import Idakit.Library.CExpression.Grammar
import Idakit.Decompiler.Ctree.Node

/-!
The text of an expression. Operators, brackets and numbers are spelled out;
the spellings of names and types are parameters, and each of these is one
token. Of a floating-point number the digits are a parameter; its sign, and
what is written where it is not finite, are not.

An operand is put in parentheses when its own operator binds less tight than
its place asks for.
-/

namespace Idakit.Decompiler

open Idakit.Types Idakit.Library Idakit.Library.CExpression

inductive ExpressionTree
  | node (ty : TypeId) (kind : ExpressionKind ExpressionTree)

namespace ExpressionTree

def ty : ExpressionTree → TypeId
  | .node ty _ => ty

def children : ExpressionTree → List ExpressionTree
  | .node _ kind => kind.children

inductive Everywhere (p : ExpressionTree → Prop) : ExpressionTree → Prop
  | mk {e} (here : p e) (all : ∀ c ∈ e.children, Everywhere p c) : Everywhere p e

end ExpressionTree

/-! ### Glyphs -/

def BinaryOp.symbol : BinaryOp → Glyph
  | .comma => .comma
  | .logOr => .barBar
  | .logAnd => .ampAmp
  | .bitOr => .bar
  | .bitXor => .caret
  | .bitAnd => .amp
  | .eq => .eqEq
  | .ne => .bangEq
  | .sge | .uge => .ge
  | .sle | .ule => .le
  | .sgt | .ugt => .gt
  | .slt | .ult => .lt
  | .sshr | .ushr => .shr
  | .shl => .shl
  | .add | .fadd => .plus
  | .sub | .fsub => .minus
  | .mul | .fmul => .star
  | .sdiv | .udiv | .fdiv => .slash
  | .smod | .umod => .percent

def AssignmentOp.symbol : AssignmentOp → Glyph
  | .assign => .eq
  | .bitOrAssign => .barEq
  | .bitXorAssign => .caretEq
  | .bitAndAssign => .ampEq
  | .addAssign => .plusEq
  | .subAssign => .minusEq
  | .mulAssign => .starEq
  | .sshrAssign | .ushrAssign => .shrEq
  | .shlAssign => .shlEq
  | .sdivAssign | .udivAssign => .slashEq
  | .smodAssign | .umodAssign => .percentEq

/-- What stands in front and what stands behind share glyphs. -/
def UnaryOp.symbol : UnaryOp → Glyph
  | .fNeg | .neg => .minus
  | .logNot => .bang
  | .bitNot => .tilde
  | .ref => .amp
  | .preInc | .postInc => .plusPlus
  | .preDec | .postDec => .minusMinus

def UnaryOp.isPost : UnaryOp → Bool
  | .postInc | .postDec => true
  | .fNeg | .neg | .logNot | .bitNot | .ref | .preInc | .preDec => false

/-! ### Precedence -/

abbrev Prec := ℕ

namespace Prec

abbrev any : Prec := 0
abbrev comma : Prec := 1
abbrev assign : Prec := 2
abbrev ternary : Prec := 3
abbrev logOr : Prec := 4
abbrev logAnd : Prec := 5
abbrev bitOr : Prec := 6
abbrev bitXor : Prec := 7
abbrev bitAnd : Prec := 8
abbrev eq : Prec := 9
abbrev rel : Prec := 10
abbrev shift : Prec := 11
abbrev add : Prec := 12
abbrev mul : Prec := 13
abbrev unary : Prec := 14
abbrev post : Prec := 15
abbrev primary : Prec := 16

/-- What an operand must bind to stand against an equal operator. -/
abbrev tighter (p : Prec) : Prec := p + 1

end Prec

def binPrec : BinaryOp → Prec
  | .comma => .comma
  | .logOr => .logOr
  | .logAnd => .logAnd
  | .bitOr => .bitOr
  | .bitXor => .bitXor
  | .bitAnd => .bitAnd
  | .eq | .ne => .eq
  | .sge | .uge | .sle | .ule | .sgt | .ugt | .slt | .ult => .rel
  | .sshr | .ushr | .shl => .shift
  | .add | .sub | .fadd | .fsub => .add
  | .mul | .sdiv | .udiv | .smod | .umod | .fmul | .fdiv => .mul

/-- The precedence of the operator of an expression; a leaf has the highest. -/
def ExpressionTree.prec : ExpressionTree → Prec
  | .node _ (.binary op _ _) => binPrec op
  | .node _ (.assign _ _ _) => .assign
  | .node _ (.ternary _ _ _) => .ternary
  | .node _ (.unary op _) => if op.isPost then .post else .unary
  | .node _ (.call _ _) | .node _ (.index _ _) | .node _ (.memberRef _ _)
  | .node _ (.memberPtr _ _) => .post
  | .node _ (.cast _) | .node _ (.deref _ _) | .node _ (.sizeof _) => .unary
  | .node _ (.num _) | .node _ (.fnum _) | .node _ (.str _) | .node _ (.obj _ _)
  | .node _ (.var _) | .node _ (.helper _) | .node _ .typeExpression | .node _ .empty
  | .node _ .internal => .primary

/-! ### Leaves -/

structure Decimal where
  first : Char
  tail : List Char
  isDigit : first.isDigit = true
  isDecimal : ∀ c ∈ tail, c.isDigit = true ∨ c = '.'

/-- How the leaves whose spelling is not fixed are spelled. -/
structure Spelling where
  localName : LocalId → Text
  /-- The member at an offset of a type, or of what the type points to. -/
  fieldName : TypeId → ℕ → Bool → Text
  printType : TypeId → Text
  /-- The digits of a finite floating-point number, without its sign. -/
  float : UInt64 → Decimal

def numberOf (first : Char) (tail : List Char) (h : first.isDigit = true) : Number :=
  ⟨first, tail.map .char, .inl h, by simp⟩

theorem isDigit_zero : '0'.isDigit = true := rfl

def hexNumber (n : ℕ) : Number := numberOf '0' ('x' :: Nat.toDigits 16 n) rfl

theorem isDigit_digitChar_of_lt {n : ℕ} (h : n < 10) : n.digitChar.isDigit = true := by
  simpa [Nat.isDigit_digitChar] using h

/-- Numbers below ten are decimal, the others hexadecimal. -/
def intNumber (v : UInt64) : Number :=
  if h : v.toNat < 10 then numberOf v.toNat.digitChar [] (isDigit_digitChar_of_lt h)
  else hexNumber v.toNat

def Decimal.number (d : Decimal) : Number := numberOf d.first d.tail d.isDigit

def isSignNegative (bits : UInt64) : Bool := bits >>> 63 == 1

-- The bits of the exponent of what is not finite are all set.
def isFinite (bits : UInt64) : Bool := (bits >>> 52) &&& 0x7ff != 0x7ff

def isNan (bits : UInt64) : Bool := !isFinite bits && bits &&& 0xfffffffffffff != 0

def isUnsigned (bits : UInt64) : Bool := isFinite bits && !isSignNegative bits

/-! ### Rendering -/

/-- The text of an operand, in parentheses when it binds less tight than its
place asks for. -/
def parenthesize (min p : Prec) (l : List (Piece Token)) : List (Piece Token) :=
  if p < min then .token (.glyph .leftParen) :: l ++ [.token (.glyph .rightParen)] else l

def spaced (g : Glyph) : List (Piece Token) := [.blank, .token (.glyph g), .blank]

def commaBlank : List (Piece Token) := [.token (.glyph .comma), .blank]

/-- The text of a floating-point number, which may have a minus sign; only what
is not a number has none. -/
def floatText (names : Spelling) (bits : UInt64) : List (Piece Token) :=
  if isNan bits then [.token (.word (.name ['N', 'a', 'N']))]
  else
    (if isSignNegative bits then [.token (.glyph .minus)] else []) ++
      [if isFinite bits then .token (.number (names.float bits).number)
        else .token (.word (.name ['i', 'n', 'f']))]

namespace ExpressionTree

variable (names : Spelling)

mutual

/-- The text of an expression without parentheses around it. -/
def inner : ExpressionTree → List (Piece Token)
  | .node _ (.binary op x y) =>
      if op = .comma then
        parenthesize .comma x.prec x.inner ++ commaBlank ++
          parenthesize (Prec.comma.tighter) y.prec y.inner
      else
        parenthesize (binPrec op) x.prec x.inner ++ spaced op.symbol ++
          parenthesize (binPrec op).tighter y.prec y.inner
  | .node _ (.assign op x y) =>
      parenthesize (Prec.assign.tighter) x.prec x.inner ++ spaced op.symbol ++
        parenthesize .assign y.prec y.inner
  | .node _ (.unary op x) =>
      if op.isPost then parenthesize .post x.prec x.inner ++ [.token (.glyph op.symbol)]
      else .token (.glyph op.symbol) :: parenthesize .unary x.prec x.inner
  | .node _ (.ternary cond then_ else_) =>
      parenthesize (Prec.ternary.tighter) cond.prec cond.inner ++ spaced .question ++
        parenthesize .any then_.prec then_.inner ++ spaced .colon ++
        parenthesize .ternary else_.prec else_.inner
  | .node _ (.call callee args) =>
      parenthesize .post callee.prec callee.inner ++ .token (.glyph .leftParen) ::
        (innerArgs args ++ [.token (.glyph .rightParen)])
  | .node _ (.index array index) =>
      parenthesize .post array.prec array.inner ++ .token (.glyph .leftBracket) ::
        (parenthesize .any index.prec index.inner ++ [.token (.glyph .rightBracket)])
  | .node _ (.memberRef obj offset) =>
      parenthesize .post obj.prec obj.inner ++
        [.token (.glyph .dot), .token (.word (.name (names.fieldName obj.ty offset false)))]
  | .node _ (.memberPtr obj offset) =>
      parenthesize .post obj.prec obj.inner ++
        [.token (.glyph .arrow), .token (.word (.name (names.fieldName obj.ty offset true)))]
  | .node ty (.cast x) =>
      .token (.glyph .leftParen) :: .token (.word (.type (names.printType ty))) ::
        .token (.glyph .rightParen) :: parenthesize .unary x.prec x.inner
  | .node _ (.deref x _) => .token (.glyph .star) :: parenthesize .unary x.prec x.inner
  | .node _ (.sizeof x) =>
      .token (.word .sizeof) :: .token (.glyph .leftParen) ::
        (parenthesize .any x.prec x.inner ++ [.token (.glyph .rightParen)])
  | .node _ (.num v) => [.token (.number (intNumber v))]
  | .node _ (.fnum bits) => floatText names bits
  | .node _ (.str s) => [.token (.word (.string s))]
  | .node _ (.obj _ (some name)) => [.token (.word (.name name))]
  | .node _ (.obj address none) => [.token (.number (hexNumber address.raw.toNat))]
  | .node _ (.var v) => [.token (.word (.name (names.localName v)))]
  | .node _ (.helper s) => [.token (.word (.name s))]
  | .node ty .typeExpression => [.token (.word (.type (names.printType ty)))]
  -- The text of the second one is a comment.
  | .node _ .empty | .node _ .internal => []

def innerArgs : List ExpressionTree → List (Piece Token)
  | [] => []
  | [a] => parenthesize .assign a.prec a.inner
  | a :: args => parenthesize .assign a.prec a.inner ++ commaBlank ++ innerArgs args

end

def expression (min : Prec) (e : ExpressionTree) : List (Piece Token) :=
  parenthesize min e.prec (e.inner names)

def text (e : ExpressionTree) : List Symbol :=
  flatten .blank Token.symbols (e.expression names .any)

/-! ### What should be read back -/

mutual

/-- The expression without what its glyphs do not tell. A floating-point number
is a constant; C has no token for one with a sign, or for one that is not
finite. -/
def erase : ExpressionTree → CTree
  | .node _ (.binary op x y) => .binary op.symbol x.erase y.erase
  | .node _ (.assign op x y) => .binary op.symbol x.erase y.erase
  | .node _ (.unary op x) =>
      if op.isPost then .post op.symbol x.erase else .unary op.symbol x.erase
  | .node _ (.ternary cond then_ else_) => .ternary cond.erase then_.erase else_.erase
  | .node _ (.call callee args) => .call callee.erase (eraseArgs args)
  | .node _ (.index array index) => .index array.erase index.erase
  | .node _ (.memberRef obj offset) =>
      .member .dot obj.erase (names.fieldName obj.ty offset false)
  | .node _ (.memberPtr obj offset) =>
      .member .arrow obj.erase (names.fieldName obj.ty offset true)
  | .node ty (.cast x) => .cast (names.printType ty) x.erase
  | .node _ (.deref x _) => .unary .star x.erase
  | .node _ (.sizeof x) => .sizeof x.erase
  | .node _ (.num v) => .number (intNumber v)
  | .node _ (.fnum bits) =>
      if isUnsigned bits then .number (names.float bits).number else .constant
  | .node _ (.str s) => .word (.string s)
  | .node _ (.obj _ (some name)) => .word (.name name)
  | .node _ (.obj address none) => .number (hexNumber address.raw.toNat)
  | .node _ (.var v) => .word (.name (names.localName v))
  | .node _ (.helper s) => .word (.name s)
  | .node ty .typeExpression => .word (.type (names.printType ty))
  -- Not expressions of C.
  | .node _ .empty | .node _ .internal => .word (.name [])

def eraseArgs : List ExpressionTree → List CTree
  | [] => []
  | a :: args => a.erase :: eraseArgs args

end

attribute [grind =] inner innerArgs erase eraseArgs

def IsCHere : ExpressionTree → Prop
  | .node _ .typeExpression | .node _ .empty | .node _ .internal => False
  | _ => True

/-- An expression of C operators, calls, casts, member accesses and leaves. -/
def IsC : ExpressionTree → Prop := Everywhere IsCHere

def SpelledHere : ExpressionTree → Prop
  | .node _ (.fnum bits) => isUnsigned bits = true
  | _ => True

/-- An expression whose constants are tokens: its floating-point numbers are
finite and have no sign. -/
def Spelled : ExpressionTree → Prop := Everywhere SpelledHere

end ExpressionTree

end Idakit.Decompiler
