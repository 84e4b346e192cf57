import Idakit.Library.MaximalMunch

/-!
The tokens of C expressions and the longest-match rule that reads them.

An identifier, a keyword, a string or the name of a type is one symbol of the
text; punctuators and numbers are spelled in characters. A number is what C
calls a preprocessing number: once begun it goes on over letters, digits,
dots and identifiers, and over a sign behind an exponent letter.
-/

namespace Idakit.Library.CExpression

/-! ### Punctuators -/

/-- The punctuators, and what opens a comment. -/
inductive Glyph
  | leftBracket | rightBracket | leftParen | rightParen | leftBrace | rightBrace | dot | arrow
  | plusPlus | minusMinus | amp | star | plus | minus | tilde | bang | slash | percent
  | shl | shr | lt | gt | le | ge | eqEq | bangEq | caret | bar | ampAmp | barBar
  | question | colon | semicolon | ellipsis | eq | starEq | slashEq | percentEq | plusEq
  | minusEq | shlEq | shrEq | ampEq | caretEq | barEq | comma | hash | hashHash
  | ltColon | colonGt | ltPercent | percentGt | percentColon | percentColonTwice
  | lineComment | blockComment
  deriving DecidableEq

namespace Glyph

def spelling : Glyph → List Char
  | leftBracket => ['['] | rightBracket => [']'] | leftParen => ['('] | rightParen => [')']
  | leftBrace => ['{'] | rightBrace => ['}'] | dot => ['.'] | arrow => ['-', '>']
  | plusPlus => ['+', '+'] | minusMinus => ['-', '-'] | amp => ['&'] | star => ['*']
  | plus => ['+'] | minus => ['-'] | tilde => ['~'] | bang => ['!'] | slash => ['/']
  | percent => ['%'] | shl => ['<', '<'] | shr => ['>', '>'] | lt => ['<'] | gt => ['>']
  | le => ['<', '='] | ge => ['>', '='] | eqEq => ['=', '='] | bangEq => ['!', '=']
  | caret => ['^'] | bar => ['|'] | ampAmp => ['&', '&'] | barBar => ['|', '|']
  | question => ['?'] | colon => [':'] | semicolon => [';'] | ellipsis => ['.', '.', '.']
  | eq => ['='] | starEq => ['*', '='] | slashEq => ['/', '='] | percentEq => ['%', '=']
  | plusEq => ['+', '='] | minusEq => ['-', '='] | shlEq => ['<', '<', '=']
  | shrEq => ['>', '>', '='] | ampEq => ['&', '='] | caretEq => ['^', '='] | barEq => ['|', '=']
  | comma => [','] | hash => ['#'] | hashHash => ['#', '#'] | ltColon => ['<', ':']
  | colonGt => [':', '>'] | ltPercent => ['<', '%'] | percentGt => ['%', '>']
  | percentColon => ['%', ':'] | percentColonTwice => ['%', ':', '%', ':']
  | lineComment => ['/', '/'] | blockComment => ['/', '*']

def all : List Glyph :=
  [percentColonTwice, ellipsis, shlEq, shrEq, arrow, plusPlus, minusMinus, shl, shr, le, ge, eqEq,
    bangEq, ampAmp, barBar, starEq, slashEq, percentEq, plusEq, minusEq, ampEq, caretEq, barEq,
    hashHash, ltColon, colonGt, ltPercent, percentGt, percentColon, lineComment, blockComment,
    leftBracket, rightBracket, leftParen, rightParen, leftBrace, rightBrace, dot, amp, star, plus,
    minus, tilde, bang, slash, percent, lt, gt, caret, bar, question, colon, semicolon, eq, comma,
    hash]

end Glyph

/-! ### Symbols and tokens -/

/-- A symbol that is a token by itself. -/
inductive Word
  | sizeof
  | name (s : List Char)
  | string (s : List Char)
  | type (s : List Char)
  deriving DecidableEq

inductive Symbol
  | blank
  | char (c : Char)
  | word (w : Word)
  deriving DecidableEq

def startsNumber (c : Char) : Prop := c.isDigit = true ∨ c = '.'

structure Number where
  first : Char
  tail : List Symbol
  starts : startsNumber first
  blank_notMem : .blank ∉ tail
  deriving DecidableEq

inductive Token
  | glyph (g : Glyph)
  | number (n : Number)
  | word (w : Word)
  deriving DecidableEq

def Glyph.symbols (g : Glyph) : List Symbol := g.spelling.map .char

def Number.symbols (n : Number) : List Symbol := .char n.first :: n.tail

def Token.symbols : Token → List Symbol
  | .glyph g => g.symbols
  | .number n => n.symbols
  | .word w => [.word w]

/-! ### The longest match -/

/-- A sign is part of a number behind one of these. -/
def isExponent : Symbol → Bool
  | .char c => c = 'e' || c = 'E' || c = 'p' || c = 'P'
  | _ => false

def isNumberPart : Symbol → Bool
  | .char c => c.isAlphanum || c = '_' || c = '.'
  | .word (.string _) | .blank => false
  | .word _ => true

def isSign : Symbol → Bool
  | .char c => c = '+' || c = '-'
  | _ => false

/-- A number goes on with a symbol, behind an exponent letter or not. -/
def continuesNumber (exponent : Bool) (s : Symbol) : Bool :=
  isNumberPart s || (exponent && isSign s)

def numberTail (exponent : Bool) : List Symbol → List Symbol × List Symbol
  | [] => ([], [])
  | s :: text =>
      if continuesNumber exponent s then
        (s :: (numberTail (isExponent s) text).1, (numberTail (isExponent s) text).2)
      else ([], s :: text)

def startsDigit : List Symbol → Bool
  | .char c :: _ => c.isDigit
  | _ => false

theorem blank_notMem_numberTail (exponent : Bool) (text : List Symbol) :
    .blank ∉ (numberTail exponent text).1 := by
  induction text generalizing exponent with
  | nil => simp [numberTail]
  | cons s text ih =>
      rw [numberTail]
      split
      · next hs =>
          rintro (_ | ⟨_, hmem⟩)
          · simp [continuesNumber, isNumberPart, isSign] at hs
          · exact ih _ hmem
      · simp

theorem startsNumber_of_or {c : Char} {p : Prop} (h : c.isDigit = true ∨ c = '.' ∧ p) :
    startsNumber c :=
  h.imp_right And.left

/-- The longest token in front of a text, and what follows it. -/
def munch : List Symbol → Option (Token × List Symbol)
  | .blank :: _ | [] => none
  | .word w :: text => some (.word w, text)
  | .char c :: text =>
      if h : c.isDigit = true ∨ c = '.' ∧ startsDigit text = true then
        some (.number ⟨c, (numberTail false text).1, startsNumber_of_or h,
          blank_notMem_numberTail false text⟩, (numberTail false text).2)
      else
        (firstEntry Glyph.symbols Glyph.all (.char c :: text)).map fun g =>
          (.glyph g, (Symbol.char c :: text).drop g.symbols.length)

def tokenize (text : List Symbol) : Option (List Token) := lex .blank munch text.length text

/-! ### The dictionary of punctuators -/

namespace Glyph

theorem mem_all (g : Glyph) : g ∈ all := by
  cases g <;> decide

theorem all_sorted : all.Pairwise fun g h => h.symbols.length ≤ g.symbols.length := by
  decide

theorem symbols_injective : Function.Injective symbols := by
  have hall : ∀ g ∈ all, ∀ h ∈ all, g.symbols = h.symbols → g = h := by decide
  exact fun g h hgh => hall g g.mem_all h h.mem_all hgh

theorem symbols_eq_cons (g : Glyph) : ∃ c l, g.symbols = .char c :: l ∧ c.isDigit = false ∧
    (c = '.' → g = .dot ∧ l = [] ∨ ∀ rest, startsDigit (l ++ rest) = false) := by
  cases g with
  | dot => exact ⟨_, _, rfl, rfl, fun _ => .inl ⟨rfl, rfl⟩⟩
  | ellipsis => exact ⟨_, _, rfl, rfl, fun _ => .inr fun _ => rfl⟩
  | _ => exact ⟨_, _, rfl, by decide, fun h => absurd h (by decide)⟩

theorem blank_notMem_symbols (g : Glyph) : .blank ∉ g.symbols := by
  simp [symbols]

/-- Some punctuator goes on with a symbol behind this one. -/
def goesOn (g : Glyph) (s : Symbol) : Bool := Library.goesOn symbols all g s

/-- Only a character can go on. -/
theorem exists_char_of_goesOn {g : Glyph} {s : Symbol} (h : g.goesOn s = true) :
    ∃ c, s = .char c := by
  obtain ⟨u, -, hu⟩ := List.any_eq_true.mp h
  have hmem : s ∈ u.symbols := (List.isPrefixOf_iff_prefix.mp hu).subset (by simp)
  obtain ⟨c, -, hc⟩ := List.mem_map.mp hmem
  exact ⟨c, hc.symm⟩

/-- No digit is part of a punctuator. -/
theorem goesOn_digit {c : Char} (hc : c.isDigit = true) (g : Glyph) :
    g.goesOn (.char c) = false := by
  have hall : (all.all fun u => u.spelling.all fun c => !c.isDigit) = true := by decide
  rw [Bool.eq_false_iff]
  intro h
  obtain ⟨u, hu, hstart⟩ := List.any_eq_true.mp h
  have hmem : .char c ∈ u.symbols := (List.isPrefixOf_iff_prefix.mp hstart).subset (by simp)
  obtain ⟨c', hc', hcc⟩ := List.mem_map.mp hmem
  obtain rfl := Symbol.char.inj hcc
  have hdigit : c'.isDigit = false := by
    simpa using List.all_eq_true.mp (List.all_eq_true.mp hall u hu) c' hc'
  simp [hdigit] at hc

/-- No longer punctuator begins with this one. -/
def closed (g : Glyph) : Bool :=
  all.all fun u => !g.symbols.isPrefixOf u.symbols || u.symbols.length ≤ g.symbols.length

theorem goesOn_of_closed {g : Glyph} (hg : g.closed = true) (s : Symbol) : g.goesOn s = false := by
  rw [Bool.eq_false_iff]
  intro h
  obtain ⟨u, hu, hstart⟩ := List.any_eq_true.mp h
  obtain ⟨l, hl⟩ := List.isPrefixOf_iff_prefix.mp hstart
  have hcases := List.all_eq_true.mp hg u hu
  have hpre : g.symbols.isPrefixOf u.symbols = true :=
    List.isPrefixOf_iff_prefix.mpr ⟨[s] ++ l, by rw [← List.append_assoc, hl]⟩
  have hlen := congrArg List.length hl
  simp only [hpre, Bool.not_true, Bool.false_or, decide_eq_true_eq] at hcases
  simp only [List.length_append, List.length_singleton] at hlen
  omega

end Glyph

/-! ### Numbers -/

theorem numberTail_append (exponent : Bool) (text : List Symbol) :
    (numberTail exponent text).1 ++ (numberTail exponent text).2 = text := by
  induction text generalizing exponent with
  | nil => rfl
  | cons s text ih =>
      rw [numberTail]
      split
      · rw [List.cons_append, ih]
      · rfl

/-- The last symbol of a number, or what stood before it, is an exponent letter. -/
def endsInExponent (exponent : Bool) (l : List Symbol) : Bool :=
  (l.getLast?.map isExponent).getD exponent

/-- Parts of a number are all of it exactly if what follows does not go on. -/
theorem numberTail_eq_iff {exponent : Bool} {l rest : List Symbol}
    (hl : ∀ s ∈ l, isNumberPart s = true) :
    numberTail exponent (l ++ rest) = (l, rest) ↔
      ∀ s ∈ rest.head?, continuesNumber (endsInExponent exponent l) s = false := by
  induction l generalizing exponent with
  | nil =>
      cases rest with
      | nil => simp [numberTail]
      | cons s rest =>
          simp only [List.nil_append, numberTail, List.head?_cons, Option.mem_def,
            Option.some.injEq, forall_eq', endsInExponent, List.getLast?_nil, Option.map_none,
            Option.getD_none]
          split
          · next hs => simp [hs]
          · next hs => simpa using hs
  | cons s l ih =>
      have hs : continuesNumber exponent s = true := by simp [continuesNumber, hl s (by simp)]
      have hlast : endsInExponent exponent (s :: l) = endsInExponent (isExponent s) l := by
        cases l with
        | nil => rfl
        | cons s' l => rfl
      rw [List.cons_append, numberTail, if_pos hs, hlast,
        ← ih fun s hs => hl s (List.mem_cons_of_mem _ hs)]
      simp only [Prod.ext_iff, List.cons.injEq, true_and]

/-! ### What is read -/

theorem munches : Munches .blank Token.symbols munch where
  spell_append := by
    intro text t rest h
    match text with
    | [] => cases h
    | .blank :: _ => cases h
    | .word w :: text => cases h; rfl
    | .char c :: text =>
        rw [munch] at h
        split at h
        · obtain ⟨rfl, rfl⟩ := Prod.mk.inj (Option.some.inj h)
          exact congrArg (.char c :: ·) (numberTail_append false text)
        · obtain ⟨g, hg, hgt⟩ := Option.map_eq_some_iff.mp h
          obtain ⟨rfl, rfl⟩ := Prod.mk.inj hgt
          show g.symbols ++ _ = _
          exact spell_of_firstEntry hg
  spell_ne_nil := by
    rintro (g | n | w)
    · obtain ⟨c, l, hg, -⟩ := g.symbols_eq_cons
      simp [Token.symbols, hg]
    · exact List.cons_ne_nil _ _
    · exact List.cons_ne_nil _ _
  blank_notMem := by
    rintro (g | n | w)
    · exact g.blank_notMem_symbols
    · simpa [Token.symbols, Number.symbols] using n.blank_notMem
    · simp [Token.symbols]

/-- A punctuator that nothing behind it extends is read. -/
theorem munch_glyph {g : Glyph} {rest : List Symbol}
    (hrest : ∀ s ∈ rest.head?, g.goesOn s = false) (hdot : g = .dot → startsDigit rest = false) :
    munch (g.symbols ++ rest) = some (.glyph g, rest) := by
  obtain ⟨c, l, hg, hc, hcdot⟩ := g.symbols_eq_cons
  have hentry := firstEntry_spell Glyph.all_sorted Glyph.symbols_injective g.mem_all hrest
  have hnumber : ¬ (c.isDigit = true ∨ c = '.' ∧ startsDigit (l ++ rest) = true) := by
    rintro (h | ⟨h, hdigit⟩)
    · simp [hc] at h
    · rcases hcdot h with ⟨rfl, rfl⟩ | hno
      · simp [hdot rfl] at hdigit
      · simp [hno rest] at hdigit
  rw [hg, List.cons_append] at hentry
  rw [hg, List.cons_append, munch, dif_neg hnumber, hentry, Option.map_some, hg,
    ← List.cons_append, List.drop_left]

/-- A punctuator is not read where a longer one stands. -/
theorem not_munch_glyph {g u : Glyph} {rest rest' : List Symbol}
    (hu : g.symbols ++ rest = u.symbols ++ rest') (hlen : g.symbols.length < u.symbols.length) :
    munch (g.symbols ++ rest) ≠ some (.glyph g, rest) := by
  obtain ⟨c, l, hg, -⟩ := g.symbols_eq_cons
  intro h
  rw [hg, List.cons_append, munch] at h
  split at h
  · cases h
  · obtain ⟨g', hentry, hg'⟩ := Option.map_eq_some_iff.mp h
    obtain rfl := Token.glyph.inj (Prod.mk.inj hg').1
    rw [← List.cons_append, ← hg, hu] at hentry
    have hle := length_le_of_firstEntry Glyph.all_sorted hentry u.mem_all (by simp)
    omega

/-- A number is read exactly if nothing behind it goes on with it. -/
theorem munch_number_iff {n : Number} (hfirst : n.first.isDigit = true)
    (htail : ∀ s ∈ n.tail, isNumberPart s = true) (rest : List Symbol) :
    munch (n.symbols ++ rest) = some (.number n, rest) ↔
      ∀ s ∈ rest.head?, continuesNumber (endsInExponent false n.tail) s = false := by
  obtain ⟨first, tail, hstarts, hblank⟩ := n
  rw [← numberTail_eq_iff htail, Number.symbols, List.cons_append, munch, dif_pos (.inl hfirst)]
  simp only [Option.some.injEq, Prod.ext_iff, Token.number.injEq, Number.mk.injEq, true_and]

end Idakit.Library.CExpression
