import Idakit.Facade.Recipe
import Idakit.Library.Imperative

/-!
The interpreter of a recipe's bytes, with the memory that it works on: a
buffer that is read at a cursor, a vector as the stack, and arithmetic in
`size_t`. An access outside of the bounds is a fault of its own, so that it
is not confused with an error that is returned.

The kernel's constructors are parameters; each may refuse.
-/

namespace Idakit.Facade.RecipeMachine

open Idakit.Library Idakit.Library.Stmt Idakit.Types

inductive SimpleType
  | void
  | bool
  | int (bytes : ℕ) (signed : Bool)
  | float
  | double

structure FuncTypeData (τ : Type) where
  rettype : τ
  args : List (Funcarg τ)
  cc : Callcnv

structure Constructors (τ : Type) where
  createSimpleType : SimpleType → Option τ
  getNamedType : List UInt8 → Option τ
  parseDecl : List UInt8 → Option τ
  createPtr : τ → Option τ
  createArray : τ → ℕ → Option τ
  setConst : τ → τ
  setVolatile : τ → τ
  createFunc : FuncTypeData τ → Option τ
  createBitfield : UInt8 → UInt8 → Bool → Option τ

/-- The cursor and the stack, whose top is its last entry. -/
structure Machine (τ : Type) where
  pos : ℕ
  ok : Bool
  stack : List τ

def Machine.start {τ : Type} : Machine τ := ⟨0, true, []⟩

/-- A statement of a function that returns a code, and on success a type. -/
abbrev Code (τ : Type) := Stmt (Machine τ) (ℤ × Option τ)

def typeOk : ℤ := 0
def typeErrInput : ℤ := 1

/-- A slice that Rust hands over: of `isize::MAX` bytes at most. -/
structure Slice where
  bytes : List UInt8
  fits : bytes.length < 2 ^ 63

/-! ### Arithmetic -/

def sizeAdd (a b : ℕ) : ℕ := (a + b) % 2 ^ 64

def sizeSub (a b : ℕ) : ℕ := (a + 2 ^ 64 - b) % 2 ^ 64

/-! ### The reader -/

section

variable {τ : Type} (p : List UInt8)

def hasMore (m : Machine τ) : Bool := m.ok && decide (m.pos < p.length)

def u8 : Code τ UInt8 := do
  let m ← get
  if p.length < sizeAdd m.pos 1 then do
    set { m with ok := false }
    return 0
  else do
    let b ← access p[m.pos]?
    set { m with pos := sizeAdd m.pos 1 }
    return b

def uintLe (n : ℕ) : Code τ ℕ := do
  let m ← get
  if p.length < sizeAdd m.pos n then do
    set { m with ok := false }
    return 0
  else
    forUpTo n (fun _ => true) 0 fun i v => do
      let m ← get
      let b ← access p[m.pos]?
      set { m with pos := sizeAdd m.pos 1 }
      -- Eight bytes at most are read, so that no bit is shifted out.
      return v ||| b.toNat <<< (8 * i)

def slice (pos n : ℕ) : Option (List UInt8) :=
  if pos + n ≤ p.length then some ((p.drop pos).take n) else none

def str (out : List UInt8) : Code τ (Bool × List UInt8) := do
  let n ← uintLe p 4
  let m ← get
  if m.ok = false ∨ p.length < sizeAdd m.pos n then do
    set { m with ok := false }
    return (false, out)
  else do
    let out ← access (slice p m.pos n)
    set { m with pos := sizeAdd m.pos n }
    return (true, out)

end

/-! ### The stack -/

section

variable {τ : Type}

def pushBack (t : τ) : Code τ Unit := do
  let m ← get
  set { m with stack := m.stack ++ [t] }

def back : Code τ τ := do
  let m ← get
  access m.stack.getLast?

def popBack : Code τ Unit := do
  let m ← get
  let stack ← access (if m.stack.isEmpty then none else some m.stack.dropLast)
  set { m with stack := stack }

def entry (i : ℕ) : Code τ τ := do
  let m ← get
  access m.stack[i]?

def mutateBack (f : τ → τ) : Code τ Unit := do
  let t ← back
  let m ← get
  set { m with stack := m.stack.dropLast ++ [f t] }

def resize (n : ℕ) : Code τ Unit := do
  let m ← get
  let stack ← access (if n ≤ m.stack.length then some (m.stack.take n) else none)
  set { m with stack := stack }

def errInput {α : Type} : Code τ α := ret (typeErrInput, none)

def built (o : Option τ) : Code τ τ :=
  match o with
  | some t => pure t
  | none => errInput

def require (p : Prop) [Decidable p] : Code τ Unit := if p then pure ⟨⟩ else errInput

end

/-! ### The interpreter -/

section

variable {τ : Type} (k : Constructors τ) (p : List UInt8)

def buildInt (bytes : ℕ) (signed : Bool) : Option τ :=
  if bytes ∈ [1, 2, 4, 8, 16] then k.createSimpleType (.int bytes signed) else none

def buildFloat (bytes : ℕ) : Option τ :=
  if bytes = 4 then k.createSimpleType .float
  else if bytes = 8 then k.createSimpleType .double
  else none

/-- The return type lies just below the parameters. -/
def recipeFunctionStep : Code τ Unit := do
  let nparams ← uintLe p 4
  let varargs ← u8 p
  let cc ← uintLe p 2
  let m ← get
  -- Every name costs the four bytes of its length at least.
  require (m.ok = true ∧ nparams ≤ sizeSub p.length m.pos / 4)
  let names ← forUpTo nparams Machine.ok (List.replicate nparams []) fun i names => do
    let name ← access names[i]?
    let (_, name) ← str p name
    return names.set i name
  let m ← get
  require (m.ok = true ∧ sizeAdd nparams 1 ≤ m.stack.length)
  let base := sizeSub m.stack.length nparams
  let rettype ← entry (sizeSub base 1)
  let args ← forUpTo nparams (fun _ => true) [] fun i args => do
    let type ← entry (sizeAdd base i)
    let name ← access names[i]?
    return args ++ [(⟨cStr name, type⟩ : Funcarg τ)]
  resize (sizeSub base 1)
  let conv : Callcnv := if varargs ≠ 0 then .ellipsis else if cc ≠ 0 then .code cc else .unset
  let t ← built (k.createFunc ⟨rettype, args, conv⟩)
  pushBack t

def recipeStep (op : UInt8) : Code τ Unit :=
  if op = recipeVoid then do
    let t ← built (k.createSimpleType .void)
    pushBack t
  else if op = recipeBool then do
    let t ← built (k.createSimpleType .bool)
    pushBack t
  else if op = recipeInt then do
    let bytes ← u8 p
    let signed ← u8 p
    let m ← get
    require (m.ok = true)
    let t ← built (buildInt k bytes.toNat (signed != 0))
    pushBack t
  else if op = recipeFloat then do
    let bytes ← u8 p
    let m ← get
    require (m.ok = true)
    let t ← built (buildFloat k bytes.toNat)
    pushBack t
  else if op = recipeNamed then do
    let (read, name) ← str p []
    require (read = true)
    let t ← built (k.getNamedType (cStr name))
    pushBack t
  else if op = recipeDecl then do
    let (read, decl) ← str p []
    require (read = true)
    let t ← built (k.parseDecl (cStr decl))
    pushBack t
  else if op = recipePtr then do
    let m ← get
    require (m.stack ≠ [])
    let inner ← back
    popBack
    let t ← built (k.createPtr inner)
    pushBack t
  else if op = recipeArray then do
    let nelems ← uintLe p 8
    let m ← get
    -- The kernel's element count is a `u32`.
    require (m.ok = true ∧ nelems ≤ u32Max ∧ m.stack ≠ [])
    let inner ← back
    popBack
    let t ← built (k.createArray inner nelems)
    pushBack t
  else if op = recipeConst then do
    let m ← get
    require (m.stack ≠ [])
    mutateBack k.setConst
  else if op = recipeVolatile then do
    let m ← get
    require (m.stack ≠ [])
    mutateBack k.setVolatile
  else if op = recipeFunction then recipeFunctionStep k p
  else if op = recipeBitfield then do
    let nbytes ← u8 p
    let width ← u8 p
    let signed ← u8 p
    let m ← get
    require (m.ok = true)
    let t ← built (k.createBitfield nbytes width (signed == 0))
    pushBack t
  else errInput

/-- Interpret the bytes; the loop is given a number of tests. -/
def buildRecipe (fuel : ℕ) : Code τ Unit := do
  whileLoop (hasMore p) (do
    let op ← u8 p
    recipeStep k p op) fuel
  let m ← get
  require (m.ok = true ∧ m.stack.length = 1)
  let out ← entry 0
  ret (typeOk, some out)

end

/-! ### Reading stays within the buffer -/

def Reads {τ α : Type} (p : List UInt8) (r : Reader α) (m : Machine τ) (a : α)
    (m' : Machine τ) : Prop :=
  m'.stack = m.stack ∧ m.pos ≤ m'.pos ∧ m'.pos ≤ p.length ∧
    match r (p.drop m.pos) with
    | some (a', rest) => m'.ok = m.ok ∧ a = a' ∧ rest = p.drop m'.pos
    | none => m'.ok = false

theorem sizeAdd_of_lt {a b : ℕ} (h : a + b < 2 ^ 64) : sizeAdd a b = a + b := Nat.mod_eq_of_lt h

theorem sizeSub_of_le {a b : ℕ} (h : b ≤ a) (ha : a < 2 ^ 64) : sizeSub a b = a - b := by
  unfold sizeSub
  omega

theorem takeBytes_eq (n : ℕ) (bytes : List UInt8) :
    takeBytes n bytes = if n ≤ bytes.length then some (bytes.take n, bytes.drop n) else none := rfl

theorem uintLe_eq (n : ℕ) (bytes : List UInt8) :
    Facade.uintLe n bytes =
      if n ≤ bytes.length then some (ofLeBytes (bytes.take n), bytes.drop n) else none := by
  show Option.bind (takeBytes n bytes) _ = _
  unfold takeBytes
  split <;> rfl

theorem str_eq (bytes : List UInt8) :
    Facade.str bytes = (Facade.uintLe 4 bytes).bind fun q => takeBytes q.1 q.2 := rfl

section

variable {τ : Type} {p : List UInt8} {R : ℤ × Option τ → Machine τ → Prop} {m : Machine τ}
  (hp : p.length < 2 ^ 63) (hpos : m.pos ≤ p.length)

include hp hpos

theorem wp_u8 : (u8 p).wp (Reads p Facade.u8 m) R m := by
  have hadd : sizeAdd m.pos 1 = m.pos + 1 := sizeAdd_of_lt (by omega)
  simp only [u8, wp_bind, wp_get, hadd, wp_ite, wp_set, wp_pure, wp_access]
  constructor
  · intro hlt
    have hnil : p.drop m.pos = [] := List.drop_eq_nil_of_le (by omega)
    exact ⟨rfl, le_refl _, hpos, by simp [hnil, Facade.u8]⟩
  · intro hle
    have hcons := List.drop_eq_getElem_cons (l := p) (i := m.pos) (by omega)
    refine ⟨_, List.getElem?_eq_getElem (by omega), rfl, ?_⟩
    simp only [hcons, Facade.u8]
    exact ⟨by omega, by omega, trivial, trivial, trivial⟩

theorem wp_uintLe {n : ℕ} (hn : n ≤ 8) : (uintLe p n).wp (Reads p (Facade.uintLe n) m) R m := by
  have hadd : sizeAdd m.pos n = m.pos + n := sizeAdd_of_lt (by omega)
  have hlength : (p.drop m.pos).length = p.length - m.pos := List.length_drop
  simp only [uintLe, wp_bind, wp_get, hadd, wp_ite, wp_set, wp_pure]
  constructor
  · intro hlt
    refine ⟨rfl, le_refl _, hpos, ?_⟩
    rw [uintLe_eq, if_neg (by omega)]
  · intro hle
    -- After `i` iterations the first `i` bytes have been put together.
    refine wp_mono (wp_forUpTo (fun i v m' => v = ofLeBytes ((p.drop m.pos).take i) ∧
      m' = { m with pos := m.pos + i }) ?_ ?_) ?_
    · simp [ofLeBytes]
    · rintro i v m' hi ⟨rfl, rfl⟩ -
      have hget : (p.drop m.pos)[i]? = some p[m.pos + i] := by
        rw [List.getElem?_drop, List.getElem?_eq_getElem (by omega)]
      have htake : ((p.drop m.pos).take i).length = i := by
        rw [List.length_take]
        omega
      have hor := ofLeBytes_or_shiftLeft ((p.drop m.pos).take i) p[m.pos + i]
      rw [htake] at hor
      simp only [wp_bind, wp_get, wp_access, wp_set, wp_pure]
      refine ⟨_, List.getElem?_eq_getElem (by omega), ?_, ?_⟩
      · rw [hor, List.take_add_one, hget, Option.toList_some]
      · rw [sizeAdd_of_lt (by omega)]
        rfl
    · rintro v m' ⟨i, hi, ⟨rfl, rfl⟩, hend⟩
      obtain rfl : i = n := hend.resolve_right (by simp)
      refine ⟨rfl, Nat.le_add_right _ _, ?_, ?_⟩
      · show m.pos + i ≤ p.length
        omega
      · rw [uintLe_eq, if_pos (by omega)]
        exact ⟨rfl, rfl, List.drop_drop⟩

/-- A string is read, or the one at hand is kept and the reader is no longer
well. -/
theorem wp_str (hok : m.ok = true) (out : List UInt8) :
    (str p out).wp (fun a m' => Reads p Facade.str m a.2 m' ∧
      (a.1 = true ∧ m'.ok = true ∨ a = (false, out) ∧ m'.ok = false)) R m := by
  refine wp_bind_of (wp_uintLe hp hpos (n := 4) (by omega)) ?_
  rintro n m₁ ⟨hstack, hle, hlen, hread⟩
  rw [uintLe_eq] at hread
  simp only [wp_bind, wp_get, wp_ite, wp_set, wp_pure, wp_access]
  by_cases hfour : 4 ≤ (p.drop m.pos).length
  · rw [if_pos hfour] at hread
    obtain ⟨hok₁, rfl, hrest⟩ := hread
    have hn := ofLeBytes_lt ((p.drop m.pos).take 4)
    rw [List.length_take_of_le hfour] at hn
    have hadd : sizeAdd m₁.pos (ofLeBytes ((p.drop m.pos).take 4)) =
      m₁.pos + ofLeBytes ((p.drop m.pos).take 4) := sizeAdd_of_lt (by omega)
    have hstr : Facade.str (p.drop m.pos) =
        takeBytes (ofLeBytes ((p.drop m.pos).take 4)) (p.drop m₁.pos) := by
      rw [str_eq, uintLe_eq, if_pos hfour, Option.bind_some, hrest]
    rw [takeBytes_eq, List.length_drop] at hstr
    rw [hadd]
    constructor
    · intro h
      have hlt : p.length < m₁.pos + ofLeBytes ((p.drop m.pos).take 4) := by
        simpa [hok₁, hok] using h
      refine ⟨⟨hstack, hle, hlen, ?_⟩, Or.inr ⟨trivial, trivial⟩⟩
      rw [hstr, if_neg (by omega)]
    · intro h
      rw [not_or, Nat.not_lt] at h
      refine ⟨_, if_pos h.2, ⟨hstack, by show m.pos ≤ m₁.pos + _; omega, h.2, ?_⟩,
        Or.inl ⟨trivial, hok₁.trans hok⟩⟩
      rw [hstr, if_pos (by omega)]
      exact ⟨hok₁, rfl, List.drop_drop⟩
  · rw [if_neg hfour] at hread
    constructor
    · intro _
      refine ⟨⟨hstack, hle, hlen, ?_⟩, Or.inr ⟨trivial, trivial⟩⟩
      rw [str_eq, uintLe_eq, if_neg hfour, Option.bind_none]
    · intro h
      exact absurd (Or.inl hread) h

end

/-! ### The stack is deep enough -/

section

variable {τ : Type} {m : Machine τ} {R : ℤ × Option τ → Machine τ → Prop}

@[simp] theorem wp_pushBack {t : τ} {Q : Unit → Machine τ → Prop} :
    (pushBack t).wp Q R m ↔ Q ⟨⟩ { m with stack := m.stack ++ [t] } := by
  simp [pushBack]

@[simp] theorem wp_back {Q : τ → Machine τ → Prop} :
    (back).wp Q R m ↔ ∃ t, m.stack.getLast? = some t ∧ Q t m := by
  simp [back]

@[simp] theorem wp_popBack {Q : Unit → Machine τ → Prop} :
    (popBack).wp Q R m ↔ m.stack ≠ [] ∧ Q ⟨⟩ { m with stack := m.stack.dropLast } := by
  simp [popBack]

@[simp] theorem wp_entry {i : ℕ} {Q : τ → Machine τ → Prop} :
    (entry i).wp Q R m ↔ ∃ t, m.stack[i]? = some t ∧ Q t m := by
  simp [entry]

@[simp] theorem wp_mutateBack {f : τ → τ} {Q : Unit → Machine τ → Prop} :
    (mutateBack f).wp Q R m ↔ ∃ t, m.stack.getLast? = some t ∧
      Q ⟨⟩ { m with stack := m.stack.dropLast ++ [f t] } := by
  simp [mutateBack]

@[simp] theorem wp_resize {n : ℕ} {Q : Unit → Machine τ → Prop} :
    (resize n).wp Q R m ↔ n ≤ m.stack.length ∧ Q ⟨⟩ { m with stack := m.stack.take n } := by
  simp [resize]

@[simp] theorem wp_built {o : Option τ} {Q : τ → Machine τ → Prop} :
    (built o).wp Q R m ↔ (∀ t, o = some t → Q t m) ∧ (o = none → R (typeErrInput, none) m) := by
  cases o with
  | none => simp [built, errInput]
  | some t => simp [built]

@[simp] theorem wp_require {P : Prop} [Decidable P] {Q : Unit → Machine τ → Prop} :
    (require P).wp Q R m ↔ (P → Q ⟨⟩ m) ∧ (¬P → R (typeErrInput, none) m) := by
  rw [require, wp_ite]
  rfl

end

section

variable {τ : Type} {p : List UInt8}

/-- What an opcode that succeeds may do: go on reading, and leave one entry
more on the stack. -/
structure Steps (p : List UInt8) (m m' : Machine τ) : Prop where
  ok : m'.ok = true
  le : m.pos ≤ m'.pos
  within : m'.pos ≤ p.length
  grows : m'.stack.length ≤ m.stack.length + 1

/-- What a read leaves as it was, and where it gets to. -/
structure Ahead (p : List UInt8) (m m' : Machine τ) : Prop where
  stack : m'.stack = m.stack
  le : m.pos ≤ m'.pos
  within : m'.pos ≤ p.length

def Refuses (r : ℤ × Option τ) (_ : Machine τ) : Prop := r = (typeErrInput, none)

theorem Reads.ahead {α : Type} {r : Reader α} {a : α} {m₀ m m' : Machine τ}
    (h : Reads p r m a m') (h₀ : Ahead p m₀ m) : Ahead p m₀ m' :=
  ⟨h.1.trans h₀.stack, h₀.le.trans h.2.1, h.2.2.1⟩

theorem Ahead.refl {m : Machine τ} (hpos : m.pos ≤ p.length) : Ahead p m m := ⟨rfl, le_refl _, hpos⟩

theorem Reads.of_ok {α : Type} {r : Reader α} {a : α} {m m' : Machine τ} (h : Reads p r m a m')
    (hok : m'.ok = true) : m.ok = true ∧ r (p.drop m.pos) = some (a, p.drop m'.pos) := by
  obtain ⟨-, -, -, h⟩ := h
  split at h
  · next a' rest heq =>
      obtain ⟨hok', rfl, rfl⟩ := h
      exact ⟨hok'.symm.trans hok, heq⟩
  · exact absurd (hok.symm.trans h) (by simp)

/-- A count that is read fits its bytes. -/
theorem Reads.lt {n v : ℕ} {m m' : Machine τ} (h : Reads p (Facade.uintLe n) m v m')
    (hok : m'.ok = true) : v < 2 ^ (8 * n) := by
  have hread := (h.of_ok hok).2
  rw [uintLe_eq] at hread
  split at hread
  · next hle =>
      obtain ⟨rfl, -⟩ := Prod.mk.inj (Option.some.inj hread)
      have hlt := ofLeBytes_lt ((p.drop m.pos).take n)
      rwa [List.length_take_of_le hle] at hlt
  · cases hread

variable {m₀ m : Machine τ} (hp : p.length < 2 ^ 63) (h : Ahead p m₀ m)

include h

theorem wp_push (hok : m.ok = true) (o : Option τ) :
    (do let t ← built o; pushBack t : Code τ Unit).wp (fun _ => Steps p m₀) Refuses m := by
  simp only [wp_bind, wp_built, wp_pushBack]
  refine ⟨fun t ht => ⟨hok, h.le, h.within, ?_⟩, fun _ => rfl⟩
  rw [List.length_append, h.stack]
  rfl

/-- The top is replaced by what the kernel makes of it. -/
theorem wp_replaceBack (hok : m.ok = true) (hstack : m.stack ≠ []) (make : τ → Option τ) :
    (do
      let inner ← back
      popBack
      let t ← built (make inner)
      pushBack t : Code τ Unit).wp (fun _ => Steps p m₀) Refuses m := by
  simp only [wp_bind, wp_back, wp_popBack, wp_built, wp_pushBack]
  refine ⟨_, List.getLast?_eq_some_getLast hstack, hstack,
    fun t ht => ⟨hok, h.le, h.within, ?_⟩, fun _ => rfl⟩
  rw [List.length_append, List.length_dropLast, h.stack, List.length_singleton]
  omega

theorem wp_mutate (hok : m.ok = true) (hstack : m.stack ≠ []) (f : τ → τ) :
    (mutateBack f : Code τ Unit).wp (fun _ => Steps p m₀) Refuses m := by
  rw [wp_mutateBack]
  refine ⟨_, List.getLast?_eq_some_getLast hstack, hok, h.le, h.within, ?_⟩
  rw [List.length_append, List.length_dropLast, List.length_singleton, h.stack]
  omega

include hp

theorem wp_recipeFunctionStep (k : Constructors τ) (hdepth : m₀.stack.length < 2 ^ 63) :
    (recipeFunctionStep k p).wp (fun _ => Steps p m₀) Refuses m := by
  refine wp_bind_of (wp_uintLe hp h.within (n := 4) (by omega)) fun nparams m₁ h₁ => ?_
  have ha₁ := h₁.ahead h
  refine wp_bind_of (wp_u8 hp ha₁.within) fun varargs m₂ h₂ => ?_
  have ha₂ := h₂.ahead ha₁
  refine wp_bind_of (wp_uintLe hp ha₂.within (n := 2) (by omega)) fun cc m₃ h₃ => ?_
  have ha₃ := h₃.ahead ha₂
  rw [wp_bind, wp_get, wp_bind, wp_require]
  refine ⟨?_, fun _ => rfl⟩
  rintro ⟨hok₃, -⟩
  have hcount : nparams < 2 ^ 32 := h₁.lt (h₂.of_ok (h₃.of_ok hok₃).1).1
  -- The vector of names keeps its length, and every name is read within bounds.
  have hnames : (forUpTo nparams Machine.ok (List.replicate nparams []) fun i names => do
      let name ← access names[i]?
      let (_, name) ← str p name
      return names.set i name : Code τ (List (List UInt8))).wp
        (fun names m' => names.length = nparams ∧ Ahead p m₀ m') Refuses m₃ := by
    refine wp_mono (wp_forUpTo (fun _ names m' => names.length = nparams ∧ Ahead p m₀ m') ?_ ?_) ?_
    · exact ⟨List.length_replicate, ha₃⟩
    · rintro i names m' hi ⟨hlength, ha⟩ hok
      rw [wp_bind, wp_access]
      refine ⟨_, List.getElem?_eq_getElem (by omega), ?_⟩
      refine wp_bind_of (wp_str hp ha.within hok _) fun a m'' ha' => ?_
      exact ⟨List.length_set.trans hlength, ha'.1.ahead ha⟩
    · rintro names m' ⟨i, -, hI, -⟩
      exact hI
  refine wp_bind_of hnames fun names m₄ h₄ => ?_
  obtain ⟨hlength, ha₄⟩ := h₄
  rw [wp_bind, wp_get, wp_bind, wp_require]
  refine ⟨?_, fun _ => rfl⟩
  rintro ⟨hok₄, hdeep⟩
  rw [sizeAdd_of_lt (by omega)] at hdeep
  have hsize := congrArg List.length ha₄.stack
  have hbase : sizeSub m₄.stack.length nparams = m₄.stack.length - nparams :=
    sizeSub_of_le (by omega) (by omega)
  have hbelow : sizeSub (m₄.stack.length - nparams) 1 = m₄.stack.length - nparams - 1 :=
    sizeSub_of_le (by omega) (by omega)
  simp only [hbase, hbelow]
  rw [wp_bind, wp_entry]
  refine ⟨_, List.getElem?_eq_getElem (by omega), ?_⟩
  -- The parameters are read off the stack, which stays as it is.
  refine wp_bind_of (wp_mono (wp_forUpTo (fun _ _ m' => m' = m₄) rfl ?_) ?_)
    (fun (args : List (Funcarg τ)) m₅ (h₅ : m₅ = m₄) => ?_)
  · rintro i args m' hi rfl -
    rw [sizeAdd_of_lt (by omega), wp_bind, wp_entry]
    refine ⟨_, List.getElem?_eq_getElem (by omega), ?_⟩
    rw [wp_bind, wp_access]
    exact ⟨_, List.getElem?_eq_getElem (by omega), rfl⟩
  · rintro args m' ⟨i, -, hI, -⟩
    exact hI
  · subst h₅
    rw [wp_bind, wp_resize]
    refine ⟨by omega, ?_⟩
    simp only [wp_bind, wp_built, wp_pushBack]
    refine ⟨fun t ht => ⟨hok₄, ha₄.le, ha₄.within, ?_⟩, fun _ => rfl⟩
    rw [List.length_append, List.length_take, List.length_singleton]
    omega

/-- No opcode accesses anything out of bounds, whatever follows it. -/
theorem wp_recipeStep (k : Constructors τ) (op : UInt8) (hok : m.ok = true)
    (hdepth : m₀.stack.length < 2 ^ 63) :
    (recipeStep k p op).wp (fun _ => Steps p m₀) Refuses m := by
  have hu8 {m : Machine τ} (ha : Ahead p m₀ m) {f : UInt8 → Code τ Unit}
      (hf : ∀ b m', Ahead p m₀ m' → (f b).wp (fun _ => Steps p m₀) Refuses m') :
      (u8 p >>= f).wp (fun _ => Steps p m₀) Refuses m :=
    wp_bind_of (wp_u8 hp ha.within) fun b m' hread => hf b m' (hread.ahead ha)
  have hpushed {m : Machine τ} (ha : Ahead p m₀ m) (o : Option τ) :
      (do
        let m ← get
        require (m.ok = true)
        let t ← built o
        pushBack t : Code τ Unit).wp (fun _ => Steps p m₀) Refuses m := by
    rw [wp_bind, wp_get, wp_bind, wp_require]
    exact ⟨fun hok => wp_push ha hok o, fun _ => rfl⟩
  have hstr (make : List UInt8 → Option τ) :
      (do
        let (read, name) ← str p []
        require (read = true)
        let t ← built (make name)
        pushBack t : Code τ Unit).wp (fun _ => Steps p m₀) Refuses m := by
    refine wp_bind_of (wp_str hp h.within hok []) fun a m' ha' => ?_
    obtain ⟨hread, hwell⟩ := ha'
    show Stmt.wp (require (a.1 = true) >>= _) _ _ _
    rw [wp_bind, wp_require]
    refine ⟨fun htrue => ?_, fun _ => rfl⟩
    obtain ⟨-, hok'⟩ | ⟨rfl, -⟩ := hwell
    · exact wp_push (hread.ahead h) hok' _
    · cases htrue
  have hmutate (f : τ → τ) :
      (do
        let m ← get
        require (m.stack ≠ [])
        mutateBack f : Code τ Unit).wp (fun _ => Steps p m₀) Refuses m := by
    rw [wp_bind, wp_get, wp_bind, wp_require]
    exact ⟨fun hstack => wp_mutate h hok hstack f, fun _ => rfl⟩
  unfold recipeStep
  rw [wp_ite]; refine ⟨fun _ => wp_push h hok _, fun _ => ?_⟩
  rw [wp_ite]; refine ⟨fun _ => wp_push h hok _, fun _ => ?_⟩
  rw [wp_ite]; refine ⟨fun _ => hu8 h fun _ _ ha => hu8 ha fun _ _ ha => hpushed ha _, fun _ => ?_⟩
  rw [wp_ite]; refine ⟨fun _ => hu8 h fun _ _ ha => hpushed ha _, fun _ => ?_⟩
  rw [wp_ite]; refine ⟨fun _ => hstr fun name => k.getNamedType (cStr name), fun _ => ?_⟩
  rw [wp_ite]; refine ⟨fun _ => hstr fun decl => k.parseDecl (cStr decl), fun _ => ?_⟩
  rw [wp_ite]; refine ⟨fun _ => ?_, fun _ => ?_⟩
  · rw [wp_bind, wp_get, wp_bind, wp_require]
    exact ⟨fun hstack => wp_replaceBack h hok hstack k.createPtr, fun _ => rfl⟩
  rw [wp_ite]; refine ⟨fun _ => ?_, fun _ => ?_⟩
  · refine wp_bind_of (wp_uintLe hp h.within (n := 8) (by omega)) fun nelems m' hread => ?_
    rw [wp_bind, wp_get, wp_bind, wp_require]
    refine ⟨?_, fun _ => rfl⟩
    rintro ⟨hok', -, hstack⟩
    exact wp_replaceBack (hread.ahead h) hok' hstack fun t => k.createArray t nelems
  rw [wp_ite]; refine ⟨fun _ => hmutate _, fun _ => ?_⟩
  rw [wp_ite]; refine ⟨fun _ => hmutate _, fun _ => ?_⟩
  rw [wp_ite]; refine ⟨fun _ => wp_recipeFunctionStep hp h k hdepth, fun _ => ?_⟩
  rw [wp_ite]; refine ⟨fun _ => ?_, fun _ => rfl⟩
  exact hu8 h fun _ _ ha => hu8 ha fun _ _ ha => hu8 ha fun _ _ ha => hpushed ha _

end

/-! ### A whole recipe -/

section

variable {τ : Type} (k : Constructors τ) {p : List UInt8}

/-- The cursor is within the buffer, and every entry of the stack has cost a
byte. -/
structure Valid (p : List UInt8) (m : Machine τ) : Prop where
  within : m.pos ≤ p.length
  depth : m.stack.length ≤ m.pos

def Consumed (p : List UInt8) (r : ℤ × Option τ) (m : Machine τ) : Prop :=
  r.1 = typeOk → m.pos = p.length ∧ ∃ t, m.stack = [t] ∧ r.2 = some t

theorem wp_buildRecipe (hp : p.length < 2 ^ 63) {fuel : ℕ} (hfuel : p.length < fuel) :
    (buildRecipe k p fuel).wp (fun _ _ => False) (Consumed p) .start := by
  have hrefuse {r : ℤ × Option τ} {m : Machine τ} (h : Refuses r m) : Consumed p r m := by
    rintro hcode
    rw [h] at hcode
    cases hcode
  refine wp_bind_of (wp_whileLoop (Valid p) (fun m => p.length - m.pos) ?_ ?_ ?_) ?_
  · exact ⟨Nat.zero_le _, le_refl _⟩
  · exact Nat.lt_of_le_of_lt (Nat.sub_le _ _) hfuel
  · rintro m ⟨hwithin, hdepth⟩ hmore
    obtain ⟨hok, hlt⟩ : m.ok = true ∧ m.pos < p.length := by simpa [hasMore] using hmore
    refine wp_bind_of (wp_u8 hp hwithin) fun op m₁ hread => ?_
    have hcons := List.drop_eq_getElem_cons hlt
    obtain ⟨hstack, -, hwithin₁, hrest⟩ := hread
    rw [hcons] at hrest
    obtain ⟨hok₁, -, hrest⟩ : m₁.ok = m.ok ∧ op = p[m.pos] ∧ p.drop (m.pos + 1) = p.drop m₁.pos :=
      hrest
    have hlength := congrArg List.length hrest
    rw [List.length_drop, List.length_drop] at hlength
    have hsize := congrArg List.length hstack
    have hstep := wp_recipeStep hp (Ahead.refl hwithin₁) k op (hok₁.trans hok) (by omega)
    refine wp_weaken_ret (wp_mono hstep fun _ m' h => ?_) fun r m' h => hrefuse h
    -- The opcode has cost a byte, which pays for the entry it has pushed.
    have hgrows := h.grows
    have hle := h.le
    exact ⟨⟨h.within, by omega⟩, by omega⟩
  · rintro - m ⟨⟨hwithin, -⟩, hmore⟩
    rw [wp_bind, wp_get, wp_bind, wp_require]
    refine ⟨?_, fun _ => hrefuse rfl⟩
    rintro ⟨hok, hone⟩
    obtain ⟨t, ht⟩ := List.length_eq_one_iff.mp hone
    have hend : p.length ≤ m.pos := by simpa [hasMore, hok] using hmore
    rw [wp_bind, wp_entry]
    exact ⟨t, by simp [ht], fun _ => ⟨Nat.le_antisymm hwithin hend, t, ht, rfl⟩⟩

/-- More iterations than bytes change nothing. -/
theorem buildRecipe_fuel (hp : p.length < 2 ^ 63) {fuel fuel' : ℕ} (hfuel : p.length < fuel)
    (hle : fuel ≤ fuel') : buildRecipe k p fuel' .start = buildRecipe k p fuel .start := by
  have hwp := wp_buildRecipe k hp hfuel
  unfold buildRecipe at hwp
  rw [wp_bind] at hwp
  have hloop := whileLoop_fuel hle (ne_unfinished_of_wp hwp)
  show Stmt.bind _ _ _ = Stmt.bind _ _ _
  unfold Stmt.bind
  rw [hloop]

/-- The interpreter comes to an end on every buffer without an access outside
of the buffer or the stack, and succeeds only where it has consumed the buffer
and one type is left. -/
theorem buildRecipe_safe (recipe : Slice) :
    ∃ code out m, (∀ fuel, recipe.bytes.length < fuel →
        buildRecipe k recipe.bytes fuel .start = .returned (code, out) m) ∧
      (code = typeOk → m.pos = recipe.bytes.length ∧ ∃ t, m.stack = [t] ∧ out = some t) := by
  have hwp := wp_buildRecipe k recipe.fits (Nat.lt_succ_self _)
  obtain ⟨⟨code, out⟩, m, hreturned, hconsumed⟩ := wp_false_iff.mp hwp
  refine ⟨code, out, m, fun fuel hfuel => ?_, hconsumed⟩
  rw [buildRecipe_fuel k recipe.fits (Nat.lt_succ_self _) hfuel, hreturned]

end

end Idakit.Facade.RecipeMachine
