import Idakit.Library.Stateful
import Idakit.Types.Expr

/-!
The interpreter of a recipe's bytes: a stack machine over the kernel's type
descriptors. The kernel's constructors are free terms, and the stack is a
list with its top in front.

Every failure of the interpreter is one and the same input error, here
`none`: a read past the end, an operand missing from the stack, a width the
kernel has no scalar for.
-/

namespace Idakit.Facade

open Idakit.Library Idakit.Types

/-- The calling convention slot of a function type. Ellipsis is a convention
of its own there. -/
inductive Callcnv
  | unset
  | ellipsis
  | code (n : ℕ)

structure Funcarg (τ : Type) where
  name : List UInt8
  type : τ

/-- A type descriptor, as the term of constructors that made it. -/
inductive Tinfo
  | void
  | bool
  | int (bytes : ℕ) (signed : Bool)
  | float (bytes : ℕ)
  | bitfield (nbytes width : ℕ) (isUnsigned : Bool)
  | named (name : List UInt8)
  | decl (text : List UInt8)
  | ptr (inner : Tinfo)
  | array (inner : Tinfo) (nelems : ℕ)
  | const (inner : Tinfo)
  | volatile (inner : Tinfo)
  | func (rettype : Tinfo) (args : List (Funcarg Tinfo)) (cc : Callcnv)

/-! ### Reading -/

abbrev Reader := StateT (List UInt8) Option

def u8 : Reader UInt8 := fun
  | [] => none
  | b :: p => some (b, p)

def takeBytes (n : ℕ) : Reader (List UInt8) := fun p =>
  if n ≤ p.length then some (p.take n, p.drop n) else none

def uintLe (n : ℕ) : Reader ℕ := do
  let bytes ← takeBytes n
  return ofLeBytes bytes

def str : Reader (List UInt8) := do
  let n ← uintLe 4
  takeBytes n

def remaining : Reader ℕ := fun p => some (p.length, p)

/-- A byte string as the kernel's C string: it ends at the first zero. -/
def cStr (bytes : List UInt8) : List UInt8 := bytes.takeWhile (· != 0)

/-! ### Building -/

def buildInt (bytes : ℕ) (signed : Bool) : Option Tinfo :=
  if bytes ∈ [1, 2, 4, 8, 16] then some (.int bytes signed) else none

def buildFloat (bytes : ℕ) : Option Tinfo :=
  if bytes ∈ [4, 8] then some (.float bytes) else none

def wrapTop (wrap : Tinfo → Tinfo) : List Tinfo → Option (List Tinfo)
  | [] => none
  | t :: stack => some (wrap t :: stack)

/-- The return type lies just below the parameters. Varargs is the ellipsis
convention; an explicit convention otherwise, else the default. -/
def buildFunc (names : List (List UInt8)) (varargs : UInt8) (cc : ℕ) (stack : List Tinfo) :
    Option (List Tinfo) :=
  match stack.drop names.length with
  | [] => none
  | rettype :: rest =>
      let args := List.zipWith Funcarg.mk (names.map cStr) (stack.take names.length).reverse
      let conv := if varargs ≠ 0 then .ellipsis else if cc ≠ 0 then .code cc else .unset
      some (.func rettype args conv :: rest)

def recipeStep (op : UInt8) (stack : List Tinfo) : Reader (List Tinfo) :=
  if op = recipeVoid then pure (.void :: stack)
  else if op = recipeBool then pure (.bool :: stack)
  else if op = recipeInt then do
    let bytes ← u8
    let signed ← u8
    let t ← StateT.lift (buildInt bytes.toNat (signed != 0))
    return t :: stack
  else if op = recipeFloat then do
    let bytes ← u8
    let t ← StateT.lift (buildFloat bytes.toNat)
    return t :: stack
  else if op = recipeNamed then do
    let name ← str
    return .named (cStr name) :: stack
  else if op = recipeDecl then do
    let decl ← str
    return .decl (cStr decl) :: stack
  else if op = recipePtr then StateT.lift (wrapTop .ptr stack)
  else if op = recipeArray then do
    let nelems ← uintLe 8
    -- The kernel's element count is a `u32`.
    if u32Max < nelems then StateT.lift none
    else StateT.lift (wrapTop (.array · nelems) stack)
  else if op = recipeConst then StateT.lift (wrapTop .const stack)
  else if op = recipeVolatile then StateT.lift (wrapTop .volatile stack)
  else if op = recipeFunction then do
    let nparams ← uintLe 4
    let varargs ← u8
    let cc ← uintLe 2
    let left ← remaining
    -- Every name costs the four bytes of its length at least.
    if left / 4 < nparams then StateT.lift none
    else do
      let names ← (List.range nparams).mapM fun _ => str
      StateT.lift (buildFunc names varargs cc stack)
  else if op = recipeBitfield then do
    let nbytes ← u8
    let width ← u8
    let signed ← u8
    return .bitfield nbytes.toNat width.toNat (signed == 0) :: stack
  else StateT.lift none

/-! ### No step puts bytes back -/

def Shrinks (p p' : List UInt8) : Prop := p'.length ≤ p.length

theorem Shrinks.refl (p : List UInt8) : Shrinks p p := Nat.le_refl _

theorem Shrinks.trans (p p' p'' : List UInt8) (h : Shrinks p p') (h' : Shrinks p' p'') :
    Shrinks p p'' := Nat.le_trans h' h

theorem shrinks_u8 : Moves Shrinks u8 := by
  intro p b p' h
  cases p with
  | nil => cases h
  | cons b p =>
      cases h
      exact Nat.le_succ _

theorem shrinks_takeBytes (n : ℕ) : Moves Shrinks (takeBytes n) := by
  intro p bytes p' h
  simp only [takeBytes] at h
  split at h
  · cases h
    simp [Shrinks]
  · cases h

theorem shrinks_uintLe (n : ℕ) : Moves Shrinks (uintLe n) :=
  Moves.bind Shrinks.trans (shrinks_takeBytes n) fun _ => Moves.pure Shrinks.refl _

theorem shrinks_str : Moves Shrinks str :=
  Moves.bind Shrinks.trans (shrinks_uintLe 4) shrinks_takeBytes

theorem shrinks_remaining : Moves Shrinks remaining := by
  intro p n p' h
  cases h
  exact Shrinks.refl p

theorem shrinks_lift {α : Type} (o : Option α) : Moves Shrinks (StateT.lift o) :=
  Moves.lift Shrinks.refl o

theorem shrinks_recipeStep (op : UInt8) (stack : List Tinfo) :
    Moves Shrinks (recipeStep op stack) := by
  have hpure (stack : List Tinfo) : Moves Shrinks (pure stack) := Moves.pure Shrinks.refl stack
  unfold recipeStep
  apply Moves.ite (hpure _)
  apply Moves.ite (hpure _)
  apply Moves.ite
  · refine Moves.bind Shrinks.trans shrinks_u8 fun _ => ?_
    refine Moves.bind Shrinks.trans shrinks_u8 fun _ => ?_
    exact Moves.bind Shrinks.trans (shrinks_lift _) fun _ => hpure _
  apply Moves.ite
  · refine Moves.bind Shrinks.trans shrinks_u8 fun _ => ?_
    exact Moves.bind Shrinks.trans (shrinks_lift _) fun _ => hpure _
  apply Moves.ite (Moves.bind Shrinks.trans shrinks_str fun _ => hpure _)
  apply Moves.ite (Moves.bind Shrinks.trans shrinks_str fun _ => hpure _)
  apply Moves.ite (shrinks_lift _)
  apply Moves.ite
  · refine Moves.bind Shrinks.trans (shrinks_uintLe 8) fun _ => ?_
    exact Moves.ite (shrinks_lift _) (shrinks_lift _)
  apply Moves.ite (shrinks_lift _)
  apply Moves.ite (shrinks_lift _)
  apply Moves.ite
  · refine Moves.bind Shrinks.trans (shrinks_uintLe 4) fun _ => ?_
    refine Moves.bind Shrinks.trans shrinks_u8 fun _ => ?_
    refine Moves.bind Shrinks.trans (shrinks_uintLe 2) fun _ => ?_
    refine Moves.bind Shrinks.trans shrinks_remaining fun _ => ?_
    refine Moves.ite (shrinks_lift _) ?_
    refine Moves.bind Shrinks.trans ?_ fun _ => shrinks_lift _
    exact Moves.mapM Shrinks.refl Shrinks.trans (fun _ => shrinks_str) _
  apply Moves.ite
  · refine Moves.bind Shrinks.trans shrinks_u8 fun _ => ?_
    refine Moves.bind Shrinks.trans shrinks_u8 fun _ => ?_
    exact Moves.bind Shrinks.trans shrinks_u8 fun _ => hpure _
  · exact shrinks_lift none

/-! ### The interpreter -/

def interpret (stack : List Tinfo) : List UInt8 → Option (List Tinfo)
  | [] => some stack
  | op :: p =>
      match h : recipeStep op stack p with
      | none => none
      | some (stack, p') => interpret stack p'
termination_by p => p.length
decreasing_by exact Nat.lt_succ_of_le (shrinks_recipeStep op _ p _ p' h)

def buildRecipe (buf : List UInt8) : Option Tinfo :=
  match interpret [] buf with
  | some [out] => some out
  | _ => none

theorem interpret_of_step (op : UInt8) {p p' : List UInt8} {stack stack' : List Tinfo}
    (h : recipeStep op stack p = some (stack', p')) :
    interpret stack (op :: p) = interpret stack' p' := by
  rw [interpret]
  split
  next heq => rw [h] at heq; cases heq
  next heq => rw [h] at heq; cases heq; rfl

end Idakit.Facade
