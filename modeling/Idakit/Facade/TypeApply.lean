import Idakit.Facade.FuncSig
import Idakit.Library.LastWrite
import Idakit.Types.Resolved

/-!
Types at addresses. One is written from a name, from a declaration, from the
bytes of any other expression, or from a handle that was built before; it is
read back by a walk of what the kernel holds at the address.

The kernel is a parameter: how it makes and applies a type, and what it holds
at an address. A call that traps counts as one that refuses.
-/

namespace Idakit.Facade.TypeApply

open Idakit.Library Idakit.Types
open Idakit.Facade.RecipeMachine (Constructors typeOk typeErrInput)
open Idakit.Facade.FuncSig (reasonOr)

/-- The kernel, in states `σ`. Its messages during a call are captured; a
refusal has a number and a reason. -/
structure NoteSdk (σ τ : Type) where
  constructors : Constructors τ
  /-- A name that has to be defined. -/
  getNamedType : List UInt8 → Option τ
  /-- A type that is not empty. -/
  getTinfo : σ → UInt64 → Option τ
  applyTinfo : σ → UInt64 → τ → Option σ
  /-- Remove what is held at an address. -/
  resetTinfo : σ → UInt64 → Option σ
  captured : σ → Text
  lastReason : σ → ℤ × Text

def typeErrApply : ℤ := 2

/-! ### The facade -/

section

variable {σ τ : Type} (sdk : NoteSdk σ τ) (s : σ) (addr : UInt64)

def applied (made : Option τ) : ℤ × σ :=
  match made with
  | none => (typeErrInput, s)
  | some tif =>
      match sdk.applyTinfo s addr tif with
      | none => (typeErrApply, s)
      | some s' => (typeOk, s')

def applyTypeDecl (decl : Text) : ℤ × σ :=
  applied sdk s addr (sdk.constructors.parseDecl (cStr decl.asBytes))

def applyNamedType (name : Text) : ℤ × σ :=
  applied sdk s addr (sdk.getNamedType (cStr name.asBytes))

def applyTypeRecipe (recipe : List UInt8) : ℤ × σ :=
  applied sdk s addr (recipeType sdk.constructors recipe)

def tinfoApply (handle : τ) : ℤ × σ := applied sdk s addr (some handle)

/-- Nothing is to be done where nothing is held. -/
def facadeClearType : ℤ × σ :=
  match sdk.getTinfo s addr with
  | none => (typeOk, s)
  | some _ =>
      match sdk.resetTinfo s addr with
      | none => (typeErrApply, s)
      | some s' => (typeOk, s')

end

/-! ### An expression as a text -/

def intText (bytes : UInt8) (signed : Bool) : Text :=
  (if signed then [] else ['u']) ++ "int".toList ++ Nat.toDigits 10 (bytes.toNat * 8)

mutual

def display : TypeExpr → Text
  | .void => "void".toList
  | .bool => "bool".toList
  | .int bytes signed => intText bytes signed
  | .float bytes => "float".toList ++ Nat.toDigits 10 (bytes.toNat * 8)
  | .bitfield nbytes width signed => intText nbytes signed ++ ':' :: Nat.toDigits 10 width.toNat
  | .named s | .decl s => s
  | .pointer inner => display inner ++ " *".toList
  | .array elem len => display elem ++ '[' :: Nat.toDigits 10 len.toNat ++ [']']
  | .const inner => "const ".toList ++ display inner
  | .volatile inner => "volatile ".toList ++ display inner
  | .function ret params varargs _ =>
      display ret ++ " (".toList ++ displayParams params ++
        (if varargs then (if params.isEmpty then "...".toList else ", ...".toList) else []) ++ [')']

def displayParams : List (Param TypeExpr) → Text
  | [] => []
  | ⟨name, ty⟩ :: params =>
      display ty ++ (match name with
        | some name => ' ' :: name
        | none => []) ++
      (if params.isEmpty then [] else ", ".toList) ++ displayParams params

end

/-! ### The cursor -/

inductive ApplyError
  | interiorNul (arg : String)
  | noType (name : Text)
  | parseFailed (decl reason : Text)
  | buildFailed (reason : Text)
  | applyRejected (address : UInt64) (reason : Text)
  | writeRejected (op : String) (address : UInt64) (errno : ℤ) (reason : Text)

section

-- `quoted` is how a string is shown for debugging, in quotes and with escapes.
variable {σ τ : Type} (sdk : NoteSdk σ τ) (quoted : Text → Text) (s : σ) (address : UInt64)

def finishApply {α : Type} (checked : Except Error α) (call : α → ℤ × σ)
    (input rejected : ApplyError) : Except ApplyError Unit × σ :=
  match checked with
  | .error (.interiorNul arg) => (.error (.interiorNul arg), s)
  | .ok a =>
      let out := call a
      (if out.1 = typeOk then .ok ()
        else if out.1 = typeErrInput then .error input
        else .error rejected, out.2)

def applyTypeAt : TypeExpr → Except ApplyError Unit × σ
  | .named name =>
      finishApply s (nulChecked name "name") (applyNamedType sdk s address) (.noType name)
        (.applyRejected address ("the kernel rejected named type ".toList ++ quoted name))
  | .decl decl =>
      finishApply s (nulChecked decl "decl") (applyTypeDecl sdk s address)
        (.parseFailed decl (reasonOr (sdk.captured s) "the declaration is not valid".toList))
        (.applyRejected address
          (reasonOr (sdk.captured s) "the kernel could not apply the parsed type".toList))
  | other =>
      finishApply s (checkedSerialize other) (applyTypeRecipe sdk s address)
        (.buildFailed (reasonOr (sdk.captured s) ("could not build `".toList ++ display other ++
          "` (an unknown named type or invalid declaration within it)".toList)))
        (.applyRejected address (reasonOr (sdk.captured s)
          ("the kernel could not apply the built type `".toList ++ display other ++ ['`'])))

/-- A handle is never one that could not be made. -/
def applyType (ty : τ) : Except ApplyError Unit × σ :=
  let rejected : ApplyError := .applyRejected address
    (reasonOr (sdk.captured s) "the kernel could not apply the built type".toList)
  finishApply s (.ok ty) (tinfoApply sdk s address) rejected rejected

def clearType : Except ApplyError Unit × σ :=
  let (errno, reason) := sdk.lastReason s
  let rejected : ApplyError := .writeRejected "clear_type" address errno reason
  finishApply s (.ok ()) (fun _ => facadeClearType sdk s address) rejected rejected

end

/-! ### Writes -/

inductive Write (τ : Type)
  | setType (address : UInt64) (ty : TypeExpr)
  | applyType (address : UInt64) (ty : τ)
  | clearType (address : UInt64)

section

variable {σ τ : Type} (sdk : NoteSdk σ τ) (quoted : Text → Text)

def Write.address : Write τ → UInt64
  | .setType address _ | .applyType address _ | .clearType address => address

def Write.run (s : σ) : Write τ → Except ApplyError Unit × σ
  | .setType address ty => applyTypeAt sdk quoted s address ty
  | .applyType address ty => TypeApply.applyType sdk s address ty
  | .clearType address => TypeApply.clearType sdk s address

def writes : KeyedMachine σ (Write τ) (Except ApplyError Unit) UInt64 where
  step := Write.run sdk quoted
  key := Write.address
  took := Except.isOk

end

/-! ### Reading -/

section

variable {τ : Type} (types : Sdk τ) (fuel : ℕ)

/-- The driver of the walk of what is held at an address. -/
def funcTypeWalkVisit (held : Option τ) : Option Driver :=
  match held with
  | none => some ⟨[], none⟩
  | some tif =>
      if types.empty tif then some ⟨[], none⟩
      else do
        let (root, w) ← ty types fuel tif .start
        return ⟨w.calls, some root⟩

def typeAt (held : Option τ) (address : UInt64) :
    Option (Except (UInt64 × ExtractError) (Option ResolvedType)) := do
  let driver ← funcTypeWalkVisit types fuel held
  let walked ← walkType driver
  return walked.mapError (address, ·)

end

end Idakit.Facade.TypeApply
