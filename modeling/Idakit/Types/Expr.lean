import Idakit.Library.LittleEndian
import Idakit.Types.Table

/-!
The recipe of a type to apply, and the postfix bytes it is sent as: the
bytes of the children stand before the opcode of their parent, so the other
side rebuilds the type with one stack.

A recipe is checked before it is sent. A name that holds a zero byte would be
cut short by the other side, and is refused.
-/

namespace Idakit.Types

open Idakit.Library

inductive CallingConvention
  | unknown | cdecl | stdcall | pascal | fastcall | thiscall | swift | golang
  deriving DecidableEq

def CallingConvention.code : CallingConvention → ℕ
  | .unknown => 0x10
  | .cdecl => 0x30
  | .stdcall => 0x50
  | .pascal => 0x60
  | .fastcall => 0x70
  | .thiscall => 0x80
  | .swift => 0x90
  | .golang => 0xB0

structure Param (ε : Type) where
  name : Option Text
  ty : ε

inductive TypeExpr
  | void
  | bool
  | int (bytes : UInt8) (signed : Bool)
  | float (bytes : UInt8)
  /-- A field of `width` bits in a container of `nbytes` bytes. -/
  | bitfield (nbytes width : UInt8) (signed : Bool)
  | decl (text : Text)
  | named (name : Text)
  | pointer (inner : TypeExpr)
  | array (elem : TypeExpr) (len : UInt64)
  | const (inner : TypeExpr)
  | volatile (inner : TypeExpr)
  | function (ret : TypeExpr) (params : List (Param TypeExpr)) (varargs : Bool)
      (cc : Option CallingConvention)

def TypeExpr.children : TypeExpr → List TypeExpr
  | .pointer inner | .const inner | .volatile inner => [inner]
  | .array elem _ => [elem]
  | .function ret params _ _ => ret :: params.map Param.ty
  | .void | .bool | .int _ _ | .float _ | .bitfield _ _ _ | .decl _ | .named _ => []

inductive TypeExpr.Everywhere (p : TypeExpr → Prop) : TypeExpr → Prop
  | mk {e} (here : p e) (inside : ∀ c ∈ e.children, Everywhere p c) : Everywhere p e

theorem TypeExpr.Everywhere.here {p : TypeExpr → Prop} {e : TypeExpr} (h : e.Everywhere p) :
    p e := by
  cases h with
  | mk here inside => exact here

theorem TypeExpr.Everywhere.inside {p : TypeExpr → Prop} {e : TypeExpr} (h : e.Everywhere p) :
    ∀ c ∈ e.children, c.Everywhere p := by
  cases h with
  | mk here inside => exact inside

theorem TypeExpr.childrenInduct {motive : TypeExpr → Prop}
    (step : ∀ e, (∀ c ∈ e.children, motive c) → motive e) (e : TypeExpr) : motive e := by
  have leaf {e : TypeExpr} (h : e.children = []) : motive e :=
    step e fun c hc => by simp [h] at hc
  have single {e inner : TypeExpr} (h : e.children = [inner]) (hinner : motive inner) : motive e :=
    step e fun c hc => by
      rw [h, List.mem_singleton] at hc
      exact hc ▸ hinner
  refine @TypeExpr.rec motive (fun params => ∀ c ∈ params.map Param.ty, motive c)
    (fun p => motive p.ty) (leaf rfl) (leaf rfl) (fun _ _ => leaf rfl)
    (fun _ => leaf rfl) (fun _ _ _ => leaf rfl) (fun _ => leaf rfl) (fun _ => leaf rfl)
    (fun _ => single rfl) (fun _ _ => single rfl) (fun _ => single rfl) (fun _ => single rfl)
    (fun ret params _ _ hret hparams => step _ ?_) ?_ ?_ ?_ e
  · intro c hc
    rcases List.mem_cons.mp hc with rfl | hc
    · exact hret
    · exact hparams c hc
  · simp
  · intro p params hp hparams c hc
    rcases List.mem_cons.mp hc with rfl | hc
    · exact hp
    · exact hparams c hc
  · exact fun name ty hty => hty

def Text.asBytes (s : Text) : List UInt8 := s.flatMap String.utf8EncodeChar

inductive Error
  | interiorNul (arg : String)
  deriving DecidableEq

def nulChecked (s : Text) (arg : String) : Except Error Text :=
  if s.asBytes.any (· == 0) then .error (.interiorNul arg) else .ok s

/-! ### Opcodes -/

def recipeVoid : UInt8 := 0
def recipeBool : UInt8 := 1
def recipeInt : UInt8 := 2
def recipeFloat : UInt8 := 3
def recipeNamed : UInt8 := 4
def recipeDecl : UInt8 := 5
def recipePtr : UInt8 := 6
def recipeArray : UInt8 := 7
def recipeConst : UInt8 := 8
def recipeVolatile : UInt8 := 9
def recipeFunction : UInt8 := 10
def recipeBitfield : UInt8 := 11

/-! ### Serialization -/

def u32Max : ℕ := 0xffffffff

/-- A length as a `u32`, the largest one for a length that is larger. -/
def clampU32 (n : ℕ) : ℕ := if n ≤ u32Max then n else u32Max

def encodeLenPrefixed (s : Text) : List UInt8 :=
  let bytes := s.asBytes
  let len := clampU32 bytes.length
  toLeBytes 4 len ++ bytes.take len

def encodeStr (op : UInt8) (s : Text) : List UInt8 := op :: encodeLenPrefixed s

def encodeNames (params : List (Param TypeExpr)) : List UInt8 :=
  params.flatMap fun p => encodeLenPrefixed (p.name.getD [])

mutual

/-- No name, declaration or parameter name holds a zero byte. -/
def TypeExpr.check : TypeExpr → Except Error Unit
  | .void | .bool | .int _ _ | .float _ | .bitfield _ _ _ => .ok ()
  | .named name => (nulChecked name "name").map fun _ => ()
  | .decl text => (nulChecked text "decl").map fun _ => ()
  | .pointer inner | .const inner | .volatile inner => inner.check
  | .array elem _ => elem.check
  | .function ret params _ _ => do
      ret.check
      checkParams params

def checkParams : List (Param TypeExpr) → Except Error Unit
  | [] => .ok ()
  | ⟨name, ty⟩ :: params => do
      if let some name := name then
        let _ ← nulChecked name "parameter name"
      ty.check
      checkParams params

end

mutual

/-- The return type of a function is pushed first, then its parameters, so
the other side finds it just below them. -/
def TypeExpr.encode : TypeExpr → List UInt8
  | .void => [recipeVoid]
  | .bool => [recipeBool]
  | .int bytes signed => [recipeInt, bytes, signed.toUInt8]
  | .float bytes => [recipeFloat, bytes]
  | .bitfield nbytes width signed => [recipeBitfield, nbytes, width, signed.toUInt8]
  | .named name => encodeStr recipeNamed name
  | .decl text => encodeStr recipeDecl text
  | .pointer inner => inner.encode ++ [recipePtr]
  | .array elem len => elem.encode ++ recipeArray :: toLeBytes 8 len.toNat
  | .const inner => inner.encode ++ [recipeConst]
  | .volatile inner => inner.encode ++ [recipeVolatile]
  | .function ret params varargs cc =>
      let count := clampU32 params.length
      -- A convention of zero leaves the target's default.
      let ccRaw := (cc.map CallingConvention.code).getD 0
      ret.encode ++ encodeParams params ++
        recipeFunction :: (toLeBytes 4 count ++ varargs.toUInt8 :: toLeBytes 2 ccRaw ++
          encodeNames (params.take count))

def encodeParams : List (Param TypeExpr) → List UInt8
  | [] => []
  | ⟨_, ty⟩ :: params => ty.encode ++ encodeParams params

end

def TypeExpr.serialize (e : TypeExpr) : List UInt8 := e.encode

end Idakit.Types
