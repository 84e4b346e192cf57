import Mathlib.Algebra.Group.Nat.Defs
import Mathlib.Data.Char
import Mathlib.Data.List.Lex
import Mathlib.Data.Nat.Notation

/-!
The interned type table. A type is a shape whose children are handles
into one arena, so recursion is a handle that points back; `intern`
shares equal entries, and a named aggregate reserves its handle before
its body is known.

Handles are natural numbers: the arena panics rather than hand out a
handle past `u32::MAX`, so the model and the code agree on every table
that can be built. Integers the code only stores and compares are
natural numbers too.
-/

namespace Idakit.Types

/-- A Rust `String`, as its list of Unicode scalar values. Comparing two
strings compares their UTF-8 bytes, which is the order of their scalar
values. -/
abbrev Text := List Char

abbrev TypeId := ℕ

/-- How a member's numeric value displays: the modelled `FRB_*` nibbles. -/
inductive NumberFormat
  | binary | octal | hexadecimal | decimal | char
  deriving DecidableEq

def NumberFormat.tryFrom : ℕ → Option NumberFormat
  | 0x1 => some .binary
  | 0x2 => some .octal
  | 0x3 => some .hexadecimal
  | 0x4 => some .decimal
  | 0x6 => some .char
  | _ => none

structure ValueRepr where
  format : NumberFormat
  signed : Bool
  leadingZeros : Bool
  deriving DecidableEq

structure TypeMember where
  /-- Empty if IDA gave none. -/
  name : Text
  bitOffset : ℕ
  ty : TypeId
  /-- `none` for an ordinary field. -/
  bitfieldWidth : Option ℕ
  repr : Option ValueRepr
  deriving DecidableEq

structure EnumMember where
  name : Text
  value : ℕ
  deriving DecidableEq

inductive TypeShape
  | void
  | bool
  | int (bytes : ℕ) (signed : Bool)
  | float (bytes : ℕ)
  | ptr (pointee : TypeId)
  | array (elem : TypeId) (len : ℕ)
  | struct (name : Option Text) (members : List TypeMember)
  | union (name : Option Text) (members : List TypeMember)
  | enum (name : Option Text) (underlying : TypeId) (members : List EnumMember)
      (isBitmask : Bool) (repr : Option ValueRepr)
  | function (ret : TypeId) (params : List TypeId) (varargs : Bool)
  | typedef (name : Text) (underlying : TypeId)
  /-- A named type without a body here. -/
  | opaqueNamed (name : Text)
  /-- A placeholder whose body has not been filled. -/
  | unknown
  deriving DecidableEq

structure TypeValue where
  shape : TypeShape
  size : Option ℕ
  deriving DecidableEq

def TypeShape.children : TypeShape → List TypeId
  | .ptr pointee => [pointee]
  | .array elem _ => [elem]
  | .struct _ members | .union _ members => members.map TypeMember.ty
  | .enum _ underlying _ _ _ => [underlying]
  | .function ret params _ => ret :: params
  | .typedef _ underlying => [underlying]
  | .void | .bool | .int _ _ | .float _ | .opaqueNamed _ | .unknown => []

/-- Structs and unions, the shapes whose members may close a cycle. -/
def TypeShape.IsRecord : TypeShape → Prop
  | .struct _ _ | .union _ _ => True
  | _ => False

/-- An interned arena of types. The `dedup` map is a list of pairs, read
from the front. -/
structure TypeTable where
  arena : List TypeValue
  dedup : List (TypeValue × TypeId)
  deriving DecidableEq

namespace TypeTable

def new : TypeTable := ⟨[], []⟩

def len (table : TypeTable) : ℕ := table.arena.length

/-- The type behind a handle; indexing past the arena panics, here `none`. -/
def get (table : TypeTable) (id : TypeId) : Option TypeValue := table.arena[id]?

/-- Append an entry without recording it for sharing. -/
def alloc (table : TypeTable) (data : TypeValue) : TypeId × TypeTable :=
  (table.len, { table with arena := table.arena ++ [data] })

def intern (table : TypeTable) (data : TypeValue) : TypeId × TypeTable :=
  match table.dedup.lookup data with
  | some id => (id, table)
  | none =>
      let (id, table) := table.alloc data
      (id, { table with dedup := (data, id) :: table.dedup })

def allocPlaceholder (table : TypeTable) : TypeId × TypeTable :=
  table.alloc ⟨.unknown, none⟩

/-- Overwrite the entry of a handle; a handle past the arena panics. -/
def fill (table : TypeTable) (id : TypeId) (data : TypeValue) : Option TypeTable :=
  if id < table.len then some { table with arena := table.arena.set id data } else none

def HandlesInRange (table : TypeTable) : Prop :=
  ∀ id value, table.get id = some value → ∀ child ∈ value.shape.children, child < table.len

def Edge (table : TypeTable) (id child : TypeId) : Prop :=
  ∃ value, table.get id = some value ∧ child ∈ value.shape.children

def Reachable (table : TypeTable) : TypeId → TypeId → Prop :=
  Relation.ReflTransGen table.Edge

theorem get_isSome_iff {table : TypeTable} {id : TypeId} :
    (∃ value, table.get id = some value) ↔ id < table.len := by
  simp [← Option.isSome_iff_exists, get, len]

theorem lt_len_of_get {table : TypeTable} {id : TypeId} {value : TypeValue}
    (h : table.get id = some value) : id < table.len :=
  get_isSome_iff.mp ⟨value, h⟩

theorem handlesInRange_iff {table : TypeTable} :
    table.HandlesInRange ↔
      ∀ value ∈ table.arena, ∀ child ∈ value.shape.children, child < table.len := by
  constructor
  · intro h value hvalue
    obtain ⟨id, hid⟩ := List.mem_iff_getElem?.mp hvalue
    exact h id value hid
  · intro h id value hget
    exact h value (List.mem_of_getElem? hget)

end TypeTable

end Idakit.Types
