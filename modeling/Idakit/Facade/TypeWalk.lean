import Idakit.Types.Builder

/-!
The walk of a kernel type into the builder's callbacks. A named type mints
its handle before its body is walked and is walked once, on first sight; the
names seen are kept raw, while the handle is minted under the decoded name.

The kernel is a parameter: what it answers about a type descriptor, and how
a raw name is decoded. The walk recurses without a bound, so the model gives
it fuel: `none` stands for a walk that has not come to an end within the
fuel, or for a callback that panics.
-/

namespace Idakit.Facade

open Idakit.Types

abbrev Name := List UInt8

structure ReprDetails where
  vtype : ℕ
  isSigned : Bool
  hasLzeroes : Bool

structure Udm (τ : Type) where
  name : Name
  offset : ℕ
  type : τ
  isBitfield : Bool
  /-- In bits. -/
  size : ℕ
  repr : ReprDetails

structure EnumDetails where
  constants : List (Name × ℕ)
  isNumberSigned : Bool

structure FuncDetails (τ : Type) where
  rettype : τ
  args : List τ
  isVarargCc : Bool

structure BitfieldDetails where
  nbytes : ℕ
  isUnsigned : Bool

/-- What the kernel answers about the type descriptors `τ`. An answer that
the kernel may refuse is optional. -/
structure Sdk (τ : Type) where
  lossy : Name → Text
  empty : τ → Bool
  isTypedef : τ → Bool
  isPtr : τ → Bool
  isArray : τ → Bool
  isFunc : τ → Bool
  isUdt : τ → Bool
  isUnion : τ → Bool
  isEnum : τ → Bool
  isBool : τ → Bool
  isVoid : τ → Bool
  isFloating : τ → Bool
  isIntegral : τ → Bool
  isSigned : τ → Bool
  isBitfield : τ → Bool
  isBitmaskEnum : τ → Bool
  /-- `none` for `BADSIZE`. -/
  getSize : τ → Option ℕ
  getPointedObject : τ → τ
  getArrayElement : τ → τ
  getArrayNelems : τ → ℕ
  getFuncDetails : τ → Option (FuncDetails τ)
  getUdtDetails : τ → Option (List (Udm τ))
  getEnumDetails : τ → Option EnumDetails
  getEnumRepr : τ → Option ReprDetails
  getBitfieldDetails : τ → Option BitfieldDetails
  getTypeName : τ → Option Name
  print : τ → Option Name
  getNextTypeName : τ → Option Name
  getNamedType : Name → Option τ

def isModeledFrbVtype : ℕ → Bool
  | 0x1 | 0x2 | 0x3 | 0x4 | 0x6 => true
  | _ => false

def u32 (n : ℕ) : ℕ := n % 2 ^ 32

structure WalkState where
  builder : TypeBuilder
  /-- The names of the types that have been filled, or are being. -/
  defined : List Name
  calls : List SinkCall

def WalkState.start : WalkState := ⟨.new, [], []⟩

abbrev Walk := StateT WalkState Option

def visit (c : SinkCall) : Walk (Option TypeId) := fun w => do
  let (handle, builder) ← w.builder.call c
  return (handle, { w with builder, calls := w.calls ++ [c] })

def mint (c : SinkCall) : Walk TypeId := fun w => do
  let (handle, w) ← visit c w
  let id ← handle
  return (id, w)

section

variable {τ : Type} (sdk : Sdk τ)

/-- The declared name of a type, unless it is empty. -/
def typeName (t : τ) : Option Name := (sdk.getTypeName t).filter fun nm => !nm.isEmpty

/-- Last resort: the declared name, else the printed type, else `?`. -/
def tyOpaque (t : τ) : Walk TypeId :=
  match typeName sdk t with
  | some nm => mint (.opaqueNamed (sdk.lossy nm))
  | none =>
      match (sdk.print t).filter fun nm => !nm.isEmpty with
      | some nm => mint (.opaqueNamed (sdk.lossy nm))
      | none => mint (.opaqueNamed (sdk.lossy [63]))

def tyBitfield (t : τ) : Walk TypeId :=
  match sdk.getBitfieldDetails t with
  | some bi =>
      let nb := u32 bi.nbytes
      mint (.scalar 3 nb (if bi.isUnsigned then 0 else 1) nb (if nb ≠ 0 then 1 else 0))
  | none => tyOpaque sdk t

/-- Mint the handle of a type, and tell whether its name is newly seen. -/
def placeholder (t : τ) : Walk (TypeId × Bool) :=
  match typeName sdk t with
  | some nm => do
      let id ← mint (.namedRef (sdk.lossy nm))
      let w ← get
      let first := !w.defined.contains nm
      set { w with defined := if first then nm :: w.defined else w.defined }
      return (id, first)
  | none => do
      let id ← mint .anon
      return (id, true)

/-- Mint a type's handle and, on first sight, walk its body and fill it. -/
def fillOnce {α : Type} (t : τ) (body : Walk α) (fill : TypeId → α → SinkCall) :
    Walk TypeId := do
  let (id, first) ← placeholder sdk t
  if first then
    let a ← body
    let _ ← visit (fill id a)
  return id

def memberInfo (recur : τ → Walk TypeId) (m : Udm τ) : Walk MemberInfo := do
  let ty ← recur m.type
  let modeled := isModeledFrbVtype m.repr.vtype
  return {
    name := sdk.lossy m.name
    bitOffset := m.offset
    ty
    bitfieldWidth := if m.isBitfield then u32 m.size else 0
    reprVtype := if modeled then m.repr.vtype else 0
    reprSigned := modeled && m.repr.isSigned
    reprLeadingZeros := modeled && m.repr.hasLzeroes }

def tyUdt (recur : τ → Walk TypeId) (t : τ) (size hasSize : ℕ) : Walk TypeId :=
  fillOnce sdk t (((sdk.getUdtDetails t).getD []).mapM (memberInfo sdk recur))
    fun id members => .fillStruct id (sdk.isUnion t) members size hasSize

/-- An enum, its underlying integer four bytes wide if its size is unknown. -/
def tyEnum (t : τ) (size hasSize : ℕ) : Walk TypeId :=
  let details := (sdk.getEnumDetails t).getD ⟨[], false⟩
  let baseBytes := if hasSize ≠ 0 then u32 size else 4
  let repr := (sdk.getEnumRepr t).filter fun repr => isModeledFrbVtype repr.vtype
  fillOnce sdk t
    (mint (.scalar 3 baseBytes (if details.isNumberSigned then 1 else 0) size hasSize))
    fun id underlying =>
      .fillEnum id underlying (details.constants.map fun c => ⟨sdk.lossy c.1, c.2⟩) size hasSize
        (sdk.isBitmaskEnum t) ((repr.map ReprDetails.vtype).getD 0)
        ((repr.map ReprDetails.isSigned).getD false)
        ((repr.map ReprDetails.hasLzeroes).getD false)

/-- A function's return type and parameters; an unknown scalar stands for the
return type of a signature that the kernel cannot report. -/
def tyFunc (recur : τ → Walk TypeId) (t : τ) : Walk TypeId :=
  match sdk.getFuncDetails t with
  | some fd => do
      let ret ← recur fd.rettype
      let params ← fd.args.mapM recur
      mint (.func ret params (if fd.isVarargCc then 1 else 0))
  | none => do
      let ret ← mint (.scalar 0 0 0 0 0)
      mint (.func ret [] 0)

def tyResolved (recur : τ → Walk TypeId) (t : τ) : Walk TypeId :=
  let size := (sdk.getSize t).getD 0
  let hasSize := if size ≠ 0 then 1 else 0
  if sdk.empty t then tyOpaque sdk t
  else if sdk.isPtr t then do
    let target ← recur (sdk.getPointedObject t)
    mint (.ptr target size hasSize)
  else if sdk.isArray t then do
    let elem ← recur (sdk.getArrayElement t)
    mint (.array elem (sdk.getArrayNelems t) size hasSize)
  else if sdk.isFunc t then tyFunc sdk recur t
  else if sdk.isUdt t then tyUdt sdk recur t size hasSize
  else if sdk.isEnum t then tyEnum sdk t size hasSize
  else if sdk.isBool t then mint (.scalar 2 0 0 size hasSize)
  else if sdk.isVoid t then mint (.scalar 1 0 0 size hasSize)
  else if sdk.isFloating t then mint (.scalar 4 (u32 size) 0 size hasSize)
  else if sdk.isIntegral t then
    mint (.scalar 3 (u32 size) (if sdk.isSigned t then 1 else 0) size hasSize)
  else if sdk.isBitfield t then tyBitfield sdk t
  else tyOpaque sdk t

/-- A typedef: one step to the next named type of its chain, or to the type
it resolves to. -/
def tyTypedef (recur : τ → Walk TypeId) (t : τ) : Walk TypeId :=
  fillOnce sdk t
    (match (sdk.getNextTypeName t).bind sdk.getNamedType with
      | some und => recur und
      | none => tyResolved sdk recur t)
    fun id underlying => .fillTypedef id underlying

/-- One level of the walk, over the walk `recur` of the types inside. -/
def tyWith (recur : τ → Walk TypeId) (t : τ) : Walk TypeId :=
  if !sdk.empty t && sdk.isTypedef t then tyTypedef sdk recur t else tyResolved sdk recur t

def ty : ℕ → τ → Walk TypeId
  | 0, _ => fun _ => none
  | fuel + 1, t => tyWith sdk (ty fuel) t

end

end Idakit.Facade
