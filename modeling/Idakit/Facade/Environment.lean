import Idakit.Facade.WalkCalls
import Idakit.Library.Unfolding
import Idakit.Types.Expr

/-!
A kernel's types as an environment: named definitions, over type references
that spell out everything which has no name. From it come the kernel's answers
about a reference, and what a table has to show to be the environment's
unfolding of one.
-/

namespace Idakit.Facade

open Idakit.Library Idakit.Types

/-- A member over references `ρ`. A bit-field that declares a member is not
empty. -/
structure Member (ρ : Type) where
  name : Text
  bitOffset : ℕ
  type : ρ
  bitfieldWidth : Option { width : ℕ // 0 < width ∧ width < 2 ^ 32 }
  repr : ReprDetails

structure Enumeration where
  constants : List (Text × ℕ)
  isSigned : Bool
  isBitmask : Bool
  repr : Option ReprDetails
  /-- In bytes, zero if it is not known. -/
  size : Fin 256

/-- What a name or a place in a type may hold in full. -/
inductive Body (ρ : Type)
  | record (isUnion : Bool) (members : List (Member ρ)) (size : Option ℕ)
  | enumeration (e : Enumeration)

/-- A reference to a type. A scalar is less than 256 bytes wide. -/
inductive TypeRef
  | named (name : Text)
  | void
  | bool (size : Option ℕ)
  | integral (bytes : Fin 256) (signed : Bool)
  | floating (bytes : Fin 256)
  | bitfield (nbytes : Fin 256) (isUnsigned : Bool)
  | ptr (target : TypeRef) (size : Option ℕ)
  | array (elem : TypeRef) (nelems : ℕ) (size : Option ℕ)
  | func (ret : TypeRef) (args : List TypeRef) (vararg : Bool)
  | anonymous (body : Body TypeRef)
  /-- None of the kinds above, with the text it prints as. -/
  | unmodelled (text : Text)

inductive Definition
  | typedef (target : TypeRef)
  | type (body : Body TypeRef)

/-! ### Names -/

mutual

def TypeRef.names : TypeRef → List Text
  | .named name => [name]
  | .ptr target _ => target.names
  | .array elem _ _ => elem.names
  | .func ret args _ => ret.names ++ namesOfRefs args
  | .anonymous body => body.names
  | .void | .bool _ | .integral _ _ | .floating _ | .bitfield _ _ | .unmodelled _ => []

def Body.names : Body TypeRef → List Text
  | .record _ members _ => namesOfMembers members
  | .enumeration _ => []

def namesOfRefs : List TypeRef → List Text
  | [] => []
  | t :: ts => t.names ++ namesOfRefs ts

def namesOfMembers : List (Member TypeRef) → List Text
  | [] => []
  | m :: ms => m.names ++ namesOfMembers ms

def Member.names : Member TypeRef → List Text
  | ⟨_, _, type, _, _⟩ => type.names

end

def Definition.names : Definition → List Text
  | .typedef target => target.names
  | .type body => body.names

/-- Definitions, one for each name, of every name they mention. -/
structure Environment where
  definitions : List (Text × Definition)
  nodup_names : (definitions.map Prod.fst).Nodup
  names_ne_nil : [] ∉ definitions.map Prod.fst
  closed : ∀ p ∈ definitions, ∀ n ∈ p.2.names, n ∈ definitions.map Prod.fst

namespace Environment

def names (env : Environment) : List Text := env.definitions.map Prod.fst

def definition (env : Environment) (n : Text) : Option Definition := env.definitions.lookup n

/-- What a reference finally resolves to, through at most `fuel` names. -/
def resolve (env : Environment) : ℕ → TypeRef → TypeRef
  | fuel + 1, .named n =>
      match env.definition n with
      | some (.typedef target) => env.resolve fuel target
      | some (.type body) => .anonymous body
      | none => .named n
  | _, t => t

/-- What a reference finally resolves to: a chain of typedefs passes every
name at most once. -/
def final (env : Environment) (t : TypeRef) : TypeRef := env.resolve env.definitions.length t

end Environment

/-! ### The kernel's answers -/

def Member.toUdm (m : Member TypeRef) : Udm TypeRef where
  name := m.name.asBytes
  offset := m.bitOffset
  type := m.type
  isBitfield := m.bitfieldWidth.isSome
  size := (m.bitfieldWidth.map Subtype.val).getD 0
  repr := m.repr

def Enumeration.toDetails (e : Enumeration) : EnumDetails where
  constants := e.constants.map fun c => (c.1.asBytes, c.2)
  isNumberSigned := e.isSigned

def TypeRef.size : TypeRef → Option ℕ
  | .integral bytes _ | .floating bytes | .bitfield bytes _ => some bytes
  | .bool size | .ptr _ size | .array _ _ size | .anonymous (.record _ _ size) => size
  | .anonymous (.enumeration e) => some e.size
  | .named _ | .void | .func _ _ _ | .unmodelled _ => none

/-- The size that the entry of a reference is given: a size of zero is none. -/
def TypeRef.givenSize (t : TypeRef) : Option ℕ := t.size.filter fun size => size ≠ 0

/-- A kernel that holds an environment. A reference to a name reports the
name; its predicates and its details are those of what it finally resolves
to, and the next name is that of a typedef's target. -/
def Environment.sdk (env : Environment) (lossy : Name → Text) : Sdk TypeRef where
  lossy
  empty _ := false
  isTypedef
    | .named n => match env.definition n with
      | some (.typedef _) => true
      | _ => false
    | _ => false
  isPtr t := match env.final t with
    | .ptr _ _ => true
    | _ => false
  isArray t := match env.final t with
    | .array _ _ _ => true
    | _ => false
  isFunc t := match env.final t with
    | .func _ _ _ => true
    | _ => false
  isUdt t := match env.final t with
    | .anonymous (.record _ _ _) => true
    | _ => false
  isUnion t := match env.final t with
    | .anonymous (.record isUnion _ _) => isUnion
    | _ => false
  isEnum t := match env.final t with
    | .anonymous (.enumeration _) => true
    | _ => false
  isBool t := match env.final t with
    | .bool _ => true
    | _ => false
  isVoid t := match env.final t with
    | .void => true
    | _ => false
  isFloating t := match env.final t with
    | .floating _ => true
    | _ => false
  isIntegral t := match env.final t with
    | .integral _ _ => true
    | _ => false
  isSigned t := match env.final t with
    | .integral _ signed => signed
    | _ => false
  isBitfield t := match env.final t with
    | .bitfield _ _ => true
    | _ => false
  isBitmaskEnum t := match env.final t with
    | .anonymous (.enumeration e) => e.isBitmask
    | _ => false
  getSize t := (env.final t).size
  getPointedObject t := match env.final t with
    | .ptr target _ => target
    | _ => t
  getArrayElement t := match env.final t with
    | .array elem _ _ => elem
    | _ => t
  getArrayNelems t := match env.final t with
    | .array _ nelems _ => nelems
    | _ => 0
  getFuncDetails t := match env.final t with
    | .func ret args vararg => some ⟨ret, args, vararg⟩
    | _ => none
  getUdtDetails t := match env.final t with
    | .anonymous (.record _ members _) => some (members.map Member.toUdm)
    | _ => none
  getEnumDetails t := match env.final t with
    | .anonymous (.enumeration e) => some e.toDetails
    | _ => none
  getEnumRepr t := match env.final t with
    | .anonymous (.enumeration e) => e.repr
    | _ => none
  getBitfieldDetails t := match env.final t with
    | .bitfield nbytes isUnsigned => some ⟨nbytes, isUnsigned⟩
    | _ => none
  getTypeName
    | .named n => (env.definition n).map fun _ => n.asBytes
    | _ => none
  print t := match env.final t with
    | .unmodelled text => some text.asBytes
    | _ => none
  getNextTypeName
    | .named n => match env.definition n with
      | some (.typedef (.named m)) => some m.asBytes
      | _ => none
    | _ => none
  getNamedType nm := (env.names.find? fun n => n.asBytes = nm).map .named

/-! ### What a table has to show -/

def ReprDetails.display (r : ReprDetails) : Option ValueRepr :=
  (NumberFormat.tryFrom r.vtype).map fun format => ⟨format, r.isSigned, r.hasLzeroes⟩

def Member.toTypeMember (m : Member TypeRef) (ty : TypeId) : TypeMember where
  name := m.name
  bitOffset := m.bitOffset
  ty
  bitfieldWidth := m.bitfieldWidth.map Subtype.val
  repr := m.repr.display

/-- An enum's underlying integer is four bytes wide if its size is unknown. -/
def Enumeration.underlying (e : Enumeration) : TypeRef :=
  .integral (if e.size = 0 then 4 else e.size) e.isSigned

/-- An unmodelled type goes by the name it is declared under, if any: as
`ty_opaque` has it, a typedef of one is taken under its own name. -/
def TypeRef.knownAs : Option Text → TypeRef → TypeRef
  | some n, .unmodelled _ => .unmodelled n
  | _, t => t

def Body.children : Body TypeRef → List TypeRef
  | .record _ members _ => members.map Member.type
  | .enumeration e => [e.underlying]

def Body.shape (tag : Option Text) : Body TypeRef → List TypeId → TypeShape
  | .record isUnion members _, ids =>
      let members := List.zipWith Member.toTypeMember members ids
      if isUnion then .union tag members else .struct tag members
  | .enumeration e, ids =>
      .enum tag (ids.headD 0) (e.constants.map fun c => ⟨c.1, c.2⟩) e.isBitmask
        (e.repr.bind ReprDetails.display)

namespace Environment

/-- The types inside a reference, a name standing for its definition. -/
def children (env : Environment) : TypeRef → List TypeRef
  | .named n =>
      match env.definition n with
      | some (.typedef target) => [target.knownAs (some n)]
      | some (.type body) => body.children
      | none => []
  | .ptr target _ => [target]
  | .array elem _ _ => [elem]
  | .func ret args _ => ret :: args
  | .anonymous body => body.children
  | .void | .bool _ | .integral _ _ | .floating _ | .bitfield _ _ | .unmodelled _ => []

def shape (env : Environment) : TypeRef → List TypeId → TypeShape
  | .named n, ids =>
      match env.definition n with
      | some (.typedef _) => .typedef n (ids.headD 0)
      | some (.type body) => body.shape (some n) ids
      | none => .unknown
  | .void, _ => .void
  | .bool _, _ => .bool
  | .integral bytes signed, _ => .int bytes signed
  | .floating bytes, _ => .float bytes
  | .bitfield nbytes isUnsigned, _ => .int nbytes !isUnsigned
  | .ptr _ _, ids => .ptr (ids.headD 0)
  | .array _ nelems _, ids => .array (ids.headD 0) nelems
  | .func _ _ vararg, ids => .function (ids.headD 0) ids.tail vararg
  | .anonymous body, ids => body.shape none ids
  | .unmodelled text, _ => .opaqueNamed (if text = [] then ['?'] else text)

def layout (env : Environment) (table : TypeTable) : Presentation TypeRef TypeId where
  children := env.children
  holds t id ids := ∃ value, table.get id = some value ∧ value.shape = env.shape t ids

/-- A table unfolded from a handle is the environment's unfolding of a
reference. -/
def Unfolds (env : Environment) (table : TypeTable) : TypeRef → TypeId → Prop :=
  (env.layout table).Unfolds

/-- The names that the definition of a name mentions. An unnamed struct, union
or enum that a typedef stands for is not looked into. -/
def nextNames (env : Environment) (n : Text) : List Text :=
  match env.definition n with
  | some (.typedef (.anonymous _)) | none => []
  | some d => d.names

def Reaches (env : Environment) : TypeRef → TypeRef → Prop :=
  Relation.ReflTransGen fun t c => c ∈ env.children t

end Environment

/-! ### Names and their bytes -/

def DecodesUtf8 (lossy : Name → Text) : Prop := ∀ text : Text, lossy text.asBytes = text

namespace DecodesUtf8

variable {lossy : Name → Text}

theorem injective (h : DecodesUtf8 lossy) {n m : Text} (heq : n.asBytes = m.asBytes) : n = m := by
  rw [← h n, heq, h m]

theorem isEmpty_asBytes (h : DecodesUtf8 lossy) (n : Text) : n.asBytes.isEmpty = n.isEmpty := by
  rw [Bool.eq_iff_iff, List.isEmpty_iff, List.isEmpty_iff]
  exact ⟨fun heq => h.injective (m := []) heq, fun heq => heq ▸ rfl⟩

end DecodesUtf8

namespace Environment

variable {env : Environment} {n : Text}

theorem mem_names_iff : n ∈ env.names ↔ ∃ d, env.definition n = some d := by
  rw [← Option.isSome_iff_exists, definition, List.lookup_isSome_iff, names, List.mem_map]
  exact exists_congr fun p => and_congr_right fun _ => by rw [beq_iff_eq, eq_comm]

theorem mem_of_definition {d : Definition} (h : env.definition n = some d) :
    (n, d) ∈ env.definitions := by
  obtain ⟨l, l', heq, -⟩ := List.lookup_eq_some_iff.mp h
  rw [heq]
  simp

theorem ne_nil_of_definition {d : Definition} (h : env.definition n = some d) : n ≠ [] := by
  rintro rfl
  exact env.names_ne_nil (mem_names_iff.mpr ⟨d, h⟩)

/-! ### What is inside a reference -/

theorem names_subset_of_mem_refs {t : TypeRef} {ts : List TypeRef} (ht : t ∈ ts) :
    t.names ⊆ namesOfRefs ts := by
  induction ts with
  | nil => cases ht
  | cons t' ts ih =>
      rw [namesOfRefs]
      rcases List.mem_cons.mp ht with rfl | ht
      · exact List.subset_append_left _ _
      · exact List.Subset.trans (ih ht) (List.subset_append_right _ _)

theorem names_subset_of_mem_members {m : Member TypeRef} {ms : List (Member TypeRef)}
    (hm : m ∈ ms) : m.type.names ⊆ namesOfMembers ms := by
  induction ms with
  | nil => cases hm
  | cons m' ms ih =>
      rw [namesOfMembers]
      rcases List.mem_cons.mp hm with rfl | hm
      · obtain ⟨name, bitOffset, type, width, repr⟩ := m
        exact List.subset_append_left _ _
      · exact List.Subset.trans (ih hm) (List.subset_append_right _ _)

theorem names_knownAs (tag : Option Text) (t : TypeRef) : (t.knownAs tag).names = t.names := by
  cases tag <;> cases t <;> rfl

theorem names_subset_of_mem_body {b : Body TypeRef} {c : TypeRef} (hc : c ∈ b.children) :
    c.names ⊆ b.names := by
  cases b with
  | record isUnion members size =>
      obtain ⟨m, hm, rfl⟩ := List.mem_map.mp hc
      exact names_subset_of_mem_members hm
  | enumeration e =>
      rw [List.mem_singleton.mp hc]
      exact List.nil_subset _

theorem names_member (m : Member TypeRef) : m.names = m.type.names := by
  obtain ⟨name, bitOffset, type, width, repr⟩ := m
  rfl

/-- What is inside a reference mentions only defined names if it does. -/
theorem names_subset_of_mem_children {t c : TypeRef} (hc : c ∈ env.children t)
    (ht : t.names ⊆ env.names) : c.names ⊆ env.names := by
  cases t with
  | named n =>
      rw [children] at hc
      split at hc
      next target hn =>
        rw [List.mem_singleton.mp hc, names_knownAs]
        exact env.closed _ (mem_of_definition hn)
      next body hn =>
        exact List.Subset.trans (names_subset_of_mem_body hc) (env.closed _ (mem_of_definition hn))
      next => cases hc
  | ptr target size | array target nelems size =>
      rw [List.mem_singleton.mp hc]
      exact ht
  | func ret args vararg =>
      rw [TypeRef.names, List.append_subset] at ht
      rcases List.mem_cons.mp hc with rfl | hc
      · exact ht.1
      · exact List.Subset.trans (names_subset_of_mem_refs hc) ht.2
  | anonymous body => exact List.Subset.trans (names_subset_of_mem_body hc) ht
  | _ => cases hc

/-- References whose insides are among them, and whose names are defined. -/
structure Closes (env : Environment) (met : TypeRef → Prop) : Prop where
  child {t c : TypeRef} (ht : met t) (hc : c ∈ env.children t) : met c
  names {t : TypeRef} (ht : met t) : t.names ⊆ env.names

theorem Closes.definition {met : TypeRef → Prop} (h : env.Closes met) (hn : met (.named n)) :
    ∃ d, env.definition n = some d :=
  mem_names_iff.mp (h.names hn (List.mem_singleton_self n))

theorem closes_reaches {root : TypeRef} (hroot : root.names ⊆ env.names) :
    env.Closes (env.Reaches root) where
  child ht hc := ht.tail hc
  names ht := by
    induction ht with
    | refl => exact hroot
    | tail _ hc ih => exact names_subset_of_mem_children hc ih

/-- Every reference whose names are defined. -/
theorem closes_names : env.Closes fun t => t.names ⊆ env.names where
  child ht hc := names_subset_of_mem_children hc ht
  names ht := ht

/-- Only a name has something larger inside. -/
theorem sizeOf_lt_of_mem_children {t c : TypeRef} (ht : ∀ n, t ≠ .named n)
    (henum : ∀ e, t ≠ .anonymous (.enumeration e)) (hc : c ∈ env.children t) :
    sizeOf c < sizeOf t := by
  cases t with
  | named n => exact absurd rfl (ht n)
  | ptr target size | array target nelems size =>
      rw [List.mem_singleton.mp hc]
      simp only [TypeRef.ptr.sizeOf_spec, TypeRef.array.sizeOf_spec]
      omega
  | func ret args vararg =>
      rw [TypeRef.func.sizeOf_spec]
      rcases List.mem_cons.mp hc with rfl | hc
      · omega
      · have := List.sizeOf_lt_of_mem hc
        omega
  | anonymous body =>
      cases body with
      | record isUnion members size =>
          obtain ⟨m, hm, rfl⟩ := List.mem_map.mp hc
          have hlt := List.sizeOf_lt_of_mem hm
          obtain ⟨name, bitOffset, type, width, repr⟩ := m
          simp only [Member.mk.sizeOf_spec] at hlt
          simp only [TypeRef.anonymous.sizeOf_spec, Body.record.sizeOf_spec]
          omega
      | enumeration e => exact absurd rfl (henum e)
  | _ => cases hc

/-! ### What the kernel answers -/

/-- `d` is a descriptor of a type that is not a name, declared under a tag or
under none. -/
inductive Describes (env : Environment) : TypeRef → Option Text → TypeRef → Prop
  | plain {t} (ht : ∀ n, t ≠ .named n) : Describes env t none t
  | target {n t} (hn : env.definition n = some (.typedef t)) (ht : ∀ n, t ≠ .named n) :
      Describes env (.named n) (some n) t
  | body {n body} (hn : env.definition n = some (.type body)) :
      Describes env (.named n) (some n) (.anonymous body)

theorem resolve_of_ne_named {t : TypeRef} (ht : ∀ n, t ≠ .named n) (fuel : ℕ) :
    env.resolve fuel t = t := by
  cases fuel with
  | zero => rfl
  | succ fuel =>
      cases t with
      | named n => exact absurd rfl (ht n)
      | _ => rfl

theorem Describes.final_eq {d t : TypeRef} {tag : Option Text} (h : env.Describes d tag t) :
    env.final d = t := by
  have hlength {n d} (hn : env.definition n = some d) :
      ∃ fuel, env.definitions.length = fuel + 1 := by
    have hpos := List.length_pos_of_mem (mem_of_definition hn)
    exact ⟨env.definitions.length - 1, by omega⟩
  cases h with
  | plain ht => exact resolve_of_ne_named ht _
  | target hn ht =>
      obtain ⟨fuel, hfuel⟩ := hlength hn
      rw [final, hfuel, resolve, hn]
      exact resolve_of_ne_named ht fuel
  | body hn =>
      obtain ⟨fuel, hfuel⟩ := hlength hn
      rw [final, hfuel, resolve, hn]

section

variable {lossy : Name → Text} (hlossy : DecodesUtf8 lossy)
include hlossy

theorem typeName_named {d : Definition} (hn : env.definition n = some d) :
    typeName (env.sdk lossy) (.named n) = some n.asBytes := by
  have hempty : n.asBytes.isEmpty = false := by
    rw [hlossy.isEmpty_asBytes]
    exact List.isEmpty_eq_false_iff.mpr (ne_nil_of_definition hn)
  simp [typeName, sdk, hn, hempty]

theorem Describes.typeName_eq {d t : TypeRef} {tag : Option Text} (h : env.Describes d tag t) :
    typeName (env.sdk lossy) d = tag.map Text.asBytes := by
  cases h with
  | plain ht =>
      cases d with
      | named n => exact absurd rfl (ht n)
      | _ => rfl
  | target hn _ | body hn => exact typeName_named hlossy hn

theorem getNamedType_asBytes (hn : n ∈ env.names) :
    (env.sdk lossy).getNamedType n.asBytes = some (.named n) := by
  have hfound : (env.names.find? fun m => m.asBytes = n.asBytes) = some n := by
    cases h : env.names.find? fun m => m.asBytes = n.asBytes with
    | none =>
        have hne := List.find?_eq_none.mp h n hn
        simp at hne
    | some m =>
        have heq : m.asBytes = n.asBytes := by simpa using List.find?_some h
        rw [hlossy.injective heq]
  show (env.names.find? fun m => m.asBytes = n.asBytes).map TypeRef.named = _
  rw [hfound, Option.map_some]

theorem decodesApart : (env.sdk lossy).DecodesApart := by
  have hnamed (t : TypeRef) (nm : Name) (h : (env.sdk lossy).getTypeName t = some nm) :
      ∃ n : Text, nm = n.asBytes := by
    cases t with
    | named n =>
        obtain ⟨-, -, heq⟩ := Option.map_eq_some_iff.mp h
        exact ⟨n, heq.symm⟩
    | _ => cases h
  intro t t' nm nm' h h' heq
  obtain ⟨n, rfl⟩ := hnamed t nm h
  obtain ⟨m, rfl⟩ := hnamed t' nm' h'
  have heq : lossy n.asBytes = lossy m.asBytes := heq
  rw [hlossy n, hlossy m] at heq
  rw [heq]

end

end Environment

end Idakit.Facade
