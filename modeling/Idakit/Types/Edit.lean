import Mathlib.Data.List.Forall2
import Mathlib.Logic.Function.Basic
import Idakit.Types.Expr
import Idakit.Types.Resolved

/-!
References to the members of a struct or union. A reference is an index with
a fingerprint of the layout it was minted on: the number of the members, and
of each its bit offset, its type's size and the kind of its type's shape. It
resolves while the fingerprint is the same, to a key that selects the member
by its name, or by its bit offset where it has none.

The database is a parameter, as what it resolves a type name to; so is the
hash.
-/

namespace Idakit.Types

/-! ### Layouts -/

def ResolvedType.get (t : ResolvedType) (id : TypeId) : TypeValue :=
  (t.types.get id).getD ⟨.unknown, none⟩

def ResolvedType.members (t : ResolvedType) : Option (List TypeMember) :=
  match (t.get t.root).shape with
  | .struct _ members | .union _ members => some members
  | _ => none

def TypeShape.discriminant : TypeShape → ℕ
  | .void => 0
  | .bool => 1
  | .int _ _ => 2
  | .float _ => 3
  | .ptr _ => 4
  | .array _ _ => 5
  | .struct _ _ => 6
  | .union _ _ => 7
  | .enum _ _ _ _ _ => 8
  | .function _ _ _ => 9
  | .typedef _ _ => 10
  | .opaqueNamed _ => 11
  | .unknown => 12

/-- What a member feeds to the fingerprint. -/
structure MemberDigest where
  bitOffset : ℕ
  size : Option ℕ
  discriminant : ℕ
  deriving DecidableEq

def ResolvedType.digest (t : ResolvedType) (member : TypeMember) : MemberDigest :=
  let tv := t.get member.ty
  ⟨member.bitOffset, tv.size, tv.shape.discriminant⟩

/-! ### Cursors -/

inductive MemberKey
  | name (n : Text)
  | offset (bits : ℕ)
  deriving DecidableEq

inductive TypeWriteError
  | noType (name : Text)
  | memberIndexOutOfRange (typeName : Text) (index count : ℕ)
  | staleMemberRef (typeName : Text)
  deriving DecidableEq

/-- A durable handle to a member, with the fingerprint it was minted under. -/
structure MemberRef (γ : Type) where
  typeName : Text
  index : ℕ
  generation : γ
  deriving DecidableEq

structure MemberEdit where
  typeName : Text
  key : MemberKey
  deriving DecidableEq

def TypeMember.key (member : TypeMember) : MemberKey :=
  if member.name = [] then .offset member.bitOffset else .name member.name

section

variable {γ : Type} (hash : ℕ × List MemberDigest → γ)
  (typeNamed : Text → Option ResolvedType)

/-- The member count, the fingerprint, and the key of an index in range. -/
def readLayout (name : Text) (index : ℕ) :
    Except TypeWriteError (ℕ × γ × Option MemberKey) :=
  match typeNamed name with
  | none => .error (.noType name)
  | some ty =>
      match ty.members with
      | none => .error (.noType name)
      | some members =>
          .ok (members.length, hash (members.length, members.map ty.digest),
            members[index]?.map TypeMember.key)

def memberRef (name : Text) (index : ℕ) : Except TypeWriteError (MemberRef γ) := do
  let (count, generation, _) ← readLayout hash typeNamed name index
  if count ≤ index then .error (.memberIndexOutOfRange name index count)
  else .ok ⟨name, index, generation⟩

/-- Select the member that a reference points at, unless it is stale. -/
def memberByRef [DecidableEq γ] (name : Text) (member : MemberRef γ) : Except TypeWriteError MemberEdit := do
  let (count, generation, key) ← readLayout hash typeNamed name member.index
  let stale := member.typeName ≠ name ∨ member.generation ≠ generation ∨ count ≤ member.index
  match key with
  | some key => if ¬stale then .ok ⟨name, key⟩ else .error (.staleMemberRef name)
  | none => .error (.staleMemberRef name)

end

/-- Run an edit with the names that the key gives it; an offset key passes an
empty member name. -/
def MemberEdit.dispatch {α : Type} (e : MemberEdit) (f : Text → Text → ℕ → α) :
    Except Error α := do
  let typeName ← nulChecked e.typeName "type name"
  match e.key with
  | .name n => do
      let member ← nulChecked n "member name"
      return f typeName member 0
  | .offset bits => return f typeName [] bits

/-! ### Minting and resolving -/

section

variable {γ : Type} {hash : ℕ × List MemberDigest → γ}
  {typeNamed : Text → Option ResolvedType} {name : Text} {t : ResolvedType}
  {members : List TypeMember}

theorem readLayout_eq (ht : typeNamed name = some t) (hmembers : t.members = some members)
    (index : ℕ) :
    readLayout hash typeNamed name index =
      .ok (members.length, hash (members.length, members.map t.digest),
        members[index]?.map TypeMember.key) := by
  simp only [readLayout, ht, hmembers]

theorem memberRef_eq_ok_iff (ht : typeNamed name = some t)
    (hmembers : t.members = some members) (index : ℕ) (r : MemberRef γ) :
    memberRef hash typeNamed name index = .ok r ↔
      index < members.length ∧
        r = ⟨name, index, hash (members.length, members.map t.digest)⟩ := by
  rw [memberRef, readLayout_eq ht hmembers]
  show (if members.length ≤ index then _ else _) = _ ↔ _
  split
  · next hle => simp [Nat.not_lt.mpr hle]
  · next hlt => simp [Nat.lt_of_not_le hlt, eq_comm]

/-- A reference resolves where its fingerprint is that of the layout. -/
theorem memberByRef_eq [DecidableEq γ] (ht : typeNamed name = some t) (hmembers : t.members = some members)
    {index : ℕ} (generation : γ) :
    memberByRef hash typeNamed name ⟨name, index, generation⟩ =
      match members[index]? with
      | some m =>
          if generation = hash (members.length, members.map t.digest) then .ok ⟨name, m.key⟩
          else .error (.staleMemberRef name)
      | none => .error (.staleMemberRef name) := by
  rw [memberByRef, readLayout_eq ht hmembers]
  cases hget : members[index]? with
  | none => rfl
  | some m =>
      have hlt : ¬members.length ≤ index :=
        Nat.not_le.mpr (List.getElem?_eq_some_iff.mp hget).1
      show (if ¬(name ≠ name ∨ _ ∨ members.length ≤ index) then _ else _) = _
      by_cases heq : generation = hash (members.length, members.map t.digest)
      · simp [heq, hlt]
      · simp [heq]

end

/-! ### Changes of a layout -/

/-- A shape without its child handles; of a named type only the name. -/
def TypeShape.head : TypeShape → TypeShape
  | .ptr _ => .ptr 0
  | .array _ len => .array 0 len
  | .struct (some name) _ => .struct (some name) []
  | .struct none members => .struct none (members.map fun m => { m with ty := 0 })
  | .union (some name) _ => .union (some name) []
  | .union none members => .union none (members.map fun m => { m with ty := 0 })
  | .enum (some name) _ _ _ _ => .enum (some name) 0 [] false none
  | .enum none _ members isBitmask repr => .enum none 0 members isBitmask repr
  | .function _ params varargs => .function 0 (params.map fun _ => 0) varargs
  | .typedef name _ => .typedef name 0
  | shape => shape

/-- The types that a shape is declared with; a named type is declared by its
name alone. -/
def TypeShape.parts : TypeShape → List TypeId
  | .struct (some _) _ | .union (some _) _ | .enum (some _) _ _ _ _ | .typedef _ _ => []
  | shape => shape.children

/-- Two handles are declared alike, down to a depth. -/
def ResolvedType.Agree (t t' : ResolvedType) : ℕ → TypeId → TypeId → Prop
  | 0, _, _ => True
  | n + 1, id, id' =>
      (t.get id).shape.head = (t'.get id').shape.head ∧
        List.Forall₂ (t.Agree t' n) (t.get id).shape.parts (t'.get id').shape.parts

/-- Two members are alike but for their names: neither resized nor moved nor
retyped. -/
structure SameMember (t t' : ResolvedType) (m m' : TypeMember) : Prop where
  bitOffset : m.bitOffset = m'.bitOffset
  bitfieldWidth : m.bitfieldWidth = m'.bitfieldWidth
  size : (t.get m.ty).size = (t'.get m'.ty).size
  type (n : ℕ) : t.Agree t' n m.ty m'.ty

/-- The padding that a deletion leaves behind: a byte array that is named for
it. -/
def ResolvedType.IsGap (t : ResolvedType) (m : TypeMember) : Prop :=
  "gap".toList <+: m.name ∧
    ∃ elem len, (t.get m.ty).shape = .array elem len ∧ (t.get elem).size = some 1

section

variable (t t' : ResolvedType) (members members' : List TypeMember)

/-- No member was added, removed, resized, moved or retyped. -/
def OnlyRenamed : Prop := List.Forall₂ (SameMember t t') members members'

/-- Some members were replaced by gaps of the same size and shape kind, and
nothing else has changed. -/
def GapReplaced : Prop :=
  List.Forall₂ (fun m m' => SameMember t t' m m' ∨ t'.IsGap m' ∧ t.digest m = t'.digest m')
    members members'

def Visible : Prop := members.map t.digest ≠ members'.map t'.digest

end

theorem TypeShape.discriminant_head (shape : TypeShape) :
    shape.head.discriminant = shape.discriminant := by
  cases shape with
  | struct name members => cases name <;> rfl
  | union name members => cases name <;> rfl
  | enum name underlying members isBitmask repr => cases name <;> rfl
  | _ => rfl

theorem SameMember.digest_eq {t t' : ResolvedType} {m m' : TypeMember}
    (h : SameMember t t' m m') : t.digest m = t'.digest m' := by
  have hdiscriminant := congrArg TypeShape.discriminant (h.type 1).1
  rw [TypeShape.discriminant_head, TypeShape.discriminant_head] at hdiscriminant
  simp only [ResolvedType.digest, h.bitOffset, h.size, hdiscriminant]

/-- A rename changes nothing that the fingerprint holds. -/
theorem OnlyRenamed.digest_eq {t t' : ResolvedType} {members members' : List TypeMember}
    (h : OnlyRenamed t t' members members') :
    members.map t.digest = members'.map t'.digest := by
  induction h with
  | nil => rfl
  | cons hsame _ ih => rw [List.map_cons, List.map_cons, hsame.digest_eq, ih]

/-- Every reference to the first layout is stale on the second if a member
has changed, a replacement by a gap apart, and points at the same index if
only names have. -/
def Detects {γ : Type} [DecidableEq γ] (hash : ℕ × List MemberDigest → γ)
    (before after : Text → Option ResolvedType) (name : Text) (t t' : ResolvedType)
    (members members' : List TypeMember) : Prop :=
  ∀ index r, memberRef hash before name index = .ok r →
    (¬OnlyRenamed t t' members members' → ¬GapReplaced t t' members members' →
      memberByRef hash after name r = .error (.staleMemberRef name)) ∧
    (OnlyRenamed t t' members members' → r.index = index ∧
      ∃ m, members'[index]? = some m ∧ memberByRef hash after name r = .ok ⟨name, m.key⟩)

/-- Changes are detected if and only if they are visible in the offsets, sizes
or shape kinds of the members. -/
theorem detects_iff {γ : Type} [DecidableEq γ] {hash : ℕ × List MemberDigest → γ}
    (hinj : Function.Injective hash) {before after : Text → Option ResolvedType} {name : Text}
    {t t' : ResolvedType} {members members' : List TypeMember}
    (ht : before name = some t) (hmembers : t.members = some members)
    (ht' : after name = some t') (hmembers' : t'.members = some members') :
    Detects hash before after name t t' members members' ↔
      (¬OnlyRenamed t t' members members' → ¬GapReplaced t t' members members' →
        Visible t t' members members') := by
  have hgeneration : hash (members.length, members.map t.digest) =
      hash (members'.length, members'.map t'.digest) ↔ ¬Visible t t' members members' := by
    rw [Visible, not_ne_iff]
    constructor
    · intro h
      exact congrArg Prod.snd (hinj h)
    · intro h
      have hlength := congrArg List.length h
      rw [List.length_map, List.length_map] at hlength
      rw [h, hlength]
  constructor
  · intro hdetects hchanged hgap hvisible
    -- The layouts have equally many members, so there is one to refer to.
    have hlength := congrArg List.length hvisible
    rw [List.length_map, List.length_map] at hlength
    have hpos : 0 < members.length := by
      refine Nat.pos_of_ne_zero fun hzero => hchanged ?_
      rw [List.eq_nil_of_length_eq_zero hzero,
        List.eq_nil_of_length_eq_zero (hlength.symm.trans hzero)]
      exact .nil
    have hmint : memberRef hash before name 0 =
        .ok ⟨name, 0, hash (members.length, members.map t.digest)⟩ :=
      (memberRef_eq_ok_iff ht hmembers 0 _).mpr ⟨hpos, rfl⟩
    have hstale := (hdetects 0 _ hmint).1 hchanged hgap
    rw [memberByRef_eq ht' hmembers', List.getElem?_eq_getElem (hlength ▸ hpos)] at hstale
    simp only [hgeneration.mpr fun h => h hvisible, if_true] at hstale
    cases hstale
  · intro hvisible index r hmint
    obtain ⟨hlt, rfl⟩ := (memberRef_eq_ok_iff ht hmembers index r).mp hmint
    rw [memberByRef_eq ht' hmembers']
    constructor
    · intro hchanged hgap
      have hne := mt hgeneration.mp (not_not_intro (hvisible hchanged hgap))
      simp only [hne, if_false]
      split <;> rfl
    · intro hrenamed
      have hlt' : index < members'.length := hrenamed.length_eq ▸ hlt
      refine ⟨rfl, members'[index], List.getElem?_eq_getElem hlt', ?_⟩
      have heq := hgeneration.mpr fun h => h hrenamed.digest_eq
      simp only [List.getElem?_eq_getElem hlt', heq, if_true]

def intStruct (field : String) (signed : Bool) : ResolvedType where
  types := ⟨[⟨.struct none [⟨field.toList, 0, 1, none, none⟩], some 4⟩,
    ⟨.int 4 signed, some 4⟩], []⟩
  root := 0

theorem detects_iff_renamed :
    Detects id (fun _ => some (intStruct "x" true)) (fun _ => some (intStruct "y" true)) []
        (intStruct "x" true) (intStruct "y" true) [⟨"x".toList, 0, 1, none, none⟩]
        [⟨"y".toList, 0, 1, none, none⟩] ↔
      (¬OnlyRenamed (intStruct "x" true) (intStruct "y" true) [⟨"x".toList, 0, 1, none, none⟩]
          [⟨"y".toList, 0, 1, none, none⟩] →
        ¬GapReplaced (intStruct "x" true) (intStruct "y" true) [⟨"x".toList, 0, 1, none, none⟩]
          [⟨"y".toList, 0, 1, none, none⟩] →
        Visible (intStruct "x" true) (intStruct "y" true) [⟨"x".toList, 0, 1, none, none⟩]
          [⟨"y".toList, 0, 1, none, none⟩]) :=
  detects_iff Function.injective_id rfl rfl rfl rfl

/-- A change from a signed to an unsigned integer is not detected. -/
theorem not_detects_retyped :
    ¬Detects id (fun _ => some (intStruct "x" true)) (fun _ => some (intStruct "x" false)) []
      (intStruct "x" true) (intStruct "x" false) [⟨"x".toList, 0, 1, none, none⟩]
      [⟨"x".toList, 0, 1, none, none⟩] := by
  intro hdetects
  have hmember : ¬SameMember (intStruct "x" true) (intStruct "x" false)
      ⟨"x".toList, 0, 1, none, none⟩ ⟨"x".toList, 0, 1, none, none⟩ := by
    intro hsame
    exact absurd (hsame.type 1).1 (by decide)
  have hgap : ¬(intStruct "x" false).IsGap ⟨"x".toList, 0, 1, none, none⟩ := by
    intro hgap
    exact absurd hgap.1 (by decide)
  have hmint : memberRef id (fun _ => some (intStruct "x" true)) [] 0 =
      .ok ⟨[], 0, 1, [⟨0, some 4, 2⟩]⟩ := rfl
  have hstale := (hdetects 0 _ hmint).1
    (fun h => hmember (List.forall₂_cons.mp h).1)
    (fun h => (List.forall₂_cons.mp h).1.elim hmember fun h => hgap h.1)
  exact nomatch hstale

end Idakit.Types
