import Idakit.Facade.RecipeMachine
import Idakit.Facade.UdtEdit

/-!
Writes to the members of a struct or union, from the cursor to the kernel's
mutator. The key of a cursor crosses as a name and a bit offset, of which an
empty name selects the offset; the offset of a new member crosses with one
value set apart for an append.

The kernel is a parameter: what it answers in a state of the type library, how
it makes types, and what its mutators do. A mutator that traps counts as one
that returns a code.
-/

namespace Idakit.Facade

open Idakit.Types
open Idakit.Facade.RecipeMachine (Constructors typeOk)

inductive Mutation (τ : Type)
  /-- `add_udm` of a whole member; the size is in bits. -/
  | addUdm (name : Name) (type : τ) (offset size : ℕ)
  /-- `add_udm` with the size left to the kernel. -/
  | addUdmAt (name : Option Name) (type : τ) (offset : ℕ)
  | setUdmType (idx : ℕ) (type : τ) (etfFlags : ℕ)
  | renameUdm (idx : ℕ) (name : Name)
  | setUdmCmt (idx : ℕ) (cmt : Name)
  | setUdmRepr (idx vtype : ℕ) (signed lzeroes : Bool)
  | delUdm (idx : ℕ)
  deriving DecidableEq

def Mutation.index {τ : Type} : Mutation τ → Option ℕ
  | .addUdm _ _ _ _ | .addUdmAt _ _ _ => none
  | .setUdmType idx _ _ | .renameUdm idx _ | .setUdmCmt idx _ | .setUdmRepr idx _ _ _
  | .delUdm idx => some idx

def Mutation.offset {τ : Type} : Mutation τ → Option ℕ
  | .addUdm _ _ offset _ | .addUdmAt _ _ offset => some offset
  | _ => none

structure Til (σ τ : Type) where
  sdk : σ → Sdk τ
  constructors : σ → Constructors τ
  /-- The width that `get_bitfield_details` gives. -/
  bitfieldWidth : τ → Option ℕ
  mutate : τ → Mutation τ → σ → ℤ × σ

def teditNoType : ℤ := 1
def teditNoMember : ℤ := 2
def teditBuild : ℤ := 3

def memberAppend : ℕ := 2 ^ 64 - 1

/-! ### The facade -/

section

variable {σ τ : Type} (til : Til σ τ) (s : σ)

/-- The type of a recipe. A test for each byte and one more are enough for
the interpreter. -/
def recipeType (k : Constructors τ) (recipe : List UInt8) : Option τ :=
  match RecipeMachine.buildRecipe k recipe (recipe.length + 1) .start with
  | .returned (code, out) _ => if code = typeOk then out else none
  | _ => none

/-- The type of a recipe, or the code of a verb whose recipe cannot be built. -/
def builtType (k : Constructors τ) (code : ℤ) (recipe : List UInt8) : Except ℤ τ :=
  match recipeType k recipe with
  | some t => .ok t
  | none => .error code

def selected (typeName memberName : Text) (memberBit : ℕ) : Except ℤ (τ × ℕ) :=
  match loadNamedType (til.sdk s) (cStr typeName.asBytes),
      udtMember (til.sdk s) typeName memberName memberBit with
  | some tif, .member idx => .ok (tif, idx)
  | _, .noMember => .error teditNoMember
  | _, _ => .error teditNoType

/-- The common part of the edits: a failure comes to a code, and else a
mutator is called for the member that was selected. -/
def editMember (typeName memberName : Text) (memberBit : ℕ)
    (mutation : Except ℤ (ℕ → Mutation τ)) : Except ℤ (τ × Mutation τ) := do
  let (tif, idx) ← selected til s typeName memberName memberBit
  let mutation ← mutation
  return (tif, mutation idx)

def udtSetMemberType (typeName memberName : Text) (memberBit : ℕ) (recipe : List UInt8)
    (etfFlags : ℕ) : Except ℤ (τ × Mutation τ) :=
  editMember til s typeName memberName memberBit
    ((builtType (til.constructors s) teditBuild recipe).map fun type idx =>
      .setUdmType idx type etfFlags)

def udtRenameMember (typeName memberName : Text) (memberBit : ℕ) (newName : Text) :
    Except ℤ (τ × Mutation τ) :=
  editMember til s typeName memberName memberBit (.ok (.renameUdm · (cStr newName.asBytes)))

def udtSetMemberComment (typeName memberName : Text) (memberBit : ℕ) (comment : Text) :
    Except ℤ (τ × Mutation τ) :=
  editMember til s typeName memberName memberBit (.ok (.setUdmCmt · (cStr comment.asBytes)))

def udtSetMemberRepr (typeName memberName : Text) (memberBit vtype : ℕ)
    (isSigned leadingZeros : Bool) : Except ℤ (τ × Mutation τ) :=
  editMember til s typeName memberName memberBit (.ok (.setUdmRepr · vtype isSigned leadingZeros))

def udtDelMember (typeName memberName : Text) (memberBit : ℕ) : Except ℤ (τ × Mutation τ) :=
  editMember til s typeName memberName memberBit (.ok .delUdm)

/-- The field width of a bitfield; none for an ordinary type. -/
def bitfieldWidthBits (t : τ) : Option ℕ :=
  if (til.sdk s).isBitfield t then til.bitfieldWidth t else none

/-- Past the last member: where every member of a union lies, and the size of
a struct. -/
def appendOffset (sdk : Sdk τ) (t : τ) : ℕ :=
  (if sdk.isUnion t then 0 else (sdk.getSize t).getD 0) * 8 % 2 ^ 64

/-- An empty name adds an anonymous member. -/
def udtAddMember (typeName memberName : Text) (recipe : List UInt8) (memberBit : ℕ) :
    Except ℤ (τ × Mutation τ) :=
  let mnp := if memberName.asBytes = [] then none else some (cStr memberName.asBytes)
  match loadNamedType (til.sdk s) (cStr typeName.asBytes) with
  | none => .error teditNoType
  | some tif => do
      let memberType ← builtType (til.constructors s) teditBuild recipe
      let offset := if memberBit = memberAppend then appendOffset (til.sdk s) tif else memberBit
      match bitfieldWidthBits til s memberType with
      | some width => return (tif, .addUdm (mnp.getD []) memberType offset width)
      | none => return (tif, .addUdmAt mnp memberType offset)

end

/-! ### The cursors -/

/-- Why a write fails. A kernel's code is outside of the modelled set where it
is not one of `tinfo_code_t`. -/
inductive WriteError
  | interiorNul (arg : String)
  | noType (name : Text)
  | noMember (typeName : Text) (key : Option MemberKey)
  | buildFailed
  | rejected (typeName : Text) (code : ℤ)
  | unknownCode (typeName : Text) (code : ℤ)
  deriving DecidableEq

def editResult (code : ℤ) (typeName : Text) (key : Option MemberKey) : Except WriteError Unit :=
  if code = 0 then .ok ()
  else if code = teditNoType then .error (.noType typeName)
  else if code = teditNoMember then .error (.noMember typeName key)
  else if code = teditBuild then .error .buildFailed
  else if -38 ≤ code ∧ code ≤ 0 then .error (.rejected typeName code)
  else .error (.unknownCode typeName code)

/-- A write: the mutator that it has called, if it came to that, what it
returns, and the library after it. -/
structure Written (σ τ : Type) where
  mutated : Option (τ × Mutation τ)
  result : Except WriteError Unit
  state : σ

def etfCompatible : ℕ := 8

def NumberFormat.vtype : NumberFormat → ℕ
  | .binary => 0x1
  | .octal => 0x2
  | .hexadecimal => 0x3
  | .decimal => 0x4
  | .char => 0x6

def checkedSerialize (ty : TypeExpr) : Except Error (List UInt8) := do
  ty.check
  return ty.serialize

structure TypeEdit where
  name : Text

def TypeEdit.member (e : TypeEdit) (name : Text) : MemberEdit := ⟨e.name, .name name⟩

def TypeEdit.memberAt (e : TypeEdit) (bitOffset : ℕ) : MemberEdit := ⟨e.name, .offset bitOffset⟩

section

variable {σ τ : Type} (til : Til σ τ) (s : σ)

def finishWrite (call : Except Error (Except ℤ (τ × Mutation τ))) (typeName : Text)
    (key : Option MemberKey) : Written σ τ :=
  match call with
  | .error (.interiorNul arg) => ⟨none, .error (.interiorNul arg), s⟩
  | .ok (.error code) => ⟨none, editResult code typeName key, s⟩
  | .ok (.ok (tif, mutation)) =>
      let (code, s') := til.mutate tif mutation s
      ⟨some (tif, mutation), editResult code typeName key, s'⟩

def writeMember {α : Type} (e : MemberEdit) (checked : Except Error α)
    (f : α → Text → Text → ℕ → Except ℤ (τ × Mutation τ)) : Written σ τ :=
  finishWrite til s (do
    let arg ← checked
    e.dispatch (f arg)) e.typeName (some e.key)

def MemberEdit.setTypeWithFlags (e : MemberEdit) (ty : TypeExpr) (etfFlags : ℕ) :
    Written σ τ :=
  writeMember til s e (checkedSerialize ty) fun recipe typeName memberName bit =>
    udtSetMemberType til s typeName memberName bit recipe etfFlags

def MemberEdit.setType (e : MemberEdit) (ty : TypeExpr) : Written σ τ :=
  MemberEdit.setTypeWithFlags til s e ty 0

def MemberEdit.setTypeCompatible (e : MemberEdit) (ty : TypeExpr) : Written σ τ :=
  MemberEdit.setTypeWithFlags til s e ty etfCompatible

def MemberEdit.rename (e : MemberEdit) (newName : Text) : Written σ τ :=
  writeMember til s e (nulChecked newName "new member name") fun newName typeName memberName bit =>
    udtRenameMember til s typeName memberName bit newName

def MemberEdit.comment (e : MemberEdit) (text : Text) : Written σ τ :=
  writeMember til s e (nulChecked text "comment") fun text typeName memberName bit =>
    udtSetMemberComment til s typeName memberName bit text

def MemberEdit.setRepr (e : MemberEdit) (repr : ValueRepr) : Written σ τ :=
  writeMember til s e (.ok repr) fun repr typeName memberName bit =>
    udtSetMemberRepr til s typeName memberName bit (NumberFormat.vtype repr.format) repr.signed
      repr.leadingZeros

def MemberEdit.delete (e : MemberEdit) : Written σ τ :=
  writeMember til s e (.ok ()) fun _ => udtDelMember til s

def TypeEdit.addMemberImpl (e : TypeEdit) (name : Text) (ty : TypeExpr) (memberBit : ℕ) :
    Written σ τ :=
  finishWrite til s (do
    let recipe ← checkedSerialize ty
    let typeName ← nulChecked e.name "type name"
    let memberName ← nulChecked name "member name"
    return udtAddMember til s typeName memberName recipe memberBit) e.name none

def TypeEdit.addMember (e : TypeEdit) (name : Text) (ty : TypeExpr) : Written σ τ :=
  TypeEdit.addMemberImpl til s e name ty memberAppend

def TypeEdit.addMemberAt (e : TypeEdit) (bitOffset : UInt64) (name : Text) (ty : TypeExpr) :
    Written σ τ :=
  TypeEdit.addMemberImpl til s e name ty bitOffset.toNat

end

inductive EditVerb
  | setType (ty : TypeExpr)
  | setTypeCompatible (ty : TypeExpr)
  | rename (newName : Text)
  | comment (text : Text)
  | setRepr (repr : ValueRepr)
  | delete

inductive MemberWrite
  | edit (key : MemberKey) (verb : EditVerb)
  | add (name : Text) (ty : TypeExpr)
  | addAt (bitOffset : UInt64) (name : Text) (ty : TypeExpr)

section

variable {σ τ : Type} (til : Til σ τ) (s : σ)

def EditVerb.run (e : MemberEdit) : EditVerb → Written σ τ
  | .setType ty => MemberEdit.setType til s e ty
  | .setTypeCompatible ty => MemberEdit.setTypeCompatible til s e ty
  | .rename newName => MemberEdit.rename til s e newName
  | .comment text => MemberEdit.comment til s e text
  | .setRepr repr => MemberEdit.setRepr til s e repr
  | .delete => MemberEdit.delete til s e

def MemberWrite.run (e : TypeEdit) : MemberWrite → Written σ τ
  | .edit (.name n) verb => verb.run til s (e.member n)
  | .edit (.offset bits) verb => verb.run til s (e.memberAt bits)
  | .add name ty => TypeEdit.addMember til s e name ty
  | .addAt bitOffset name ty => TypeEdit.addMemberAt til s e bitOffset name ty

end

/-! ### What is asked of a write -/

section

variable {σ τ : Type} (til : Til σ τ) (s : σ)

def Sdk.members (sdk : Sdk τ) (t : τ) : List (Udm τ) := (sdk.getUdtDetails t).getD []

def HasName (udms : List (Udm τ)) (idx : ℕ) (name : Name) : Prop :=
  ∃ u, udms[idx]? = some u ∧ u.name = name

/-- The members that a key selects: any that has the name, or the one that the
kernel finds at the offset. -/
def PickedBy (udms : List (Udm τ)) (idx : ℕ) : MemberKey → Prop
  | .name n => HasName udms idx n.asBytes
  | .offset bits => findUdm udms (.inr bits) = some idx

def MemberWrite.Asks (sdk : Sdk τ) (t : τ) (mutation : Mutation τ) : MemberWrite → Prop
  | .edit key _ => ∃ idx, mutation.index = some idx ∧ PickedBy (sdk.members t) idx key
  | .add _ _ => mutation.offset = some (appendOffset sdk t)
  | .addAt bitOffset _ _ => mutation.offset = some bitOffset.toNat

/-- A write that comes to a mutator calls it as it should, and one that does
not fails and changes nothing. -/
def Written.Acts (r : Written σ τ) (asked : τ → Mutation τ → Prop) : Prop :=
  match r.mutated with
  | some (t, mutation) => asked t mutation
  | none => (∃ error, r.result = .error error) ∧ r.state = s

def MemberWrite.ActsAsAsked (e : TypeEdit) (w : MemberWrite) : Prop :=
  (w.run til s e).Acts s fun t mutation =>
    loadNamedType (til.sdk s) e.name.asBytes = some t ∧ w.Asks (til.sdk s) t mutation

def Buildable (ty : TypeExpr) : Prop :=
  ty.check = .ok () ∧ (recipeType (til.constructors s) ty.serialize).isSome

def EditVerb.Taken : EditVerb → Prop
  | .setType ty | .setTypeCompatible ty => Buildable til s ty
  | .rename text | .comment text => text.NulFree
  | .setRepr _ | .delete => True

/-- A write that comes to a mutator has no key that stands for something
else: neither an empty name, where the member at bit zero has another one, nor
the offset that is set apart. -/
def MemberWrite.Unmistaken (e : TypeEdit) : MemberWrite → Prop
  | .edit (.name []) verb =>
      e.name.NulFree → verb.Taken til s → ∀ t, loadNamedType (til.sdk s) e.name.asBytes = some t →
        ∀ idx, findUdm ((til.sdk s).members t) (.inr 0) = some idx →
          HasName ((til.sdk s).members t) idx []
  | .edit _ _ => True
  | .add _ _ => True
  | .addAt bitOffset name ty =>
      bitOffset.toNat = memberAppend → e.name.NulFree → name.NulFree → Buildable til s ty →
        loadNamedType (til.sdk s) e.name.asBytes = none

end

/-! ### From the key to the mutator -/

section

variable {σ τ : Type} {til : Til σ τ} {s : σ}

theorem checkedSerialize_eq_ok_iff {ty : TypeExpr} {recipe : List UInt8} :
    checkedSerialize ty = .ok recipe ↔ ty.check = .ok () ∧ ty.serialize = recipe := by
  unfold checkedSerialize
  cases ty.check with
  | error error =>
      constructor
      · exact fun h => nomatch h
      · exact fun h => nomatch h.1
  | ok u =>
      show Except.ok ty.serialize = .ok recipe ↔ _
      simp

theorem nulChecked_eq_ok_iff {text text' : Text} {arg : String} :
    nulChecked text arg = .ok text' ↔ text.NulFree ∧ text = text' := by
  by_cases hfree : text.NulFree
  · simp [nulChecked_of_nulFree hfree, hfree]
  · simp [nulChecked_of_not_nulFree hfree, hfree]

theorem bind_eq_ok_iff {ε α β : Type} {x : Except ε α} {f : α → Except ε β} {b : β} :
    x >>= f = .ok b ↔ ∃ a, x = .ok a ∧ f a = .ok b := by
  cases x with
  | error error =>
      constructor
      · exact fun h => nomatch h
      · rintro ⟨a, h, -⟩
        cases h
  | ok a =>
      constructor
      · exact fun h => ⟨a, rfl, h⟩
      · rintro ⟨a', h, hf⟩
        cases h
        exact hf

theorem map_eq_ok_iff {ε α β : Type} {x : Except ε α} {f : α → β} {b : β} :
    x.map f = .ok b ↔ ∃ a, x = .ok a ∧ f a = b := by
  cases x <;> simp [Except.map]

theorem map_eq_error_iff {ε α β : Type} {x : Except ε α} {f : α → β} {error : ε} :
    x.map f = .error error ↔ x = .error error := by
  cases x <;> simp [Except.map]

def crossing : MemberKey → Text × ℕ
  | .name n => (n, 0)
  | .offset bits => ([], bits)

theorem dispatch_eq_ok_iff {α : Type} {e : MemberEdit} {f : Text → Text → ℕ → α} {a : α} :
    e.dispatch f = .ok a ↔ e.typeName.NulFree ∧ (crossing e.key).1.NulFree ∧
      f e.typeName (crossing e.key).1 (crossing e.key).2 = a := by
  rw [MemberEdit.dispatch, bind_eq_ok_iff]
  simp only [nulChecked_eq_ok_iff]
  obtain ⟨typeName, key⟩ := e
  cases key with
  | name n =>
      simp only [crossing, bind_eq_ok_iff, nulChecked_eq_ok_iff]
      constructor
      · rintro ⟨_, ⟨htype, rfl⟩, _, ⟨hname, rfl⟩, h⟩
        cases h
        exact ⟨htype, hname, rfl⟩
      · rintro ⟨htype, hname, rfl⟩
        exact ⟨_, ⟨htype, rfl⟩, _, ⟨hname, rfl⟩, rfl⟩
  | offset bits =>
      simp only [crossing]
      constructor
      · rintro ⟨_, ⟨htype, rfl⟩, h⟩
        cases h
        exact ⟨htype, by simp [Text.NulFree, Text.asBytes], rfl⟩
      · rintro ⟨htype, -, rfl⟩
        exact ⟨_, ⟨htype, rfl⟩, rfl⟩

theorem editResult_error {code : ℤ} (h : code ∈ [teditNoType, teditNoMember, teditBuild])
    (typeName : Text) (key : Option MemberKey) :
    ∃ error, editResult code typeName key = .error error := by
  simp only [List.mem_cons, List.not_mem_nil, or_false] at h
  rcases h with rfl | rfl | rfl
  · exact ⟨_, rfl⟩
  · exact ⟨_, rfl⟩
  · exact ⟨_, rfl⟩

/-- What a call of the facade acts on is what it comes to a mutator with. -/
theorem acts_finishWrite_iff {call : Except Error (Except ℤ (τ × Mutation τ))} {typeName : Text}
    {key : Option MemberKey} {asked : τ → Mutation τ → Prop}
    (hcode : ∀ code, call = .ok (.error code) → code ∈ [teditNoType, teditNoMember, teditBuild]) :
    (finishWrite til s call typeName key).Acts s asked ↔
      ∀ t mutation, call = .ok (.ok (t, mutation)) → asked t mutation := by
  match call, hcode with
  | .error (.interiorNul arg), _ =>
      refine ⟨fun _ t mutation h => ?_, fun _ => ⟨⟨_, rfl⟩, rfl⟩⟩
      cases h
  | .ok (.error code), hcode =>
      refine ⟨fun _ t mutation h => ?_, fun _ => ⟨editResult_error (hcode code rfl) _ _, rfl⟩⟩
      cases h
  | .ok (.ok (t, mutation)), _ =>
      constructor
      · intro h t' mutation' heq
        cases heq
        exact h
      · exact fun h => h t mutation rfl

theorem selected_eq_ok_iff {typeName memberName : Text} {memberBit : ℕ} {t : τ} {idx : ℕ} :
    selected til s typeName memberName memberBit = .ok (t, idx) ↔
      loadNamedType (til.sdk s) (cStr typeName.asBytes) = some t ∧
        resolveMember ((til.sdk s).members t)
          (if memberName = [] then none else some (cStr memberName.asBytes)) memberBit =
            some idx := by
  simp only [selected, udtMember, asBytes_eq_nil_iff, Sdk.members]
  cases loadNamedType (til.sdk s) (cStr typeName.asBytes) with
  | none => simp
  | some t' =>
      constructor
      · intro h
        cases hresolve : resolveMember (((til.sdk s).getUdtDetails t').getD [])
            (if memberName = [] then none else some (cStr memberName.asBytes)) memberBit with
        | none => simp [hresolve] at h
        | some i =>
            simp only [hresolve] at h
            cases h
            exact ⟨rfl, hresolve⟩
      · rintro ⟨h, hresolve⟩
        cases h
        simp only [hresolve]

theorem selected_error {typeName memberName : Text} {memberBit : ℕ} {code : ℤ}
    (h : selected til s typeName memberName memberBit = .error code) :
    code ∈ [teditNoType, teditNoMember, teditBuild] := by
  unfold selected at h
  split at h
  · cases h
  · cases h
    simp
  · cases h
    simp

theorem editMember_error {typeName memberName : Text} {memberBit : ℕ}
    {mutation : Except ℤ (ℕ → Mutation τ)} {code : ℤ}
    (hmutation : ∀ code, mutation = .error code → code = teditBuild)
    (h : editMember til s typeName memberName memberBit mutation = .error code) :
    code ∈ [teditNoType, teditNoMember, teditBuild] := by
  unfold editMember at h
  cases hselected : selected til s typeName memberName memberBit with
  | error code' =>
      rw [hselected] at h
      cases h
      exact selected_error hselected
  | ok found =>
      rw [hselected] at h
      cases hm : mutation with
      | error code' =>
          rw [hm] at h
          cases h
          rw [hmutation code hm]
          simp
      | ok f =>
          rw [hm] at h
          cases h

theorem editMember_eq_ok_iff {typeName memberName : Text} {memberBit : ℕ}
    {mutation : Except ℤ (ℕ → Mutation τ)} {t : τ} {m : Mutation τ} :
    editMember til s typeName memberName memberBit mutation = .ok (t, m) ↔
      ∃ idx f, selected til s typeName memberName memberBit = .ok (t, idx) ∧
        mutation = .ok f ∧ m = f idx := by
  simp only [editMember, bind_eq_ok_iff]
  constructor
  · rintro ⟨⟨t', idx⟩, hselected, f, hf, h⟩
    cases h
    exact ⟨idx, f, hselected, hf, rfl⟩
  · rintro ⟨idx, f, hselected, hf, rfl⟩
    exact ⟨(t, idx), hselected, f, hf, rfl⟩

def Found (udms : List (Udm τ)) (key : MemberKey) (idx : ℕ) : Prop :=
  resolveMember udms (if (crossing key).1 = [] then none else some (crossing key).1.asBytes)
    (crossing key).2 = some idx

def Edits (til : Til σ τ) (s : σ) (typeName : Text) (key : MemberKey) (t : τ) (m : Mutation τ) :
    Prop :=
  loadNamedType (til.sdk s) typeName.asBytes = some t ∧
    ∃ idx, m.index = some idx ∧ PickedBy ((til.sdk s).members t) idx key

/-- An edit of a member acts as it should if and only if what its key crosses
as finds a member that the key selects. -/
theorem acts_writeMember_iff {α : Type} {e : MemberEdit} {checked : Except Error α}
    (mutation : α → Except ℤ (ℕ → Mutation τ)) {taken : Prop}
    (hcode : ∀ a code, mutation a = .error code → code = teditBuild)
    (hindex : ∀ a f, mutation a = .ok f → ∀ idx, (f idx).index = some idx)
    (htaken : taken ↔ ∃ a f, checked = .ok a ∧ mutation a = .ok f) :
    (writeMember til s e checked fun a typeName memberName bit =>
        editMember til s typeName memberName bit (mutation a)).Acts s
          (Edits til s e.typeName e.key) ↔
      (e.typeName.NulFree → (crossing e.key).1.NulFree → taken →
        ∀ t, loadNamedType (til.sdk s) e.typeName.asBytes = some t →
          ∀ idx, Found ((til.sdk s).members t) e.key idx →
            PickedBy ((til.sdk s).members t) idx e.key) := by
  rw [writeMember, acts_finishWrite_iff]
  · simp only [bind_eq_ok_iff, dispatch_eq_ok_iff, editMember_eq_ok_iff, selected_eq_ok_iff]
    constructor
    · rintro h htype hname htook t hload idx hfound
      obtain ⟨a, f, ha, hf⟩ := htaken.mp htook
      have hload' : loadNamedType (til.sdk s) (cStr e.typeName.asBytes) = some t := by
        rwa [cStr_of_nulFree htype]
      obtain ⟨-, idx', hidx, hpicked⟩ := h t (f idx) ⟨a, ha, htype, hname, idx, f,
        ⟨hload', by rwa [cStr_of_nulFree hname]⟩, hf, rfl⟩
      rw [hindex a f hf] at hidx
      cases hidx
      exact hpicked
    · rintro h t m ⟨a, ha, htype, hname, idx, f, ⟨hload, hfound⟩, hf, rfl⟩
      rw [cStr_of_nulFree htype] at hload
      rw [cStr_of_nulFree hname] at hfound
      exact ⟨hload, idx, hindex a f hf idx,
        h htype hname (htaken.mpr ⟨a, f, ha, hf⟩) t hload idx hfound⟩
  · intro code h
    simp only [bind_eq_ok_iff, dispatch_eq_ok_iff] at h
    obtain ⟨a, -, -, -, h⟩ := h
    exact editMember_error (hcode a) h

theorem builtType_eq_ok_iff {k : Constructors τ} {code : ℤ} {recipe : List UInt8} {t : τ} :
    builtType k code recipe = .ok t ↔ recipeType k recipe = some t := by
  unfold builtType
  cases recipeType k recipe <;> simp

theorem builtType_error {k : Constructors τ} {code code' : ℤ} {recipe : List UInt8}
    (h : builtType k code recipe = .error code') : code' = code := by
  unfold builtType at h
  split at h
  · cases h
  · cases h
    rfl

/-- Every verb acts as it should under the same condition. -/
theorem acts_edit_iff (e : MemberEdit) (verb : EditVerb) :
    (verb.run til s e).Acts s (Edits til s e.typeName e.key) ↔
      (e.typeName.NulFree → (crossing e.key).1.NulFree → verb.Taken til s →
        ∀ t, loadNamedType (til.sdk s) e.typeName.asBytes = some t →
          ∀ idx, Found ((til.sdk s).members t) e.key idx →
            PickedBy ((til.sdk s).members t) idx e.key) := by
  -- The verbs that send no type differ in the mutator and in what they check of the argument.
  have hplain {α : Type} {taken : Prop} (checked : Except Error α) (g : α → ℕ → Mutation τ)
      (hindex : ∀ a idx, (g a idx).index = some idx) (htaken : taken ↔ ∃ a, checked = .ok a) :
      (writeMember til s e checked fun a typeName memberName bit =>
          editMember til s typeName memberName bit (.ok (g a))).Acts s
            (Edits til s e.typeName e.key) ↔
        (e.typeName.NulFree → (crossing e.key).1.NulFree → taken →
          ∀ t, loadNamedType (til.sdk s) e.typeName.asBytes = some t →
            ∀ idx, Found ((til.sdk s).members t) e.key idx →
              PickedBy ((til.sdk s).members t) idx e.key) := by
    refine acts_writeMember_iff (fun a => .ok (g a)) ?_ ?_ ?_
    · intro a code h
      cases h
    · intro a f h idx
      cases h
      exact hindex a idx
    · simpa using htaken
  -- The two that send one have to build it before the mutator is called.
  have htype (ty : TypeExpr) (etfFlags : ℕ) :
      (MemberEdit.setTypeWithFlags til s e ty etfFlags).Acts s (Edits til s e.typeName e.key) ↔
        (e.typeName.NulFree → (crossing e.key).1.NulFree → Buildable til s ty →
          ∀ t, loadNamedType (til.sdk s) e.typeName.asBytes = some t →
            ∀ idx, Found ((til.sdk s).members t) e.key idx →
              PickedBy ((til.sdk s).members t) idx e.key) := by
    refine acts_writeMember_iff (fun recipe =>
      (builtType (til.constructors s) teditBuild recipe).map fun type idx =>
        Mutation.setUdmType idx type etfFlags) ?_ ?_ ?_
    · intro recipe code h
      exact builtType_error (map_eq_error_iff.mp h)
    · intro recipe f h idx
      obtain ⟨t, -, rfl⟩ := map_eq_ok_iff.mp h
      rfl
    · simp only [Buildable, checkedSerialize_eq_ok_iff, map_eq_ok_iff, builtType_eq_ok_iff,
        Option.isSome_iff_exists]
      constructor
      · rintro ⟨hcheck, t, ht⟩
        exact ⟨_, _, ⟨hcheck, rfl⟩, t, ht, rfl⟩
      · rintro ⟨_, _, ⟨hcheck, rfl⟩, t, ht, -⟩
        exact ⟨hcheck, t, ht⟩
  cases verb with
  | setType ty => exact htype ty 0
  | setTypeCompatible ty => exact htype ty etfCompatible
  | rename newName =>
      have htaken : newName.NulFree ↔ ∃ a, nulChecked newName "new member name" = .ok a := by
        simp [nulChecked_eq_ok_iff]
      have hacts := hplain _ (fun a idx => .renameUdm idx (cStr a.asBytes)) (fun _ _ => rfl) htaken
      exact hacts
  | comment text =>
      have htaken : text.NulFree ↔ ∃ a, nulChecked text "comment" = .ok a := by
        simp [nulChecked_eq_ok_iff]
      have hacts := hplain _ (fun a idx => .setUdmCmt idx (cStr a.asBytes)) (fun _ _ => rfl) htaken
      exact hacts
  | setRepr repr =>
      have htaken : True ↔ ∃ a, (.ok repr : Except Error ValueRepr) = .ok a := by simp
      have hacts := hplain _ (fun a idx => .setUdmRepr idx (NumberFormat.vtype a.format) a.signed
        a.leadingZeros) (fun _ _ => rfl) htaken
      exact hacts
  | delete =>
      have htaken : True ↔ ∃ a, (.ok () : Except Error Unit) = .ok a := by simp
      have hacts := hplain _ (fun _ idx => .delUdm idx) (fun _ _ => rfl) htaken
      exact hacts

/-! ### New members -/

def placed (sdk : Sdk τ) (t : τ) (memberBit : ℕ) : ℕ :=
  if memberBit = memberAppend then appendOffset sdk t else memberBit

theorem udtAddMember_ok {typeName memberName : Text} {recipe : List UInt8} {memberBit : ℕ} {t : τ}
    {type : τ} (hload : loadNamedType (til.sdk s) (cStr typeName.asBytes) = some t)
    (hbuilt : builtType (til.constructors s) teditBuild recipe = .ok type) :
    ∃ m : Mutation τ, udtAddMember til s typeName memberName recipe memberBit = .ok (t, m) ∧
      m.offset = some (placed (til.sdk s) t memberBit) := by
  have hbind {α β : Type} (a : α) (f : α → Except ℤ β) : (Except.ok a >>= f) = f a := rfl
  simp only [udtAddMember, hload, hbuilt, hbind]
  cases bitfieldWidthBits til s type with
  | some width => exact ⟨_, rfl, rfl⟩
  | none => exact ⟨_, rfl, rfl⟩

theorem udtAddMember_error {typeName memberName : Text} {recipe : List UInt8} {memberBit : ℕ}
    {code : ℤ} (h : udtAddMember til s typeName memberName recipe memberBit = .error code) :
    code ∈ [teditNoType, teditNoMember, teditBuild] := by
  cases hload : loadNamedType (til.sdk s) (cStr typeName.asBytes) with
  | none =>
      simp only [udtAddMember, hload] at h
      cases h
      simp
  | some t =>
      cases hbuilt : builtType (til.constructors s) teditBuild recipe with
      | error code' =>
          simp only [udtAddMember, hload, hbuilt] at h
          cases h
          simp [builtType_error hbuilt]
      | ok type =>
          obtain ⟨m, hadd, -⟩ := udtAddMember_ok hload hbuilt
          rw [hadd] at h
          cases h

theorem of_udtAddMember {typeName memberName : Text} {recipe : List UInt8} {memberBit : ℕ} {t : τ}
    {m : Mutation τ} (h : udtAddMember til s typeName memberName recipe memberBit = .ok (t, m)) :
    loadNamedType (til.sdk s) (cStr typeName.asBytes) = some t ∧
      (∃ type, builtType (til.constructors s) teditBuild recipe = .ok type) ∧
        m.offset = some (placed (til.sdk s) t memberBit) := by
  cases hload : loadNamedType (til.sdk s) (cStr typeName.asBytes) with
  | none =>
      simp only [udtAddMember, hload] at h
      cases h
  | some t' =>
      cases hbuilt : builtType (til.constructors s) teditBuild recipe with
      | error code =>
          simp only [udtAddMember, hload, hbuilt] at h
          cases h
      | ok type =>
          obtain ⟨m', hadd, hoffset⟩ := udtAddMember_ok hload hbuilt
          rw [hadd] at h
          cases h
          exact ⟨rfl, ⟨type, rfl⟩, hoffset⟩

/-- A new member is asked for at an offset if and only if that is where it is
placed. -/
theorem acts_addMemberImpl_iff (e : TypeEdit) (name : Text) (ty : TypeExpr) (memberBit : ℕ)
    (offset : τ → ℕ) :
    (TypeEdit.addMemberImpl til s e name ty memberBit).Acts s (fun t m =>
        loadNamedType (til.sdk s) e.name.asBytes = some t ∧ m.offset = some (offset t)) ↔
      (e.name.NulFree → name.NulFree → Buildable til s ty →
        ∀ t, loadNamedType (til.sdk s) e.name.asBytes = some t →
          placed (til.sdk s) t memberBit = offset t) := by
  -- The three arguments are checked before the facade is called.
  have hcall {r : Except ℤ (τ × Mutation τ)} :
      (do
        let recipe ← checkedSerialize ty
        let typeName ← nulChecked e.name "type name"
        let memberName ← nulChecked name "member name"
        return udtAddMember til s typeName memberName recipe memberBit) = .ok r ↔
      ty.check = .ok () ∧ e.name.NulFree ∧ name.NulFree ∧
        udtAddMember til s e.name name ty.serialize memberBit = r := by
    simp only [bind_eq_ok_iff, checkedSerialize_eq_ok_iff, nulChecked_eq_ok_iff]
    constructor
    · rintro ⟨_, ⟨hcheck, rfl⟩, _, ⟨htype, rfl⟩, _, ⟨hname, rfl⟩, h⟩
      exact ⟨hcheck, htype, hname, Except.ok.inj h⟩
    · rintro ⟨hcheck, htype, hname, rfl⟩
      exact ⟨_, ⟨hcheck, rfl⟩, _, ⟨htype, rfl⟩, _, ⟨hname, rfl⟩, rfl⟩
  rw [TypeEdit.addMemberImpl, acts_finishWrite_iff]
  · simp only [hcall, Buildable, Option.isSome_iff_exists]
    constructor
    · rintro h htype hname ⟨hcheck, type, hbuilt⟩ t hload
      obtain ⟨m, hadd, hoffset⟩ : ∃ m, udtAddMember til s e.name name ty.serialize memberBit =
          .ok (t, m) ∧ m.offset = some (placed (til.sdk s) t memberBit) :=
        udtAddMember_ok (by rwa [cStr_of_nulFree htype]) (builtType_eq_ok_iff.mpr hbuilt)
      have hasked := (h t m ⟨hcheck, htype, hname, hadd⟩).2
      rw [hoffset] at hasked
      exact Option.some.inj hasked
    · rintro h t m ⟨hcheck, htype, hname, hadd⟩
      obtain ⟨hload, ⟨type, hbuilt⟩, hoffset⟩ := of_udtAddMember hadd
      rw [cStr_of_nulFree htype] at hload
      have hplaced := h htype hname ⟨hcheck, type, builtType_eq_ok_iff.mp hbuilt⟩ t hload
      exact ⟨hload, hoffset.trans (congrArg some hplaced)⟩
  · intro code h
    exact udtAddMember_error (hcall.mp h).2.2.2

/-- An append never lies at the offset that is set apart for it. -/
theorem appendOffset_ne (sdk : Sdk τ) (t : τ) : appendOffset sdk t ≠ memberAppend := by
  unfold appendOffset memberAppend
  omega

theorem hasName_of_findUdm {udms : List (Udm τ)} {idx : ℕ} {name : Name}
    (h : findUdm udms (.inl name) = some idx) : HasName udms idx name := by
  obtain ⟨hlt, hname, -⟩ := List.findIdx?_eq_some_iff_getElem.mp h
  exact ⟨udms[idx], List.getElem?_eq_getElem hlt, of_decide_eq_true hname⟩

/-- A write acts as it is asked if and only if its key is not taken for
another one. -/
theorem actsAsAsked_iff (til : Til σ τ) (s : σ) (e : TypeEdit) (w : MemberWrite) :
    w.ActsAsAsked til s e ↔ w.Unmistaken til s e := by
  cases w with
  | edit key verb =>
      cases key with
      | name n =>
          have hacts : MemberWrite.ActsAsAsked til s e (.edit (.name n) verb) ↔ _ :=
            acts_edit_iff (e.member n) verb
          rw [hacts]
          cases n with
          | nil =>
              have hnil : Text.NulFree [] := by simp [Text.NulFree, Text.asBytes]
              constructor
              · intro h htype htook t hload idx hfound
                exact h htype hnil htook t hload idx hfound
              · rintro h htype - htook t hload idx hfound
                exact h htype htook t hload idx hfound
          | cons c n =>
              constructor
              · intro _
                trivial
              · rintro - - - - t - idx hfound
                exact hasName_of_findUdm hfound
      | offset bits =>
          have hacts : MemberWrite.ActsAsAsked til s e (.edit (.offset bits) verb) ↔ _ :=
            acts_edit_iff (e.memberAt bits) verb
          rw [hacts]
          constructor
          · intro _
            trivial
          · rintro - - - - t - idx hfound
            exact hfound
  | add name ty =>
      have hacts : MemberWrite.ActsAsAsked til s e (.add name ty) ↔ _ :=
        acts_addMemberImpl_iff e name ty memberAppend (appendOffset (til.sdk s))
      rw [hacts]
      constructor
      · intro _
        trivial
      · rintro - - - - t -
        exact if_pos rfl
  | addAt bitOffset name ty =>
      have hacts : MemberWrite.ActsAsAsked til s e (.addAt bitOffset name ty) ↔ _ :=
        acts_addMemberImpl_iff e name ty bitOffset.toNat (fun _ => bitOffset.toNat)
      rw [hacts]
      constructor
      · intro h happend htype hname hbuild
        cases hload : loadNamedType (til.sdk s) e.name.asBytes with
        | none => rfl
        | some t =>
            have hplaced := h htype hname hbuild t hload
            rw [placed, if_pos happend, happend] at hplaced
            exact absurd hplaced (appendOffset_ne _ _)
      · intro h htype hname hbuild t hload
        refine if_neg fun happend => ?_
        rw [h happend htype hname hbuild] at hload
        cases hload

end

def unionTil : Til (List (Udm PairType)) PairType where
  sdk udms :=
    { pairSdk [] [] with
      getUdtDetails := fun
        | .pair => some udms
        | .int => none }
  constructors _ :=
    { createSimpleType := fun _ => some .int
      getNamedType := fun _ => none
      parseDecl := fun _ => none
      createPtr := fun _ => none
      createArray := fun _ _ => none
      setConst := id
      setVolatile := id
      createFunc := fun _ => none
      createBitfield := fun _ _ _ => none }
  bitfieldWidth _ := none
  mutate
    | _, .delUdm idx, udms => (0, udms.eraseIdx idx)
    | _, .addUdmAt name type offset, udms =>
        (0, udms ++ [⟨name.getD [], offset, type, false, 32, ⟨0, false, false⟩⟩])
    | _, _, udms => (0, udms)

/-- An empty name deletes the member at bit zero, whatever its name is, and
the largest offset appends. -/
theorem not_actsAsAsked_union :
    ¬MemberWrite.ActsAsAsked unionTil (pairMembers [97] [98]) ⟨['p']⟩ (.edit (.name []) .delete) ∧
      ¬MemberWrite.ActsAsAsked unionTil (pairMembers [97] [98]) ⟨['p']⟩
        (.addAt 0xffffffffffffffff ['c'] (.int 4 true)) := by
  constructor
  · intro h
    have hrun : ((MemberWrite.edit (.name []) .delete).run unionTil (pairMembers [97] [98])
        ⟨['p']⟩).mutated = some (.pair, .delUdm 0) := by rfl
    unfold MemberWrite.ActsAsAsked Written.Acts at h
    rw [hrun] at h
    obtain ⟨-, idx, hidx, u, hu, hname⟩ := h
    cases hidx
    cases hu
    cases hname
  · intro h
    have hrun : ((MemberWrite.addAt 0xffffffffffffffff ['c'] (.int 4 true)).run unionTil
        (pairMembers [97] [98]) ⟨['p']⟩).mutated =
          some (.pair, .addUdmAt (some [99]) .int 0) := by rfl
    unfold MemberWrite.ActsAsAsked Written.Acts at h
    rw [hrun] at h
    have hoffset : some 0 = some (0xffffffffffffffff : UInt64).toNat := h.2
    exact absurd hoffset (by decide)

end Idakit.Facade
