import Idakit.Types.Edit
import Idakit.Facade.RecipeBuild
import Idakit.Facade.WalkCalls

/-!
Edits of one member, from the reference to the kernel's index. The reference
is minted and resolved on the layout that a walk reads; the kernel finds the
member again by the name or the bit offset that crosses.

The kernel is a parameter, as for the walk. It finds the first member that
has a name, or that covers an offset.
-/

namespace Idakit.Facade

open Idakit.Types
open Idakit.Library

variable {τ : Type}

def Udm.Covers (m : Udm τ) (bit : ℕ) : Prop := m.offset ≤ bit ∧ bit < m.offset + m.size

instance (m : Udm τ) (bit : ℕ) : Decidable (m.Covers bit) := inferInstanceAs (Decidable (_ ∧ _))

def findUdm (udms : List (Udm τ)) : Name ⊕ ℕ → Option ℕ
  | .inl name => udms.findIdx? fun m => m.name = name
  | .inr bit => udms.findIdx? fun m => m.Covers bit

/-- Resolve a member index: by name when there is one, else by bit offset. -/
def resolveMember (udms : List (Udm τ)) (memberName : Option Name) (memberBit : ℕ) : Option ℕ :=
  match memberName with
  | some name => findUdm udms (.inl name)
  | none => findUdm udms (.inr memberBit)

inductive EditTarget
  | noType
  | noMember
  | member (idx : ℕ)
  deriving DecidableEq

section

variable (sdk : Sdk τ)

def loadNamedType (typeName : Name) : Option τ :=
  (sdk.getNamedType typeName).filter fun t => !sdk.empty t

/-- The common part of the edits of a member. An empty name is the selector
by bit. -/
def udtMember (typeName memberName : Text) (memberBit : ℕ) : EditTarget :=
  let mnp := if memberName.asBytes = [] then none else some (cStr memberName.asBytes)
  match loadNamedType sdk (cStr typeName.asBytes) with
  | none => .noType
  | some t =>
      match resolveMember ((sdk.getUdtDetails t).getD []) mnp memberBit with
      | none => .noMember
      | some idx => .member idx

def typeNamed (fuel : ℕ) (name : Text) : Option ResolvedType :=
  match sdk.getNamedType (cStr name.asBytes) with
  | none => none
  | some t =>
      match ty sdk fuel t .start with
      | none => none
      | some (root, w) =>
          match walkType ⟨w.calls, some root⟩ with
          | some (.ok image) => image
          | _ => none

end

/-! ### The layout that a walk reads -/

structure Sdk.Aggregate (sdk : Sdk τ) (t : τ) (udms : List (Udm τ)) : Prop where
  empty : sdk.empty t = false
  isTypedef : sdk.isTypedef t = false
  isPtr : sdk.isPtr t = false
  isArray : sdk.isArray t = false
  isFunc : sdk.isFunc t = false
  isUdt : sdk.isUdt t = true
  details : sdk.getUdtDetails t = some udms

def ReadAs (sdk : Sdk τ) (u : Udm τ) (m : TypeMember) : Prop :=
  m.name = sdk.lossy u.name ∧ m.bitOffset = u.offset

variable {sdk : Sdk τ}

theorem placeholder_start {t : τ} {id : TypeId} {first : Bool} {w : WalkState}
    (h : placeholder sdk t .start = some ((id, first), w)) : first = true := by
  rw [placeholder] at h
  cases hname : typeName sdk t with
  | some nm =>
      rw [hname] at h
      obtain ⟨id', w₁, hmint, h⟩ := bind_eq_some.mp h
      obtain ⟨builder, -, rfl⟩ := visit_eq_some_iff.mp (mint_eq_some_iff.mp hmint)
      cases h
      rfl
  | none =>
      rw [hname] at h
      obtain ⟨id', w₁, -, h⟩ := bind_eq_some.mp h
      cases h
      rfl

theorem memberInfo_readAs {recur : τ → Walk TypeId} {u : Udm τ} {w w' : WalkState}
    {info : MemberInfo} (h : memberInfo sdk recur u w = some (info, w')) :
    ReadAs sdk u info.toMember := by
  obtain ⟨ty, middle, -, h⟩ := bind_eq_some.mp h
  cases h
  exact ⟨rfl, rfl⟩

/-- The walk of an aggregate ends in a table that has its members, in order. -/
theorem ty_aggregate {fuel : ℕ} {t : τ} {udms : List (Udm τ)} (haggregate : sdk.Aggregate t udms)
    {root : TypeId} {w : WalkState} (h : ty sdk fuel t .start = some (root, w)) :
    ∃ members, (⟨w.builder.table, root⟩ : ResolvedType).members = some members ∧
      List.Forall₂ (ReadAs sdk) udms members := by
  cases fuel with
  | zero => cases h
  | succ fuel =>
      rw [ty, tyWith, haggregate.isTypedef, Bool.and_false, if_neg Bool.false_ne_true, tyResolved,
        haggregate.empty, haggregate.isPtr, haggregate.isArray, haggregate.isFunc,
        haggregate.isUdt] at h
      simp only [Bool.false_eq_true, if_false, if_true, tyUdt, haggregate.details,
        Option.getD_some] at h
      obtain ⟨⟨id, first⟩, w₁, hplaceholder, h⟩ := bind_eq_some.mp h
      obtain rfl := placeholder_start hplaceholder
      obtain ⟨infos, w₂, hinfos, h⟩ := bind_eq_some.mp h
      obtain ⟨handle, w₃, hvisit, h⟩ := bind_eq_some.mp h
      obtain ⟨rfl, rfl⟩ := pure_eq_some.mp h
      obtain ⟨builder, hcall, rfl⟩ := visit_eq_some_iff.mp hvisit
      obtain ⟨b, hfill, heq⟩ := Option.map_eq_some_iff.mp hcall
      obtain ⟨table, htable, rfl⟩ := Option.map_eq_some_iff.mp hfill
      cases heq
      refine ⟨infos.map MemberInfo.toMember, ?_, ?_⟩
      · have hget := TypeTable.get_fill_self htable
        rw [ResolvedType.members, ResolvedType.get, hget]
        cases sdk.isUnion t <;> rfl
      · rw [List.forall₂_map_right_iff]
        have hread : ∀ u s info s', memberInfo sdk (ty sdk fuel) u s = some (info, s') →
            ReadAs sdk u info.toMember := fun _ _ _ _ h => memberInfo_readAs h
        exact forall₂_of_mapM hread hinfos

theorem members_of_typeNamed {fuel : ℕ} {name : Text} {t : τ} {udms : List (Udm τ)}
    (hnamed : sdk.getNamedType (cStr name.asBytes) = some t) (haggregate : sdk.Aggregate t udms)
    {image : ResolvedType} (h : typeNamed sdk fuel name = some image) :
    ∃ members, image.members = some members ∧ List.Forall₂ (ReadAs sdk) udms members := by
  simp only [typeNamed, hnamed] at h
  split at h
  · cases h
  · next root w hwalk =>
      split at h
      · next hwalkType =>
          rw [h] at hwalkType
          obtain ⟨handles, b, hrun, hroot, -, -, htable⟩ := walkType_eq_ok_some_iff.mp hwalkType
          obtain ⟨calls, handles', hcalls, hrun', -⟩ := moves_ty fuel t _ _ _ hwalk
          have hcalls : w.calls = calls := hcalls
          have hrun : TypeBuilder.new.run w.calls = some (handles, b) := hrun
          rw [hcalls] at hrun
          have hbuilder := Prod.mk.inj (Option.some.inj (hrun.symm.trans hrun'))
          obtain ⟨types, root'⟩ := image
          cases hroot
          have htypes : types = w.builder.table := htable.symm.trans (congrArg _ hbuilder.2)
          exact htypes ▸ ty_aggregate haggregate hwalk
      · cases h

/-! ### The member that an edit reaches -/

/-- A reference to the member at an index, resolved while nothing has changed,
makes the kernel edit that member. -/
def Reaches {γ : Type} [DecidableEq γ] (hash : ℕ × List MemberDigest → γ) (sdk : Sdk τ)
    (fuel : ℕ) (name : Text) (index : ℕ) : Prop :=
  ∃ r edit, memberRef hash (typeNamed sdk fuel) name index = .ok r ∧
    memberByRef hash (typeNamed sdk fuel) name r = .ok edit ∧
    edit.dispatch (udtMember sdk) = .ok (.member index)

/-- The key of a member selects it: its name is read back as it is and no
member before has it, or, where it reads as empty, it covers its offset and no
member before does. -/
def Selects (sdk : Sdk τ) (udms : List (Udm τ)) (index : ℕ) (u : Udm τ) : Prop :=
  if sdk.lossy u.name = [] then
    0 < u.size ∧ ∀ v ∈ udms.take index, ¬v.Covers u.offset
  else
    Text.NulFree (sdk.lossy u.name) ∧ (sdk.lossy u.name).asBytes = u.name ∧
      ∀ v ∈ udms.take index, v.name ≠ u.name

theorem findIdx?_eq_some_iff_take {α : Type} {p : α → Bool} {l : List α} {i : ℕ} {a : α}
    (ha : l[i]? = some a) :
    l.findIdx? p = some i ↔ p a ∧ ∀ b ∈ l.take i, ¬p b := by
  obtain ⟨hlt, rfl⟩ := List.getElem?_eq_some_iff.mp ha
  rw [List.findIdx?_eq_some_iff_getElem]
  constructor
  · rintro ⟨_, hp, hbefore⟩
    refine ⟨hp, fun b hb => ?_⟩
    obtain ⟨j, hj, rfl⟩ := List.mem_iff_getElem.mp hb
    rw [List.getElem_take]
    rw [List.length_take] at hj
    exact hbefore j (by omega)
  · rintro ⟨hp, hbefore⟩
    refine ⟨hlt, hp, fun j hj => hbefore _ ?_⟩
    exact List.mem_iff_getElem.mpr ⟨j, by simp [hj, Nat.lt_trans hj hlt], by simp⟩

theorem nulChecked_of_nulFree {s : Text} (h : s.NulFree) (arg : String) :
    nulChecked s arg = .ok s := by
  have hany : s.asBytes.any (· == 0) = false :=
    List.any_eq_false.mpr fun b hb hzero => h b hb (beq_iff_eq.mp hzero)
  rw [nulChecked, hany, if_neg Bool.false_ne_true]

theorem nulChecked_of_not_nulFree {s : Text} (h : ¬s.NulFree) (arg : String) :
    nulChecked s arg = .error (.interiorNul arg) := by
  cases hcheck : nulChecked s arg with
  | ok t => exact absurd (nulFree_of_nulChecked hcheck) h
  | error e =>
      rw [nulChecked] at hcheck
      split at hcheck
      · cases hcheck
        rfl
      · cases hcheck

theorem asBytes_eq_nil_iff {s : Text} : s.asBytes = [] ↔ s = [] := by
  cases s with
  | nil => simp [Text.asBytes]
  | cons c s =>
      simp only [Text.asBytes, List.flatMap_cons, List.append_eq_nil_iff, reduceCtorEq, iff_false,
        not_and]
      intro h
      have hlength := congrArg List.length h
      rw [String.length_utf8EncodeChar, List.length_nil] at hlength
      exact absurd hlength (Nat.ne_of_gt c.utf8Size_pos)

section

variable {name : Text} {t : τ} {udms : List (Udm τ)}
  (hnamed : sdk.getNamedType (cStr name.asBytes) = some t) (haggregate : sdk.Aggregate t udms)

include hnamed haggregate

theorem udtMember_eq_member_iff (member : Text) (bit idx : ℕ) :
    udtMember sdk name member bit = .member idx ↔
      resolveMember udms (if member = [] then none else some (cStr member.asBytes)) bit =
        some idx := by
  have hload : loadNamedType sdk (cStr name.asBytes) = some t := by
    simp [loadNamedType, hnamed, haggregate.empty]
  simp only [udtMember, hload, haggregate.details, Option.getD_some, asBytes_eq_nil_iff]
  cases resolveMember udms (if member = [] then none else some (cStr member.asBytes)) bit with
  | none => simp
  | some i => simp

theorem dispatch_offset_iff (bits idx : ℕ) :
    (⟨name, .offset bits⟩ : MemberEdit).dispatch (udtMember sdk) = .ok (.member idx) ↔
      name.NulFree ∧ findUdm udms (.inr bits) = some idx := by
  by_cases hname : name.NulFree
  · have hresolve := udtMember_eq_member_iff hnamed haggregate [] bits idx
    simp only [MemberEdit.dispatch, nulChecked_of_nulFree hname, hname, true_and]
    show Except.ok (udtMember sdk name [] bits) = .ok (.member idx) ↔ _
    rw [Except.ok.injEq, hresolve]
    rfl
  · simp only [MemberEdit.dispatch, nulChecked_of_not_nulFree hname, hname, false_and, iff_false]
    exact fun h => nomatch h

theorem dispatch_name_iff {n : Text} (hn : n ≠ []) (idx : ℕ) :
    (⟨name, .name n⟩ : MemberEdit).dispatch (udtMember sdk) = .ok (.member idx) ↔
      name.NulFree ∧ n.NulFree ∧ findUdm udms (.inl n.asBytes) = some idx := by
  by_cases hname : name.NulFree
  · simp only [MemberEdit.dispatch, nulChecked_of_nulFree hname, hname, true_and]
    by_cases hfree : n.NulFree
    · have hresolve := udtMember_eq_member_iff hnamed haggregate n 0 idx
      rw [if_neg hn, cStr_of_nulFree hfree] at hresolve
      rw [nulChecked_of_nulFree hfree]
      show Except.ok (udtMember sdk name n 0) = .ok (.member idx) ↔ _
      rw [Except.ok.injEq, hresolve, and_iff_right hfree]
      rfl
    · rw [nulChecked_of_not_nulFree hfree]
      simp only [hfree, false_and, iff_false]
      exact fun h => nomatch h
  · simp only [MemberEdit.dispatch, nulChecked_of_not_nulFree hname, hname, false_and, iff_false]
    exact fun h => nomatch h

end

/-- A reference reaches its member if and only if its key selects it. -/
theorem reaches_iff {γ : Type} [DecidableEq γ] (hash : ℕ × List MemberDigest → γ) {fuel : ℕ}
    {name : Text} {t : τ} {udms : List (Udm τ)} {index : ℕ} {u : Udm τ}
    (hnamed : sdk.getNamedType (cStr name.asBytes) = some t) (haggregate : sdk.Aggregate t udms)
    {image : ResolvedType} (himage : typeNamed sdk fuel name = some image)
    (hindex : udms[index]? = some u) :
    Reaches hash sdk fuel name index ↔ name.NulFree ∧ Selects sdk udms index u := by
  obtain ⟨members, hmembers, hread⟩ := members_of_typeNamed hnamed haggregate himage
  obtain ⟨hlt, hu⟩ := List.getElem?_eq_some_iff.mp hindex
  have hlt' : index < members.length := hread.length_eq ▸ hlt
  have hget : members[index]? = some members[index] := List.getElem?_eq_getElem hlt'
  have hm : ReadAs sdk u members[index] := hu ▸ List.Forall₂.get hread hlt hlt'
  -- Nothing has changed, so the reference is not stale and the edit is sent.
  have hdispatch : Reaches hash sdk fuel name index ↔
      (⟨name, members[index].key⟩ : MemberEdit).dispatch (udtMember sdk) =
        .ok (.member index) := by
    constructor
    · rintro ⟨r, edit, hmint, hresolve, hedit⟩
      obtain ⟨-, rfl⟩ := (memberRef_eq_ok_iff himage hmembers index r).mp hmint
      rw [memberByRef_eq himage hmembers, hget] at hresolve
      simp only [if_true] at hresolve
      cases hresolve
      exact hedit
    · intro hedit
      refine ⟨_, _, (memberRef_eq_ok_iff himage hmembers index _).mpr ⟨hlt', rfl⟩, ?_, hedit⟩
      rw [memberByRef_eq himage hmembers, hget]
      simp only [if_true]
  rw [hdispatch, Selects, TypeMember.key, hm.1, hm.2]
  -- A member without a name is selected by its first bit, the others by name.
  by_cases hempty : sdk.lossy u.name = []
  · have hself : u.Covers u.offset ↔ 0 < u.size := by simp [Udm.Covers]
    rw [if_pos hempty, if_pos hempty, dispatch_offset_iff hnamed haggregate, findUdm,
      findIdx?_eq_some_iff_take hindex]
    simp only [decide_eq_true_eq, hself]
  · rw [if_neg hempty, if_neg hempty, dispatch_name_iff hnamed haggregate hempty, findUdm,
      findIdx?_eq_some_iff_take hindex]
    simp only [decide_eq_true_eq, and_congr_right_iff]
    intro _ _
    constructor
    · rintro ⟨hname, hbefore⟩
      refine ⟨hname.symm, fun v hv => ?_⟩
      rw [hname]
      exact hbefore v hv
    · rintro ⟨hname, hbefore⟩
      refine ⟨hname.symm, fun v hv => ?_⟩
      rw [hname]
      exact hbefore v hv

inductive PairType
  | pair | int
  deriving DecidableEq

def pairMembers (first second : Name) : List (Udm PairType) :=
  [⟨first, 0, .int, false, 32, ⟨0, false, false⟩⟩, ⟨second, 0, .int, false, 32, ⟨0, false, false⟩⟩]

def pairSdk (first second : Name) : Sdk PairType where
  lossy nm := nm.map fun byte => Char.ofNat byte.toNat
  empty _ := false
  isTypedef _ := false
  isPtr _ := false
  isArray _ := false
  isFunc _ := false
  isUdt t := t = .pair
  isUnion t := t = .pair
  isEnum _ := false
  isBool _ := false
  isVoid _ := false
  isFloating _ := false
  isIntegral t := t = .int
  isSigned t := t = .int
  isBitfield _ := false
  isBitmaskEnum _ := false
  getSize _ := some 4
  getPointedObject t := t
  getArrayElement t := t
  getArrayNelems _ := 0
  getFuncDetails _ := none
  getUdtDetails
    | .pair => some (pairMembers first second)
    | .int => none
  getEnumDetails _ := none
  getEnumRepr _ := none
  getBitfieldDetails _ := none
  getTypeName
    | .pair => some [112]
    | .int => none
  print _ := none
  getNextTypeName _ := none
  getNamedType nm := if nm = [112] then some .pair else none

theorem aggregate_pair (first second : Name) :
    (pairSdk first second).Aggregate .pair (pairMembers first second) :=
  ⟨rfl, rfl, rfl, rfl, rfl, rfl, rfl⟩

theorem reaches_iff_named :
    Reaches id (pairSdk [97] [98]) 2 ['p'] 1 ↔
      Text.NulFree ['p'] ∧ Selects (pairSdk [97] [98]) (pairMembers [97] [98]) 1
        ⟨[98], 0, .int, false, 32, ⟨0, false, false⟩⟩ := by
  have hread : (typeNamed (pairSdk [97] [98]) 2 ['p']).isSome = true := by decide +kernel
  obtain ⟨image, himage⟩ := Option.isSome_iff_exists.mp hread
  exact reaches_iff id rfl (aggregate_pair _ _) himage rfl

/-- The second of two unnamed members of a union is not reached: the key of
both is bit offset zero. -/
theorem not_reaches_unnamed :
    (pairSdk [] []).Aggregate .pair (pairMembers [] []) ∧
      (typeNamed (pairSdk [] []) 2 ['p']).isSome = true ∧
      ¬Reaches (fun _ => ()) (pairSdk [] []) 2 ['p'] 1 := by
  refine ⟨aggregate_pair _ _, by decide +kernel, ?_⟩
  rintro ⟨r, edit, hmint, hresolve, hedit⟩
  have hmint' : memberRef (fun _ => ()) (typeNamed (pairSdk [] []) 2) ['p'] 1 =
      .ok ⟨['p'], 1, ()⟩ := by rfl
  cases hmint.symm.trans hmint'
  have hresolve' : memberByRef (fun _ => ()) (typeNamed (pairSdk [] []) 2) ['p'] ⟨['p'], 1, ()⟩ =
      .ok ⟨['p'], .offset 0⟩ := by rfl
  cases hresolve.symm.trans hresolve'
  have hedit' : (⟨['p'], .offset 0⟩ : MemberEdit).dispatch (udtMember (pairSdk [] [])) =
      .ok (.member 0) := by rfl
  exact nomatch hedit.symm.trans hedit'

end Idakit.Facade
