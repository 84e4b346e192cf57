import Idakit.Facade.MemberWrites
import Idakit.Library.Whitespace

/-!
Edits of a function's prototype. Each reads the whole signature, changes one
part of it and writes it back, without the locations of the arguments, which
the kernel works out again.

The kernel is a parameter: what it has stored at an address, the details of a
function type, and how it makes and applies one. A call that traps counts as
one that refuses.
-/

namespace Idakit.Facade.FuncSig

open Idakit.Library Idakit.Types
open Idakit.Facade.RecipeMachine (Constructors)

/-- The details of a function type. Two of its flags say how far the locations
of the arguments are known. -/
structure FuncTypeData (τ : Type) where
  rettype : τ
  args : List (Funcarg τ)
  cc : ℕ
  argLocs : Bool
  expLocs : Bool
  flags : ℕ

structure PrototypeSdk (σ τ : Type) where
  constructors : σ → Constructors τ
  getTinfo : σ → UInt64 → Option τ
  getFuncDetails : τ → Option (FuncTypeData τ)
  createFunc : σ → FuncTypeData τ → Option τ
  applyTinfo : σ → UInt64 → τ → Option σ
  captured : σ → Text
  isVarargCc : ℕ → Bool

def sigOk : ℤ := 0
def sigNoPrototype : ℤ := 1
def sigArgRange : ℤ := 2
def sigBuild : ℤ := 3
def sigApply : ℤ := 4

/-! ### The facade -/

section

variable {σ τ : Type} (sdk : PrototypeSdk σ τ) (s : σ) (addr : UInt64)

def readFuncDetails : Option (FuncTypeData τ) := (sdk.getTinfo s addr).bind sdk.getFuncDetails

def FuncTypeData.unlocated (ftd : FuncTypeData τ) : FuncTypeData τ :=
  { ftd with argLocs := false, expLocs := false }

def rebuildAndApply (ftd : FuncTypeData τ) : ℤ × σ :=
  match sdk.createFunc s ftd.unlocated with
  | none => (sigApply, s)
  | some newType =>
      match sdk.applyTinfo s addr newType with
      | none => (sigApply, s)
      | some s' => (sigOk, s')

/-- The common part of the edits: a failure comes to a code, and else the edited
details are applied. -/
def surgery (edit : FuncTypeData τ → Except ℤ (FuncTypeData τ)) : ℤ × σ :=
  match readFuncDetails sdk s addr with
  | none => (sigNoPrototype, s)
  | some ftd =>
      match edit ftd with
      | .error code => (code, s)
      | .ok ftd => rebuildAndApply sdk s addr ftd

def arity : ℕ := ((readFuncDetails sdk s addr).map (·.args.length)).getD 0

def editArg (idx : ℕ) (edit : Except ℤ (Funcarg τ → Funcarg τ)) (ftd : FuncTypeData τ) :
    Except ℤ (FuncTypeData τ) :=
  if ftd.args.length ≤ idx then .error sigArgRange
  else edit.map fun f => { ftd with args := ftd.args.modify idx f }

def funcSetRettype (recipe : List UInt8) : ℤ × σ :=
  surgery sdk s addr fun ftd =>
    (builtType (sdk.constructors s) sigBuild recipe).map ({ ftd with rettype := · })

def funcSetArgtype (idx : ℕ) (recipe : List UInt8) : ℤ × σ :=
  surgery sdk s addr (editArg idx
    ((builtType (sdk.constructors s) sigBuild recipe).map fun t a => { a with type := t }))

def funcRenameArg (idx : ℕ) (name : Text) : ℤ × σ :=
  surgery sdk s addr (editArg idx (.ok ({ · with name := cStr name.asBytes })))

def funcSetCc (cc : ℕ) : ℤ × σ := surgery sdk s addr fun ftd => .ok { ftd with cc := cc }

def this : List UInt8 := Text.asBytes "this".toList

def funcPrependThis (recipe : List UInt8) : ℤ × σ :=
  surgery sdk s addr fun ftd =>
    (builtType (sdk.constructors s) sigBuild recipe).map fun t =>
      { ftd with args := ⟨this, t⟩ :: ftd.args }

end

/-! ### The cursor -/

inductive PrototypeError
  | interiorNul (arg : String)
  | noPrototype (address : UInt64)
  | argIndexOutOfRange (address : UInt64) (index arity : ℕ)
  | buildFailed (reason : Text)
  | applyRejected (address : UInt64) (reason : Text)
  deriving DecidableEq

def reasonOr (reason fallback : Text) : Text :=
  if trim reason = [] then fallback else trim reason

def sigResult (code : ℤ) (address : UInt64) (arg : Option (ℕ × ℕ)) (reason : Text) :
    Except PrototypeError Unit :=
  if code = sigOk then .ok ()
  else if code = sigNoPrototype then .error (.noPrototype address)
  else if code = sigArgRange then
    let (index, arity) := arg.getD (0, 0)
    .error (.argIndexOutOfRange address index arity)
  else if code = sigBuild then
    .error (.buildFailed
      (reasonOr reason "an unknown named type or invalid declaration within it".toList))
  else if code = sigApply then
    .error (.applyRejected address
      (reasonOr reason "the kernel rejected the edited signature".toList))
  else
    .error (.applyRejected address (reasonOr reason
      s!"the kernel rejected the edited signature (unexpected facade code {code})".toList))

section

variable {σ τ : Type} (sdk : PrototypeSdk σ τ) (s : σ) (entry : UInt64)

def finishSurgery {α : Type} (checked : Except Error α) (call : α → ℤ × σ)
    (arg : Option (ℕ × ℕ)) : Except PrototypeError Unit × σ :=
  match checked with
  | .error (.interiorNul name) => (.error (.interiorNul name), s)
  | .ok a => (sigResult (call a).1 entry arg (sdk.captured s), (call a).2)

def FunctionEdit.setReturnType (ret : TypeExpr) : Except PrototypeError Unit × σ :=
  finishSurgery sdk s entry (checkedSerialize ret) (funcSetRettype sdk s entry) none

def FunctionEdit.setArgType (index : ℕ) (ty : TypeExpr) : Except PrototypeError Unit × σ :=
  finishSurgery sdk s entry (checkedSerialize ty) (funcSetArgtype sdk s entry index)
    (some (index, arity sdk s entry))

def FunctionEdit.renameArg (index : ℕ) (name : Text) : Except PrototypeError Unit × σ :=
  finishSurgery sdk s entry (nulChecked name "name") (funcRenameArg sdk s entry index)
    (some (index, arity sdk s entry))

def FunctionEdit.setCallingConvention (cc : CallingConvention) : Except PrototypeError Unit × σ :=
  finishSurgery sdk s entry (.ok cc.code) (funcSetCc sdk s entry) none

def FunctionEdit.prependThis (this : TypeExpr) : Except PrototypeError Unit × σ :=
  finishSurgery sdk s entry (checkedSerialize this) (funcPrependThis sdk s entry) none

end

inductive Verb
  | setReturnType (ret : TypeExpr)
  | setArgType (index : ℕ) (ty : TypeExpr)
  | renameArg (index : ℕ) (name : Text)
  | setCallingConvention (cc : CallingConvention)
  | prependThis (this : TypeExpr)

def Verb.index : Verb → Option ℕ
  | .setArgType index _ => some index
  | .renameArg index _ => some index
  | _ => none

section

variable {σ τ : Type} (sdk : PrototypeSdk σ τ) (s : σ) (entry : UInt64)

def Verb.run : Verb → Except PrototypeError Unit × σ
  | .setReturnType ret => FunctionEdit.setReturnType sdk s entry ret
  | .setArgType index ty => FunctionEdit.setArgType sdk s entry index ty
  | .renameArg index name => FunctionEdit.renameArg sdk s entry index name
  | .setCallingConvention cc => FunctionEdit.setCallingConvention sdk s entry cc
  | .prependThis this => FunctionEdit.prependThis sdk s entry this

/-! ### What an edit should do -/

/-- The kernel stores what it is given, the locations aside, or refuses. -/
structure PrototypeSdk.Stores : Prop where
  created : ∀ s ftd t, sdk.createFunc s ftd = some t →
    ∃ ftd', sdk.getFuncDetails t = some ftd' ∧ ftd'.unlocated = ftd.unlocated
  applied : ∀ s addr t s', sdk.applyTinfo s addr t = some s' → sdk.getTinfo s' addr = some t
  others : ∀ s addr t s', sdk.applyTinfo s addr t = some s' →
    ∀ b, b ≠ addr → sdk.getTinfo s' b = sdk.getTinfo s b

def Verb.Checked : Verb → Prop
  | .setReturnType ty => ty.check = .ok ()
  | .setArgType _ ty => ty.check = .ok ()
  | .renameArg _ name => nulChecked name "name" = .ok name
  | .setCallingConvention _ => True
  | .prependThis ty => ty.check = .ok ()

def Verb.Replaces (ftd : FuncTypeData τ) (verb : Verb) (ftd' : FuncTypeData τ) : Prop :=
  match verb with
  | .setReturnType ret => ∃ t, recipeType (sdk.constructors s) ret.serialize = some t ∧
      ftd' = { ftd with rettype := t }
  | .setArgType index ty => index < ftd.args.length ∧
      ∃ t, recipeType (sdk.constructors s) ty.serialize = some t ∧
        ftd' = { ftd with args := ftd.args.modify index ({ · with type := t }) }
  | .renameArg index name => index < ftd.args.length ∧
      ftd' = { ftd with args := ftd.args.modify index ({ · with name := name.asBytes }) }
  | .setCallingConvention cc => ftd' = { ftd with cc := cc.code }
  | .prependThis this => ∃ t, recipeType (sdk.constructors s) this.serialize = some t ∧
      ftd' = { ftd with args := ⟨Text.asBytes "this".toList, t⟩ :: ftd.args }

/-- An edit changes one thing: the part that it is about if it succeeds, and
nothing if it fails. A function that takes varargs goes on to take them, and an
index past the parameters is named in the error. -/
structure Verb.ChangesOneThing (verb : Verb) (out : Except PrototypeError Unit × σ) : Prop where
  ok : out.1 = .ok () → ∃ ftd ftd' after,
    readFuncDetails sdk s entry = some ftd ∧ readFuncDetails sdk out.2 entry = some after ∧
    verb.Replaces sdk s ftd ftd' ∧ after.unlocated = ftd'.unlocated ∧
    (sdk.isVarargCc ftd.cc = true → sdk.isVarargCc after.cc = true) ∧
    ∀ b, b ≠ entry → sdk.getTinfo out.2 b = sdk.getTinfo s b
  error : ∀ e, out.1 = .error e → out.2 = s
  range : ∀ ftd index, readFuncDetails sdk s entry = some ftd → verb.index = some index →
    ftd.args.length ≤ index →
      out.1 = .error (.argIndexOutOfRange entry index ftd.args.length)

def Takes (ftd : FuncTypeData τ) : Prop :=
  ∃ t s', sdk.createFunc s ftd.unlocated = some t ∧ sdk.applyTinfo s entry t = some s'

/-- The edit does not replace the convention of a function that takes varargs,
with success, and an index that is past the parameters comes with no zero
byte. -/
structure Verb.Harmless (verb : Verb) : Prop where
  convention : ∀ cc ftd, verb = .setCallingConvention cc → readFuncDetails sdk s entry = some ftd →
    sdk.isVarargCc ftd.cc = true → ¬Takes sdk s entry { ftd with cc := cc.code }
  text : ∀ ftd index, readFuncDetails sdk s entry = some ftd → verb.index = some index →
    ftd.args.length ≤ index → verb.Checked

end

/-! ### What it does -/

section

variable {σ τ : Type} {sdk : PrototypeSdk σ τ} {s : σ} {entry : UInt64}

/-- Edited details are refused, or stored. -/
theorem rebuildAndApply_cases (hstores : sdk.Stores) (s : σ) (entry : UInt64)
    (ftd : FuncTypeData τ) :
    ¬Takes sdk s entry ftd ∧ rebuildAndApply sdk s entry ftd = (sigApply, s) ∨
    Takes sdk s entry ftd ∧ ∃ s' after, rebuildAndApply sdk s entry ftd = (sigOk, s') ∧
      readFuncDetails sdk s' entry = some after ∧ after.unlocated = ftd.unlocated ∧
      ∀ b, b ≠ entry → sdk.getTinfo s' b = sdk.getTinfo s b := by
  rw [rebuildAndApply]
  cases hcreate : sdk.createFunc s ftd.unlocated with
  | none =>
      refine .inl ⟨?_, rfl⟩
      rintro ⟨t, s', ht, -⟩
      rw [hcreate] at ht
      cases ht
  | some t =>
      cases happly : sdk.applyTinfo s entry t with
      | none =>
          refine .inl ⟨?_, by simp [happly]⟩
          rintro ⟨t', s', ht, hs⟩
          rw [hcreate] at ht
          cases ht
          rw [happly] at hs
          cases hs
      | some s' =>
          obtain ⟨after, hafter, hsame⟩ := hstores.created s _ t hcreate
          refine .inr ⟨⟨t, s', hcreate, happly⟩, s', after, by simp [happly], ?_, hsame, ?_⟩
          · rw [readFuncDetails, hstores.applied s entry t s' happly]
            exact hafter
          · exact hstores.others s entry t s' happly

inductive Comes (sdk : PrototypeSdk σ τ) (s : σ) (entry : UInt64) (verb : Verb) :
    ℤ × σ → Prop
  | noPrototype (h : readFuncDetails sdk s entry = none) :
      Comes sdk s entry verb (sigNoPrototype, s)
  | argRange {ftd : FuncTypeData τ} {index : ℕ} (h : readFuncDetails sdk s entry = some ftd)
      (hindex : verb.index = some index) (hlt : ftd.args.length ≤ index) :
      Comes sdk s entry verb (sigArgRange, s)
  | build {ftd : FuncTypeData τ} (h : readFuncDetails sdk s entry = some ftd)
      (hlt : ∀ index, verb.index = some index → index < ftd.args.length) :
      Comes sdk s entry verb (sigBuild, s)
  | applies {ftd ftd' : FuncTypeData τ} (h : readFuncDetails sdk s entry = some ftd)
      (hedit : verb.Replaces sdk s ftd ftd') :
      Comes sdk s entry verb (rebuildAndApply sdk s entry ftd')

theorem cStr_of_nulChecked {name name' : Text} {arg : String} (h : nulChecked name arg = .ok name') :
    name' = name ∧ cStr name.asBytes = name.asBytes := by
  rw [nulChecked] at h
  split at h
  · cases h
  · next hnul =>
      refine ⟨(Except.ok.inj h).symm, ?_⟩
      rw [cStr, List.takeWhile_eq_self_iff]
      intro b hb
      simp only [List.any_eq_true, beq_iff_eq, not_exists, not_and] at hnul
      simpa using hnul b hb

/-- What is read is edited, and comes to a code or to new details. -/
theorem comes_of_surgery {verb : Verb} {edit : FuncTypeData τ → Except ℤ (FuncTypeData τ)}
    (hedit : ∀ ftd, match edit ftd with
      | .ok ftd' => verb.Replaces sdk s ftd ftd'
      | .error code =>
          code = sigBuild ∧ (∀ index, verb.index = some index → index < ftd.args.length) ∨
          code = sigArgRange ∧ ∃ index, verb.index = some index ∧ ftd.args.length ≤ index) :
    Comes sdk s entry verb (surgery sdk s entry edit) := by
  rw [surgery]
  cases hread : readFuncDetails sdk s entry with
  | none => exact .noPrototype hread
  | some ftd =>
      have hftd := hedit ftd
      dsimp only
      split at hftd
      · next ftd' hok =>
          rw [hok]
          exact .applies hread hftd
      · next code herror =>
          rw [herror]
          rcases hftd with ⟨rfl, hlt⟩ | ⟨rfl, index, hindex, hle⟩
          · exact .build hread hlt
          · exact .argRange hread hindex hle

theorem finishSurgery_cases (sdk : PrototypeSdk σ τ) (s : σ) (entry : UInt64) {α : Type}
    (checked : Except Error α) (call : α → ℤ × σ) (arg : Option (ℕ × ℕ)) :
    (∃ name, checked = .error (.interiorNul name) ∧
      finishSurgery sdk s entry checked call arg = (.error (.interiorNul name), s)) ∨
    ∃ a, checked = .ok a ∧ finishSurgery sdk s entry checked call arg =
      (sigResult (call a).1 entry arg (sdk.captured s), (call a).2) := by
  cases checked with
  | error e =>
      obtain ⟨name⟩ := e
      exact .inl ⟨name, rfl, rfl⟩
  | ok a => exact .inr ⟨a, rfl, rfl⟩

inductive Verb.Results (sdk : PrototypeSdk σ τ) (s : σ) (entry : UInt64) (verb : Verb) :
    Except PrototypeError Unit × σ → Prop
  | refused {name : String} (h : ¬verb.Checked) :
      Results sdk s entry verb (.error (.interiorNul name), s)
  | crossed {r : ℤ × σ} (h : verb.Checked) (hr : Comes sdk s entry verb r) :
      Results sdk s entry verb (sigResult r.1 entry
        (verb.index.map fun index => (index, arity sdk s entry)) (sdk.captured s), r.2)

theorem editArg_cases (index : ℕ) (edit : Except ℤ (Funcarg τ → Funcarg τ)) (ftd : FuncTypeData τ) :
    ftd.args.length ≤ index ∧ editArg index edit ftd = .error sigArgRange ∨
    index < ftd.args.length ∧
      editArg index edit ftd = edit.map fun f => { ftd with args := ftd.args.modify index f } := by
  by_cases h : ftd.args.length ≤ index
  · exact .inl ⟨h, if_pos h⟩
  · exact .inr ⟨not_le.mp h, if_neg h⟩

/-- An edit with a type in its text. -/
theorem results_of_type {verb : Verb} {ty : TypeExpr} (hchecked : verb.Checked ↔ ty.check = .ok ())
    {call : List UInt8 → ℤ × σ} (hcall : Comes sdk s entry verb (call ty.serialize)) :
    verb.Results sdk s entry (finishSurgery sdk s entry (checkedSerialize ty) call
      (verb.index.map fun index => (index, arity sdk s entry))) := by
  obtain ⟨name, herror, heq⟩ | ⟨recipe, hok, heq⟩ := finishSurgery_cases sdk s entry
    (checkedSerialize ty) call (verb.index.map fun index => (index, arity sdk s entry))
  · rw [heq]
    refine .refused fun h => ?_
    rw [checkedSerialize_eq_ok_iff.mpr ⟨hchecked.mp h, rfl⟩] at herror
    cases herror
  · obtain ⟨hcheck, rfl⟩ := checkedSerialize_eq_ok_iff.mp hok
    rw [heq]
    exact .crossed (hchecked.mpr hcheck) hcall

theorem run_results (sdk : PrototypeSdk σ τ) (s : σ) (entry : UInt64) (verb : Verb) :
    verb.Results sdk s entry (verb.run sdk s entry) := by
  -- A verb is refused for its text, or comes to a surgery; that fails at the recipe or the index.
  cases verb with
  | setReturnType ret =>
      refine results_of_type Iff.rfl (comes_of_surgery fun ftd => ?_)
      cases hbuild : builtType (sdk.constructors s) sigBuild ret.serialize with
      | ok t => exact ⟨t, builtType_eq_ok_iff.mp hbuild, rfl⟩
      | error code => exact .inl ⟨builtType_error hbuild, nofun⟩
  | setArgType index ty =>
      refine results_of_type Iff.rfl (comes_of_surgery fun ftd => ?_)
      obtain ⟨hle, heq⟩ | ⟨hlt, heq⟩ := editArg_cases index
        ((builtType (sdk.constructors s) sigBuild ty.serialize).map fun t a =>
          { a with type := t }) ftd
      · rw [heq]
        exact .inr ⟨rfl, index, rfl, hle⟩
      · rw [heq]
        cases hbuild : builtType (sdk.constructors s) sigBuild ty.serialize with
        | ok t => exact ⟨hlt, t, builtType_eq_ok_iff.mp hbuild, rfl⟩
        | error code =>
            refine .inl ⟨builtType_error hbuild, ?_⟩
            rintro _ ⟨⟩
            exact hlt
  | renameArg index name =>
      show Verb.Results sdk s entry _ (FunctionEdit.renameArg sdk s entry index name)
      rw [FunctionEdit.renameArg]
      obtain ⟨arg, herror, heq⟩ | ⟨name', hok, heq⟩ := finishSurgery_cases sdk s entry
        (nulChecked name "name") (funcRenameArg sdk s entry index)
        (some (index, arity sdk s entry))
      · rw [heq]
        refine .refused fun h => ?_
        rw [show nulChecked name "name" = .ok name from h] at herror
        cases herror
      · obtain ⟨rfl, hbytes⟩ := cStr_of_nulChecked hok
        rw [heq]
        refine .crossed hok (comes_of_surgery fun ftd => ?_)
        rw [hbytes]
        obtain ⟨hle, heq⟩ | ⟨hlt, heq⟩ := editArg_cases index
          (.ok ({ · with name := name'.asBytes })) ftd
        · rw [heq]
          exact .inr ⟨rfl, index, rfl, hle⟩
        · rw [heq]
          exact ⟨hlt, rfl⟩
  | setCallingConvention cc => exact .crossed trivial (comes_of_surgery fun ftd => rfl)
  | prependThis this =>
      refine results_of_type Iff.rfl (comes_of_surgery fun ftd => ?_)
      cases hbuild : builtType (sdk.constructors s) sigBuild this.serialize with
      | ok t => exact ⟨t, builtType_eq_ok_iff.mp hbuild, rfl⟩
      | error code => exact .inl ⟨builtType_error hbuild, nofun⟩

/-! ### One thing -/

theorem Verb.Replaces.lt {verb : Verb} {ftd ftd' : FuncTypeData τ} {index : ℕ}
    (h : verb.Replaces sdk s ftd ftd') (hindex : verb.index = some index) :
    index < ftd.args.length := by
  cases verb with
  | setArgType i ty =>
      cases hindex
      exact h.1
  | renameArg i name =>
      cases hindex
      exact h.1
  | _ => cases hindex

/-- Only one edit is about the convention. -/
theorem Verb.Replaces.cc_eq {verb : Verb} {ftd ftd' : FuncTypeData τ}
    (h : verb.Replaces sdk s ftd ftd') :
    ftd'.cc = ftd.cc ∨ ∃ cc, verb = .setCallingConvention cc ∧ ftd' = { ftd with cc := cc.code } := by
  cases verb with
  | setReturnType ret =>
      obtain ⟨t, -, rfl⟩ := h
      exact .inl rfl
  | setArgType index ty =>
      obtain ⟨-, t, -, rfl⟩ := h
      exact .inl rfl
  | renameArg index name =>
      obtain ⟨-, rfl⟩ := h
      exact .inl rfl
  | setCallingConvention cc => exact .inr ⟨cc, rfl, h⟩
  | prependThis this =>
      obtain ⟨t, -, rfl⟩ := h
      exact .inl rfl

theorem cc_of_unlocated {ftd ftd' : FuncTypeData τ} (h : ftd.unlocated = ftd'.unlocated) :
    ftd.cc = ftd'.cc := by
  show ftd.unlocated.cc = ftd'.unlocated.cc
  rw [h]

theorem arity_eq {ftd : FuncTypeData τ} (h : readFuncDetails sdk s entry = some ftd) :
    arity sdk s entry = ftd.args.length := by
  rw [arity, h]
  rfl

/-- An error changes nothing; it must name an index that is past the
parameters. -/
theorem changesOneThing_of_error {verb : Verb} {e : PrototypeError}
    (h : ∀ ftd index, readFuncDetails sdk s entry = some ftd → verb.index = some index →
      ftd.args.length ≤ index → e = .argIndexOutOfRange entry index ftd.args.length) :
    verb.ChangesOneThing sdk s entry (.error e, s) where
  ok := nofun
  error _ _ := rfl
  range ftd index hftd hindex hle := congrArg Except.error (h ftd index hftd hindex hle)

/-- The details that an edit makes are stored, or refused. -/
theorem changesOneThing_of_replaces (hstores : sdk.Stores) {verb : Verb} {ftd ftd' : FuncTypeData τ}
    (h : verb.Harmless sdk s entry) (hread : readFuncDetails sdk s entry = some ftd)
    (hedit : verb.Replaces sdk s ftd ftd') (arg : Option (ℕ × ℕ)) (reason : Text) :
    verb.ChangesOneThing sdk s entry
      (sigResult (rebuildAndApply sdk s entry ftd').1 entry arg reason,
        (rebuildAndApply sdk s entry ftd').2) := by
  have hrange : ∀ ftd index, readFuncDetails sdk s entry = some ftd → verb.index = some index →
      index < ftd.args.length := by
    intro ftd₁ index hread₁ hindex
    rw [hread] at hread₁
    cases hread₁
    exact hedit.lt hindex
  obtain ⟨-, heq⟩ | ⟨htakes, s', after, heq, hafter, hsame, hothers⟩ :=
    rebuildAndApply_cases hstores s entry ftd'
  · rw [heq]
    refine changesOneThing_of_error fun ftd₁ index hread₁ hindex hle => ?_
    exact absurd (hrange ftd₁ index hread₁ hindex) (not_lt.mpr hle)
  · rw [heq]
    refine ⟨fun _ => ?_, nofun, fun ftd₁ index hread₁ hindex hle => ?_⟩
    · refine ⟨ftd, ftd', after, hread, hafter, hedit, hsame, fun hvararg => ?_, hothers⟩
      rw [cc_of_unlocated hsame]
      rcases hedit.cc_eq with hcc | ⟨cc, rfl, rfl⟩
      · rw [hcc, hvararg]
      · exact absurd htakes (h.convention cc ftd rfl hread hvararg)
    · exact absurd (hrange ftd₁ index hread₁ hindex) (not_lt.mpr hle)

theorem changesOneThing_of_harmless (hstores : sdk.Stores) {verb : Verb}
    (h : verb.Harmless sdk s entry) :
    verb.ChangesOneThing sdk s entry (verb.run sdk s entry) := by
  have hresults := run_results sdk s entry verb
  generalize verb.run sdk s entry = out at hresults ⊢
  cases hresults with
  | refused hunchecked =>
      refine changesOneThing_of_error fun ftd index hftd hindex hle => ?_
      exact absurd (h.text ftd index hftd hindex hle) hunchecked
  | crossed hchecked hr =>
      cases hr with
      | noPrototype hnone =>
          refine changesOneThing_of_error fun ftd index hftd hindex hle => ?_
          rw [hnone] at hftd
          cases hftd
      | argRange hread hindex hle =>
          rw [hindex, Option.map_some, arity_eq hread]
          refine changesOneThing_of_error fun ftd₁ index₁ hread₁ hindex₁ _ => ?_
          rw [hread] at hread₁
          rw [hindex] at hindex₁
          cases hread₁
          cases hindex₁
          rfl
      | build hread hlt =>
          refine changesOneThing_of_error fun ftd₁ index hread₁ hindex hle => ?_
          rw [hread] at hread₁
          cases hread₁
          exact absurd (hlt index hindex) (not_lt.mpr hle)
      | applies hread hedit => exact changesOneThing_of_replaces hstores h hread hedit _ _

/-- What succeeds in replacing the convention of a function with varargs ends
them. -/
theorem harmless_of_changesOneThing (hstores : sdk.Stores)
    (hplain : ∀ cc : CallingConvention, sdk.isVarargCc cc.code = false) {verb : Verb}
    (h : verb.ChangesOneThing sdk s entry (verb.run sdk s entry)) :
    verb.Harmless sdk s entry where
  convention := by
    rintro cc ftd rfl hread hvararg htakes
    have hsurgery : surgery sdk s entry (fun ftd => .ok { ftd with cc := cc.code }) =
        rebuildAndApply sdk s entry { ftd with cc := cc.code } := by
      rw [surgery, hread]
    obtain ⟨hnot, -⟩ | ⟨-, s', after, heq, -⟩ :=
      rebuildAndApply_cases hstores s entry { ftd with cc := cc.code }
    · exact hnot htakes
    · have hok : (Verb.run sdk s entry (.setCallingConvention cc)).1 = .ok () := by
        show sigResult (surgery sdk s entry fun ftd => .ok { ftd with cc := cc.code }).1 entry none
          (sdk.captured s) = .ok ()
        rw [hsurgery, heq]
        rfl
      obtain ⟨ftd₁, ftd', after, hread₁, -, rfl, hsame, hkeeps, -⟩ := h.ok hok
      rw [hread] at hread₁
      cases hread₁
      have hcc := hkeeps hvararg
      rw [cc_of_unlocated hsame, hplain cc] at hcc
      cases hcc
  text ftd index hread hindex hle := by
    have hrange := h.range ftd index hread hindex hle
    have hresults := run_results sdk s entry verb
    generalize verb.run sdk s entry = out at hresults hrange
    cases hresults with
    | refused hunchecked => cases hrange
    | crossed hchecked hr => exact hchecked

/-- An edit changes one thing just if it does not succeed in replacing the
convention of a function with varargs, and an index past the parameters comes
with a text that is not refused first. -/
theorem changesOneThing_iff (hstores : sdk.Stores)
    (hplain : ∀ cc : CallingConvention, sdk.isVarargCc cc.code = false) (s : σ) (entry : UInt64)
    (verb : Verb) :
    verb.ChangesOneThing sdk s entry (verb.run sdk s entry) ↔ verb.Harmless sdk s entry :=
  ⟨harmless_of_changesOneThing hstores hplain, changesOneThing_of_harmless hstores⟩

end

/-! ### A function with varargs -/

inductive Kept
  | int
  | func (rettype : Kept) (args : List (Funcarg Kept)) (cc flags : ℕ)

/-- A kernel that takes every function type. `CM_CC_ELLIPSIS` and
`CM_CC_SPECIALE` are the conventions with varargs. -/
def keeping : PrototypeSdk (UInt64 → Option Kept) Kept where
  constructors _ := ⟨fun _ => some .int, fun _ => none, fun _ => none, some, fun t _ => some t, id,
    id, fun _ => none, fun _ _ _ => none⟩
  getTinfo s addr := s addr
  getFuncDetails
    | .int => none
    | .func rettype args cc flags => some ⟨rettype, args, cc, false, false, flags⟩
  createFunc _ ftd := some (.func ftd.rettype ftd.args ftd.cc ftd.flags)
  applyTinfo s addr t := some (Function.update s addr (some t))
  captured _ := []
  isVarargCc cc := cc == 0x40 || cc == 0xD0

/-- `int f(int, ...)` at every address. -/
def variadic : UInt64 → Option Kept := fun _ => some (.func .int [⟨[0x61], .int⟩] 0x40 0)

theorem stores_keeping : keeping.Stores where
  created s ftd t h := by
    cases h
    exact ⟨_, rfl, rfl⟩
  applied s addr t s' h := by
    cases h
    exact Function.update_self addr _ s
  others s addr t s' h b hb := by
    cases h
    exact Function.update_of_ne hb _ s

theorem isVarargCc_keeping (cc : CallingConvention) : keeping.isVarargCc cc.code = false := by
  cases cc <;> rfl

theorem changesOneThing_iff_variadic :
    (Verb.renameArg 0 ['b']).ChangesOneThing keeping variadic 0x1000
      ((Verb.renameArg 0 ['b']).run keeping variadic 0x1000) := by
  refine (changesOneThing_iff stores_keeping isVarargCc_keeping variadic 0x1000 _).mpr ⟨nofun, ?_⟩
  intro ftd index hread hindex hle
  show nulChecked ['b'] "name" = .ok ['b']
  rfl

/-- Its convention is replaced, and the varargs are gone. -/
theorem not_changesOneThing_variadic :
    ((Verb.setCallingConvention .cdecl).run keeping variadic 0x1000).1 = .ok () ∧
    ¬(Verb.setCallingConvention .cdecl).ChangesOneThing keeping variadic 0x1000
      ((Verb.setCallingConvention .cdecl).run keeping variadic 0x1000) := by
  refine ⟨rfl, fun h => ?_⟩
  obtain ⟨ftd, ftd', after, hread, hafter, -, -, hkeeps, -⟩ := h.ok rfl
  cases hread
  cases hafter
  have hvararg := hkeeps rfl
  cases hvararg

end Idakit.Facade.FuncSig
