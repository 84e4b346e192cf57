import Idakit.Library.Delimited
import Idakit.Types.Canonical.Subterms

/-!
The canonical string of a type. The code writes lists with a comma in
front of every entry but the first; members, constants and parameters are
so written as separated lists.
-/

namespace Idakit.Types.Canonical

open Idakit.Library

def AggregateKind.keyword : AggregateKind → Text
  | .struct => ['s', 't', 'r', 'u', 'c', 't']
  | .union => ['u', 'n', 'i', 'o', 'n']
  | .enum => ['e', 'n', 'u', 'm']

def RecordKind.keyword : RecordKind → Text
  | .struct => ['s', 't', 'r', 'u', 'c', 't']
  | .union => ['u', 'n', 'i', 'o', 'n']

@[simp] theorem RecordKind.keyword_toAggregate (kind : RecordKind) :
    kind.toAggregate.keyword = kind.keyword := by
  cases kind <;> rfl

namespace CanonicalType

def writeScalar : CanonicalType → Option Text
  | .void => some "void".toList
  | .bool => some "bool".toList
  | .int bytes signed =>
      let sign : Char := if signed then 'i' else 'u'
      match bytes with
      | some b => some (sign :: decimal (b * 8))
      | none => some (sign :: "int".toList)
  | .float bytes =>
      match bytes with
      | some b => some ('f' :: decimal (b * 8))
      | none => some "float".toList
  | .backRef n => some ('#' :: decimal n)
  | _ => none

def writeTag : Option Text → Text
  | none => []
  | some t => ':' :: t

mutual

def writeCanonical (c : CanonicalType) : Text :=
  match writeScalar c with
  | some scalar => scalar
  | none =>
    match c with
    | .ptr pointee width =>
        "ptr".toList ++ marked ':' width ++ '(' :: writeCanonical pointee ++ [')']
    | .array elem len => '[' :: writeCanonical elem ++ ';' :: decimal len ++ [']']
    | .named tag kind => kind.keyword ++ ':' :: tag
    | .aggregate tag kind members size =>
        kind.keyword ++ writeTag tag ++ '{' :: writeMembers 0 members ++
          '}' :: marked '=' size
    | .enum tag underlying members size =>
        "enum".toList ++ writeTag tag ++ '(' :: writeCanonical underlying ++ [')', '{'] ++
          writeConstants 0 members ++ '}' :: marked '=' size
    | .function ret params varargs =>
        "fn(".toList ++ writeParams 0 params ++
          (if varargs then (if !params.isEmpty then [','] else []) ++ "...".toList else []) ++
          ")->".toList ++ writeCanonical ret
    | .typedef name underlying =>
        "typedef ".toList ++ name ++ '=' :: writeCanonical underlying
    | .opaqueNamed name => "opaque:".toList ++ name
    -- Scalars and back-references are written above.
    | .void | .bool | .int _ _ | .float _ | .backRef _ => []

def writeMembers (i : ℕ) : List (CanonicalMember CanonicalType) → Text
  | [] => []
  | ⟨name, bitOffset, bitfieldWidth, ty⟩ :: ms =>
      (if i > 0 then [','] else []) ++ name ++ marked '@' bitOffset ++
        marked ':' bitfieldWidth ++ '=' :: writeCanonical ty ++ writeMembers (i + 1) ms

def writeConstants (i : ℕ) : List (Text × ℕ) → Text
  | [] => []
  | (n, v) :: cs =>
      (if i > 0 then [','] else []) ++ n ++ '=' :: decimal v ++ writeConstants (i + 1) cs

def writeParams (i : ℕ) : List CanonicalType → Text
  | [] => []
  | p :: ps => (if i > 0 then [','] else []) ++ writeCanonical p ++ writeParams (i + 1) ps

end

theorem writeCanonical_ptr (pointee : CanonicalType) (width : Option ℕ) :
    writeCanonical (.ptr pointee width) =
      "ptr".toList ++ marked ':' width ++ '(' :: writeCanonical pointee ++ [')'] := rfl

theorem writeCanonical_aggregate (tag : Option Text) (kind : RecordKind)
    (members : List (CanonicalMember CanonicalType)) (size : Option ℕ) :
    writeCanonical (.aggregate tag kind members size) =
      kind.keyword ++ writeTag tag ++ '{' :: writeMembers 0 members ++
        '}' :: marked '=' size := rfl

theorem writeCanonical_enum (tag : Option Text) (underlying : CanonicalType)
    (members : List (Text × ℕ)) (size : Option ℕ) :
    writeCanonical (.enum tag underlying members size) =
      "enum".toList ++ writeTag tag ++ '(' :: writeCanonical underlying ++ [')', '{'] ++
        writeConstants 0 members ++ '}' :: marked '=' size := rfl

theorem writeCanonical_typedef (name : Text) (underlying : CanonicalType) :
    writeCanonical (.typedef name underlying) =
      "typedef ".toList ++ name ++ '=' :: writeCanonical underlying := rfl

/-! ### Lists as separated lists -/

def writeMember (m : CanonicalMember CanonicalType) : Text :=
  m.name ++ marked '@' m.bitOffset ++ marked ':' m.bitfieldWidth ++ '=' :: writeCanonical m.ty

def writeConstant (c : Text × ℕ) : Text := c.1 ++ '=' :: decimal c.2

/-- One parameter's spelling, the ellipsis of a variadic function being one
more parameter. -/
def writeParam : Option CanonicalType → Text
  | some p => writeCanonical p
  | none => ['.', '.', '.']

def ellipsis (params : List CanonicalType) (varargs : Bool) : List (Option CanonicalType) :=
  params.map some ++ if varargs then [none] else []

theorem writeMembers_succ (i : ℕ) (ms : List (CanonicalMember CanonicalType)) :
    writeMembers (i + 1) ms = ms.flatMap fun m => ',' :: writeMember m := by
  induction ms generalizing i with
  | nil => rfl
  | cons m ms ih =>
      obtain ⟨name, bitOffset, width, ty⟩ := m
      simp [writeMembers, writeMember, ih]

theorem writeMembers_zero (ms : List (CanonicalMember CanonicalType)) :
    writeMembers 0 ms = separated ',' writeMember ms := by
  cases ms with
  | nil => rfl
  | cons m ms =>
      obtain ⟨name, bitOffset, width, ty⟩ := m
      rw [writeMembers, writeMembers_succ, separated, writeMember]
      rfl

theorem writeConstants_succ (i : ℕ) (cs : List (Text × ℕ)) :
    writeConstants (i + 1) cs = cs.flatMap fun c => ',' :: writeConstant c := by
  induction cs generalizing i with
  | nil => rfl
  | cons c cs ih => simp [writeConstants, writeConstant, ih]

theorem writeConstants_zero (cs : List (Text × ℕ)) :
    writeConstants 0 cs = separated ',' writeConstant cs := by
  cases cs with
  | nil => rfl
  | cons c cs =>
      rw [writeConstants, writeConstants_succ, separated, writeConstant]
      rfl

theorem writeParams_succ (i : ℕ) (ps : List CanonicalType) :
    writeParams (i + 1) ps = (ps.map some).flatMap fun p => ',' :: writeParam p := by
  induction ps generalizing i with
  | nil => rfl
  | cons p ps ih => simp [writeParams, writeParam, ih]

/-- The parameter list of a function is separated like any other. -/
theorem writeParams_ellipsis (ps : List CanonicalType) (varargs : Bool) :
    writeParams 0 ps ++
        (if varargs then (if !ps.isEmpty then [','] else []) ++ "...".toList else []) =
      separated ',' writeParam (ellipsis ps varargs) := by
  cases ps with
  | nil => cases varargs <;> rfl
  | cons p ps =>
      rw [writeParams, writeParams_succ]
      cases varargs <;> simp [ellipsis, separated, writeParam]

theorem writeCanonical_function (ret : CanonicalType) (params : List CanonicalType)
    (varargs : Bool) :
    writeCanonical (.function ret params varargs) =
      "fn(".toList ++ separated ',' writeParam (ellipsis params varargs) ++ ")->".toList ++
        writeCanonical ret := by
  rw [← writeParams_ellipsis, ← List.append_assoc]
  rfl

/-- The types among the parameters of a function are its parameters. -/
theorem some_mem_ellipsis {ps : List CanonicalType} {varargs : Bool} {c : CanonicalType} :
    some c ∈ ellipsis ps varargs ↔ c ∈ ps := by
  cases varargs <;> simp [ellipsis]

theorem ellipsis_inj {ps ps' : List CanonicalType} {v v' : Bool}
    (h : ellipsis ps v = ellipsis ps' v') : ps = ps' ∧ v = v' := by
  have hps : ps = ps' := by
    have hfilter := congrArg (List.filterMap id) h
    cases v <;> cases v' <;> simpa [ellipsis] using hfilter
  have hv : v = v' := by
    have hmem : none ∈ ellipsis ps v ↔ none ∈ ellipsis ps' v' := by rw [h]
    cases v <;> cases v' <;> simp [ellipsis] at hmem ⊢
  exact ⟨hps, hv⟩

end CanonicalType

end Idakit.Types.Canonical
