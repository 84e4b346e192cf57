import Idakit.Decompiler.Ctree.Shape
import Idakit.Library.Overflow

/-!
The variable at the base of an expression, and the byte offset from it. The
search looks through casts, addresses, dereferences and member accesses, and
through additions of a literal to a pointer; an offset is an `i64`.

`none` stands for a panic, or for a search that has not come to an end within
its fuel; overflow checks are a parameter.
-/

namespace Idakit.Decompiler

open Idakit.Types
open Idakit.Library

def literal (k : UInt64) : ℤ := asI64 k.toNat

namespace Ctree

section

variable (t : Ctree)

def kind (e : ExpressionId) : Option (ExpressionKind ExpressionId) :=
  t.expressions[e]?.map ExpressionNode.kind

def stripCasts : ℕ → ExpressionId → Option ExpressionId
  | 0, _ => none
  | fuel + 1, e => do
      match ← t.kind e with
      | .cast x | .unary .ref x => stripCasts fuel x
      | _ => return e

/-- The size of what a pointer points at; `some none` where that is not known,
or for another type. -/
def pointeeSize (e : ExpressionId) : Option (Option ℕ) := do
  let node ← t.expressions[e]?
  let tv ← t.types.get node.ty
  match tv.shape with
  | .ptr elem => do
      let target ← t.types.get elem
      return target.size
  | _ => return none

/-- The operand of an addition that may be a pointer, with the literal. -/
def scaled (x y : ExpressionId) : Option (Option (ExpressionId × UInt64)) := do
  match ← t.kind x, ← t.kind y with
  | _, .num k => return some (x, k)
  | .num k, _ => return some (y, k)
  | _, _ => return none

def baseVar (checks : Bool) : ℕ → ExpressionId → Option (Option (LocalId × ℤ))
  | 0, _ => none
  | fuel + 1, e => do
      let e ← t.stripCasts (fuel + 1) e
      match ← t.kind e with
      | .var v => return some (v, 0)
      | .memberRef obj byteOffset | .memberPtr obj byteOffset => do
          match ← baseVar checks fuel obj with
          | none => return none
          | some (v, off) => do
              let off ← arith checks (off + byteOffset)
              return some (v, off)
      | .deref x _ => baseVar checks fuel x
      | .binary .add x y => do
          match ← t.scaled x y with
          | none => return none
          | some (base, k) => do
              match ← t.pointeeSize base with
              | none => return none
              | some elem => do
                  match ← baseVar checks fuel base with
                  | none => return none
                  | some (v, off) => do
                      let bytes ← arith checks (literal k * asI64 elem)
                      let off ← arith checks (off + bytes)
                      return some (v, off)
      | _ => return none

end

/-! ### The chain to the variable -/

/-- What one step of a chain adds to the offset. -/
inductive Term
  | member (byteOffset : ℕ)
  | scaled (k : UInt64) (elem : ℕ)

/-- The bytes of a term, in exact arithmetic. -/
def Term.bytes : Term → ℤ
  | .member byteOffset => byteOffset
  | .scaled k elem => literal k * elem

/-- The bytes of a term, the size read as an `i64`. -/
def Term.delta : Term → ℤ
  | .member byteOffset => byteOffset
  | .scaled k elem => literal k * asI64 elem

def Term.Fits : Term → Prop
  | .member _ => True
  | .scaled k elem => FitsI64 (literal k * asI64 elem)

section

variable (t : Ctree)

/-- What an expression is, as far as a chain goes. -/
inductive Link
  | root (v : LocalId)
  | via (x : ExpressionId) (terms : List Term)
  | stop

def link (e : ExpressionId) : Option Link := do
  let e ← t.stripCasts (e + 1) e
  match ← t.kind e with
  | .var v => return .root v
  | .memberRef obj byteOffset | .memberPtr obj byteOffset => return .via obj [.member byteOffset]
  | .deref x _ => return .via x []
  | .binary .add x y => do
      match ← t.scaled x y with
      | none => return .stop
      | some (base, k) => do
          match ← t.pointeeSize base with
          | none => return .stop
          | some elem => return .via base [.scaled k elem]
  | _ => return .stop

/-- A chain leads from an expression to a variable, past these terms; the
nearest to the variable comes first. -/
inductive Leads : ExpressionId → LocalId → List Term → Prop
  | root {e v} (h : t.link e = some (.root v)) : Leads e v []
  | via {e x v terms terms'} (h : t.link e = some (.via x terms')) (hrest : Leads x v terms) :
      Leads e v (terms ++ terms')

/-- Every product along a chain and every sum of it are in range. -/
def Bounded (terms : List Term) : Prop :=
  ∀ before term after, terms = before ++ term :: after →
    term.Fits ∧ FitsI64 ((before.map Term.delta).sum + term.delta)

def offset (terms : List Term) : ℤ := (terms.map Term.bytes).sum

/-- The search comes to its end without an overflow, with the exact offset if
it finds a variable. -/
def Exact (e : ExpressionId) : Prop :=
  ∃ found, (∀ checks fuel, e < fuel → t.baseVar checks fuel e = some found) ∧
    ∀ v off, found = some (v, off) → ∃ terms, t.Leads e v terms ∧ off = offset terms

structure Closed : Prop where
  childrenFirst : t.ChildrenFirst
  typed : ∀ node ∈ t.expressions, (t.types.get node.ty).isSome
  pointees : ∀ id tv elem, t.types.get id = some tv → tv.shape = .ptr elem →
    (t.types.get elem).isSome

end

/-! ### A tree is searched to its end -/

section

variable {t : Ctree}

theorem kind_eq_some_iff {e : ℕ} {k : ExpressionKind ExpressionId} :
    t.kind e = some k ↔ ∃ node, t.expressions[e]? = some node ∧ node.kind = k := by
  simp [kind]

theorem exists_kind {e : ℕ} (he : e < t.expressions.length) : ∃ k, t.kind e = some k :=
  ⟨_, kind_eq_some_iff.mpr ⟨_, List.getElem?_eq_getElem he, rfl⟩⟩

theorem exists_scaled {x y : ℕ} (hx : x < t.expressions.length) (hy : y < t.expressions.length) :
    ∃ found, t.scaled x y = some found ∧
      ∀ base k, found = some (base, k) → base = x ∨ base = y := by
  obtain ⟨kx, hkx⟩ := exists_kind hx
  obtain ⟨ky, hky⟩ := exists_kind hy
  unfold scaled
  simp only [hkx, hky, Option.bind_eq_bind, Option.bind_some]
  split
  · exact ⟨_, rfl, fun base k h => by cases h; exact Or.inl rfl⟩
  · exact ⟨_, rfl, fun base k h => by cases h; exact Or.inr rfl⟩
  · exact ⟨_, rfl, fun base k h => by cases h⟩

variable (hclosed : t.Closed)

include hclosed

/-- The children of an expression have smaller handles. -/
theorem child_lt {e c : ℕ} {k : ExpressionKind ExpressionId} (h : t.kind e = some k)
    (hc : c ∈ k.children) : c < e := by
  obtain ⟨node, hnode, rfl⟩ := kind_eq_some_iff.mp h
  have hkids : t.kids (.expression e) = node.kind.children.map .expression := by
    simp [Arenas.kids, Arenas.children, hnode]
  have hmem : (.expression c : NodeRef) ∈ t.kids (.expression e) := by
    rw [hkids]
    exact List.mem_map_of_mem hc
  exact hclosed.childrenFirst.ranked (.expression e) _ hmem

theorem stripCasts_eq {e : ℕ} (he : e < t.expressions.length) :
    ∃ e' ≤ e, ∀ fuel, e < fuel → t.stripCasts fuel e = some e' := by
  induction e using Nat.strongRecOn with
  | ind e ih =>
      obtain ⟨k, hk⟩ := exists_kind he
      have hpeel (x : ℕ) (hx : x ∈ k.children)
          (hstep : ∀ fuel, t.stripCasts (fuel + 1) e = t.stripCasts fuel x) :
          ∃ e' ≤ e, ∀ fuel, e < fuel → t.stripCasts fuel e = some e' := by
        have hlt := child_lt hclosed hk hx
        obtain ⟨e', hle, hstrip⟩ := ih x hlt (by omega)
        refine ⟨e', by omega, fun fuel hfuel => ?_⟩
        obtain ⟨fuel, rfl⟩ : ∃ n, fuel = n + 1 := ⟨fuel - 1, by omega⟩
        rw [hstep]
        exact hstrip fuel (by omega)
      have hstay (hstep : ∀ fuel, t.stripCasts (fuel + 1) e = some e) :
          ∃ e' ≤ e, ∀ fuel, e < fuel → t.stripCasts fuel e = some e' := by
        refine ⟨e, le_refl e, fun fuel hfuel => ?_⟩
        obtain ⟨fuel, rfl⟩ : ∃ n, fuel = n + 1 := ⟨fuel - 1, by omega⟩
        exact hstep fuel
      cases k with
      | cast x =>
          exact hpeel x (by simp [ExpressionKind.children]) fun fuel => by simp [stripCasts, hk]
      | unary op x =>
          cases op with
          | ref =>
              exact hpeel x (by simp [ExpressionKind.children]) fun fuel => by simp [stripCasts, hk]
          | _ => exact hstay fun fuel => by simp [stripCasts, hk]
      | _ => exact hstay fun fuel => by simp [stripCasts, hk]

theorem exists_pointeeSize {e : ℕ} (he : e < t.expressions.length) :
    ∃ size, t.pointeeSize e = some size := by
  have hnode : t.expressions[e]? = some t.expressions[e] := List.getElem?_eq_getElem he
  obtain ⟨tv, htv⟩ := Option.isSome_iff_exists.mp (hclosed.typed _ (List.getElem_mem he))
  unfold pointeeSize
  simp only [hnode, htv, Option.bind_eq_bind, Option.bind_some]
  split
  · next elem hshape =>
      obtain ⟨target, htarget⟩ := Option.isSome_iff_exists.mp (hclosed.pointees _ _ _ htv hshape)
      rw [htarget]
      exact ⟨_, rfl⟩
  · exact ⟨_, rfl⟩

/-- A link leads on to a smaller handle. -/
theorem exists_link {e : ℕ} (he : e < t.expressions.length) :
    ∃ next, t.link e = some next ∧ ∀ x terms, next = .via x terms → x < e := by
  obtain ⟨e', hle, hstrip⟩ := stripCasts_eq hclosed he
  obtain ⟨k, hk⟩ := exists_kind (Nat.lt_of_le_of_lt hle he)
  -- A child has a smaller handle, so the chain comes to an end.
  have hchild {x : ℕ} (hx : x ∈ k.children) : x < e :=
    Nat.lt_of_lt_of_le (child_lt hclosed hk hx) hle
  unfold link
  simp only [hstrip (e + 1) (Nat.lt_succ_self e), hk, Option.bind_eq_bind, Option.bind_some]
  cases k with
  | binary op x y =>
      have hx : x < e := hchild (by simp [ExpressionKind.children])
      have hy : y < e := hchild (by simp [ExpressionKind.children])
      cases op with
      | add =>
          obtain ⟨found, hfound, hbase⟩ := exists_scaled (hx.trans he) (hy.trans he)
          simp only [hfound, Option.bind_some]
          cases found with
          | none => exact ⟨_, rfl, fun _ _ h => nomatch h⟩
          | some pair =>
              obtain ⟨base, k⟩ := pair
              have hlt : base < e := by
                rcases hbase base k rfl with rfl | rfl
                · exact hx
                · exact hy
              obtain ⟨size, hsize⟩ := exists_pointeeSize hclosed (hlt.trans he)
              simp only [hsize, Option.bind_some]
              cases size with
              | none => exact ⟨_, rfl, fun _ _ h => nomatch h⟩
              | some elem => exact ⟨_, rfl, fun x terms h => by cases h; exact hlt⟩
      | _ => exact ⟨_, rfl, fun _ _ h => nomatch h⟩
  | memberRef obj byteOffset =>
      have hobj : obj < e := hchild (by simp [ExpressionKind.children])
      exact ⟨_, rfl, fun x terms h => by cases h; exact hobj⟩
  | memberPtr obj byteOffset =>
      have hobj : obj < e := hchild (by simp [ExpressionKind.children])
      exact ⟨_, rfl, fun x terms h => by cases h; exact hobj⟩
  | deref x size =>
      have hx : x < e := hchild (by simp [ExpressionKind.children])
      exact ⟨_, rfl, fun x terms h => by cases h; exact hx⟩
  | _ => exact ⟨_, rfl, fun _ _ h => nomatch h⟩

/-- Add a term to the offset, the product first. -/
def addTerm (checks : Bool) (off : ℤ) : Term → Option ℤ
  | .member byteOffset => arith checks (off + byteOffset)
  | .scaled k elem =>
      (arith checks (literal k * asI64 elem)).bind fun bytes => arith checks (off + bytes)

/-- The search follows the links. -/
theorem baseVar_succ (checks : Bool) {e fuel : ℕ} (he : e < t.expressions.length)
    (hfuel : e ≤ fuel) :
    t.baseVar checks (fuel + 1) e = (t.link e).bind fun
      | .root v => some (some (v, 0))
      | .via x terms => (t.baseVar checks fuel x).bind fun
          | none => some none
          | some (v, off) => (terms.foldlM (addTerm checks) off).map fun off => some (v, off)
      | .stop => some none := by
  obtain ⟨e', hle, hstrip⟩ := stripCasts_eq hclosed he
  obtain ⟨k, hk⟩ := exists_kind (Nat.lt_of_le_of_lt hle he)
  -- What the two kinds of links add to the offset, as the terms of the chain have it.
  have hmember (obj : ℕ) (byteOffset : ℕ) : ((t.baseVar checks fuel obj).bind fun
        | none => some none
        | some (v, off) => (arith checks (off + byteOffset)).bind fun off => some (some (v, off))) =
      (t.baseVar checks fuel obj).bind fun
        | none => some none
        | some (v, off) => ([Term.member byteOffset].foldlM (addTerm checks) off).map
            fun off => some (v, off) := by
    refine congrArg (Option.bind (t.baseVar checks fuel obj)) (funext fun found => ?_)
    cases found with
    | none => rfl
    | some pair => simp [addTerm, Option.map_eq_bind]
  have hscaled (base : ℕ) (k : UInt64) (elem : ℕ) : ((t.baseVar checks fuel base).bind fun
        | none => some none
        | some (v, off) => (arith checks (literal k * asI64 elem)).bind fun bytes =>
            (arith checks (off + bytes)).bind fun off => some (some (v, off))) =
      (t.baseVar checks fuel base).bind fun
        | none => some none
        | some (v, off) => ([Term.scaled k elem].foldlM (addTerm checks) off).map
            fun off => some (v, off) := by
    refine congrArg (Option.bind (t.baseVar checks fuel base)) (funext fun found => ?_)
    cases found with
    | none => rfl
    | some pair => simp [addTerm, Option.map_eq_bind, Option.bind_assoc]
  rw [baseVar, link]
  simp only [hstrip (e + 1) (Nat.lt_succ_self e), hstrip (fuel + 1) (by omega), hk,
    Option.bind_eq_bind, Option.bind_some]
  cases k with
  | binary op x y =>
      cases op with
      | add =>
          simp only
          cases t.scaled x y with
          | none => rfl
          | some found =>
              cases found with
              | none => rfl
              | some pair =>
                  obtain ⟨base, k⟩ := pair
                  simp only [Option.bind_some]
                  cases t.pointeeSize base with
                  | none => rfl
                  | some size =>
                      cases size with
                      | none => rfl
                      | some elem => exact hscaled base k elem
      | _ => rfl
  | memberRef obj byteOffset => exact hmember obj byteOffset
  | memberPtr obj byteOffset => exact hmember obj byteOffset
  | deref x size =>
      show t.baseVar checks fuel x = (t.baseVar checks fuel x).bind _
      cases t.baseVar checks fuel x with
      | none => rfl
      | some found => cases found <;> rfl
  | _ => rfl

theorem baseVar_of_leads {e : ℕ} {v : LocalId} {terms : List Term} (h : t.Leads e v terms)
    (he : e < t.expressions.length) (checks : Bool) {fuel : ℕ} (hfuel : e < fuel) :
    t.baseVar checks fuel e =
      (terms.foldlM (addTerm checks) 0).map fun off => some (v, off) := by
  induction h generalizing fuel with
  | root hlink =>
      obtain ⟨fuel, rfl⟩ : ∃ n, fuel = n + 1 := ⟨fuel - 1, by omega⟩
      rw [baseVar_succ hclosed checks he (by omega), hlink]
      rfl
  | @via e x v terms terms' hlink hrest ih =>
      obtain ⟨fuel, rfl⟩ : ∃ n, fuel = n + 1 := ⟨fuel - 1, by omega⟩
      obtain ⟨next, hnext, hsmaller⟩ := exists_link hclosed he
      rw [hlink] at hnext
      have hlt : x < e := hsmaller x terms' (Option.some.inj hnext).symm
      rw [baseVar_succ hclosed checks he (by omega), hlink]
      show (t.baseVar checks fuel x).bind _ = _
      rw [ih (hlt.trans he) (Nat.lt_of_lt_of_le hlt (by omega)), List.foldlM_append]
      cases terms.foldlM (addTerm checks) 0 with
      | none => rfl
      | some off => rfl

/-- Where no chain leads to a variable, the search finds none. -/
theorem baseVar_of_not_leads {e : ℕ} (h : ∀ v terms, ¬t.Leads e v terms)
    (he : e < t.expressions.length) (checks : Bool) {fuel : ℕ} (hfuel : e < fuel) :
    t.baseVar checks fuel e = some none := by
  induction e using Nat.strongRecOn generalizing fuel with
  | ind e ih =>
      obtain ⟨fuel, rfl⟩ : ∃ n, fuel = n + 1 := ⟨fuel - 1, by omega⟩
      obtain ⟨next, hnext, hsmaller⟩ := exists_link hclosed he
      rw [baseVar_succ hclosed checks he (by omega), hnext]
      cases next with
      | root v => exact absurd (.root hnext) (h v [])
      | stop => rfl
      | via x terms =>
          have hlt : x < e := hsmaller x terms rfl
          have hrest : ∀ v terms', ¬t.Leads x v terms' := by
            intro v terms' hleads
            exact h v (terms' ++ terms) (.via hnext hleads)
          show (t.baseVar checks fuel x).bind _ = _
          rw [ih x hlt hrest (hlt.trans he) (Nat.lt_of_lt_of_le hlt (by omega))]
          rfl

end

theorem Leads.unique {t : Ctree} {e : ℕ} {v v' : LocalId} {terms terms' : List Term}
    (h : t.Leads e v terms) (h' : t.Leads e v' terms') : v = v' ∧ terms = terms' := by
  induction h generalizing v' terms' with
  | root hlink =>
      cases h' with
      | root hlink' =>
          rw [hlink] at hlink'
          cases hlink'
          exact ⟨rfl, rfl⟩
      | via hlink' hrest =>
          rw [hlink] at hlink'
          cases hlink'
  | via hlink hrest ih =>
      cases h' with
      | root hlink' =>
          rw [hlink] at hlink'
          cases hlink'
      | via hlink' hrest' =>
          rw [hlink] at hlink'
          cases hlink'
          obtain ⟨rfl, rfl⟩ := ih hrest'
          exact ⟨rfl, rfl⟩

/-! ### The offset along a chain -/

theorem addTerm_true_eq_some_iff (sum : ℤ) (term : Term) (sum' : ℤ) :
    addTerm true sum term = some sum' ↔
      term.Fits ∧ FitsI64 (sum + term.delta) ∧ sum' = sum + term.delta := by
  cases term with
  | member byteOffset => simp [addTerm, arith_true_eq_some_iff, Term.Fits, Term.delta]
  | scaled k elem =>
      simp only [addTerm, Option.bind_eq_some_iff, arith_true_eq_some_iff, Term.Fits, Term.delta]
      constructor
      · rintro ⟨bytes, ⟨hfits, hbytes⟩, hsum, heq⟩
        rw [hbytes] at hsum heq
        exact ⟨hfits, hsum, heq⟩
      · rintro ⟨hfits, hsum, heq⟩
        exact ⟨_, ⟨hfits, rfl⟩, hsum, heq⟩

theorem addTerm_of_true {checks : Bool} {sum sum' : ℤ} {term : Term}
    (h : addTerm true sum term = some sum') : addTerm checks sum term = some sum' := by
  cases term with
  | member byteOffset =>
      rw [addTerm] at h ⊢
      exact arith_of_true h
  | scaled k elem =>
      rw [addTerm] at h ⊢
      obtain ⟨bytes, hbytes, hsum⟩ := Option.bind_eq_some_iff.mp h
      exact Option.bind_eq_some_iff.mpr ⟨bytes, arith_of_true hbytes, arith_of_true hsum⟩

theorem foldlM_addTerm_of_true {checks : Bool} {terms : List Term} {sum sum' : ℤ}
    (h : terms.foldlM (addTerm true) sum = some sum') :
    terms.foldlM (addTerm checks) sum = some sum' := by
  induction terms generalizing sum with
  | nil => exact h
  | cons term terms ih =>
      rw [List.foldlM_cons] at h ⊢
      obtain ⟨middle, hterm, hrest⟩ := Option.bind_eq_some_iff.mp h
      exact Option.bind_eq_some_iff.mpr ⟨middle, addTerm_of_true hterm, ih hrest⟩

theorem foldlM_addTerm_eq_some_iff {terms : List Term} {off : ℤ} :
    terms.foldlM (addTerm true) 0 = some off ↔
      Bounded terms ∧ off = (terms.map Term.delta).sum := by
  rw [foldlM_add_eq_some_iff addTerm_true_eq_some_iff]
  simp only [Int.zero_add, Bounded]

/-- The size read as an `i64` changes an offset by multiples of `2 ^ 64`
alone. -/
theorem sum_delta_modEq (terms : List Term) :
    (terms.map Term.delta).sum ≡ offset terms [ZMOD 2 ^ 64] := by
  induction terms with
  | nil => exact Int.ModEq.refl 0
  | cons term terms ih =>
      have hterm : term.delta ≡ term.bytes [ZMOD 2 ^ 64] := by
        cases term with
        | member byteOffset => rfl
        | scaled k elem => exact (asI64_modEq elem).mul_left _
      simpa [offset] using hterm.add ih

/-- The sum of a bounded chain is in range itself. -/
theorem Bounded.fits {terms : List Term} (h : Bounded terms) :
    FitsI64 (terms.map Term.delta).sum := by
  rcases List.eq_nil_or_concat terms with rfl | ⟨before, term, rfl⟩
  · decide
  · have hlast := (h before term [] (by simp)).2
    simpa using hlast

/-- The search is exact if and only if no product or sum on the way overflows,
and the exact offset is in range. -/
theorem exact_iff {t : Ctree} (hclosed : t.Closed) {e : ExpressionId}
    (he : e < t.expressions.length) :
    t.Exact e ↔ ∀ v terms, t.Leads e v terms → Bounded terms ∧ FitsI64 (offset terms) := by
  constructor
  · rintro ⟨found, hfound, hexact⟩ v terms hleads
    have hrun := hfound true (e + 1) (Nat.lt_succ_self e)
    rw [baseVar_of_leads hclosed hleads he true (Nat.lt_succ_self e)] at hrun
    obtain ⟨off, hoff, rfl⟩ := Option.map_eq_some_iff.mp hrun
    obtain ⟨hbounded, rfl⟩ := foldlM_addTerm_eq_some_iff.mp hoff
    obtain ⟨terms', hleads', hoffset⟩ := hexact v _ rfl
    obtain ⟨-, rfl⟩ := hleads.unique hleads'
    exact ⟨hbounded, hoffset ▸ hbounded.fits⟩
  · intro h
    by_cases hnone : ∀ v terms, ¬t.Leads e v terms
    · refine ⟨none, fun checks fuel hfuel => baseVar_of_not_leads hclosed hnone he checks hfuel, ?_⟩
      intro v off heq
      cases heq
    · simp only [not_forall, not_not] at hnone
      obtain ⟨v, terms, hleads⟩ := hnone
      obtain ⟨hbounded, hfits⟩ := h v terms hleads
      have hsum := foldlM_addTerm_eq_some_iff.mpr ⟨hbounded, rfl⟩
      refine ⟨some (v, (terms.map Term.delta).sum), fun checks fuel hfuel => ?_, ?_⟩
      · rw [baseVar_of_leads hclosed hleads he checks hfuel, foldlM_addTerm_of_true hsum]
        rfl
      · intro v' off heq
        cases heq
        exact ⟨terms, hleads, eq_of_modEq (sum_delta_modEq terms) hbounded.fits hfits⟩

def pointerPlus (k : UInt64) : Ctree where
  expressions := [⟨none, 1, some (.expression 2), .var 0⟩, ⟨none, 0, some (.expression 2), .num k⟩,
    ⟨none, 1, some (.statement 0), .binary .add 0 1⟩]
  statements := [⟨none, some (.statement 1), .expression 2⟩, ⟨none, none, .block [0]⟩]
  types := ⟨[⟨.int 4 true, some 4⟩, ⟨.ptr 0, some 8⟩], []⟩
  locals := [⟨['p'], 1, true, false, false, 8, none, .register 0⟩]
  root := 1

theorem closed_pointerPlus (k : UInt64) : (pointerPlus k).Closed where
  childrenFirst := by
    have hkids : ∀ node c, c ∈ (pointerPlus k).kids node → (node, c) ∈
        ([(.expression 2, .expression 0), (.expression 2, .expression 1),
          (.statement 0, .expression 2), (.statement 1, .statement 0)] :
            List (NodeRef × NodeRef)) := by
      rintro (e | e) c hc
      · obtain _ | _ | _ | e := e <;>
          simp_all [Arenas.kids, Arenas.children, pointerPlus, ExpressionKind.children]
      · obtain _ | _ | e := e <;>
          simp_all [Arenas.kids, Arenas.children, pointerPlus, StatementKind.children]
    refine ⟨fun {node c} hc => ?_, fun node c hc => ?_⟩
    · have hpair := hkids node c hc
      simp only [List.mem_cons, Prod.mk.injEq, List.not_mem_nil, or_false] at hpair
      rcases hpair with ⟨-, rfl⟩ | ⟨-, rfl⟩ | ⟨-, rfl⟩ | ⟨-, rfl⟩ <;> simp [pointerPlus]
    · have hpair := hkids node c hc
      simp only [List.mem_cons, Prod.mk.injEq, List.not_mem_nil, or_false] at hpair
      rcases hpair with ⟨rfl, rfl⟩ | ⟨rfl, rfl⟩ | ⟨rfl, rfl⟩ | ⟨rfl, rfl⟩ <;>
        simp [pointerPlus, Arenas.rank]
  typed := by simp [pointerPlus, TypeTable.get]
  pointees := by
    intro id tv elem hget hshape
    obtain _ | _ | id := id
    · cases hget
      cases hshape
    · cases hget
      cases hshape
      rfl
    · cases hget

theorem exact_iff_pointerPlus :
    (pointerPlus 2).Exact 2 ↔
      ∀ v terms, (pointerPlus 2).Leads 2 v terms → Bounded terms ∧ FitsI64 (offset terms) :=
  exact_iff (closed_pointerPlus 2) (by decide)

/-- Four times this literal is out of range. -/
theorem not_exact_pointerPlus :
    (pointerPlus 0x2000000000000000).Closed ∧ ¬(pointerPlus 0x2000000000000000).Exact 2 := by
  refine ⟨closed_pointerPlus _, ?_⟩
  rintro ⟨found, hfound, -⟩
  have hsearch : (pointerPlus 0x2000000000000000).baseVar true 3 2 = none := by decide
  exact nomatch hsearch.symm.trans (hfound true 3 (by decide))

end Ctree

end Idakit.Decompiler
