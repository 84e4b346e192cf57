import Mathlib.Data.List.Forall2
import Mathlib.Data.List.TakeWhile
import Idakit.Facade.Recipe

/-!
The interpreter against the encoder. Interpreting the bytes of a recipe
pushes one type on whatever the stack holds, and goes on with the bytes that
follow; the parameters of a function come out of the stack in the order they
were written. What is pushed has the structure of the recipe.
-/

namespace Idakit.Types

open Idakit.Library

/-! ### What is asked of a recipe -/

/-- The kernel has a scalar of this width, and an array of this length. -/
def TypeExpr.SupportedHere : TypeExpr → Prop
  | .int bytes _ => bytes.toNat ∈ [1, 2, 4, 8, 16]
  | .float bytes => bytes.toNat ∈ [4, 8]
  | .array _ len => len.toNat ≤ u32Max
  | _ => True

def TypeExpr.Supported : TypeExpr → Prop := Everywhere SupportedHere

/-- A name with a zero byte would be cut short. -/
def Text.NulFree (s : Text) : Prop := ∀ b ∈ s.asBytes, b ≠ 0

def TypeExpr.NulFreeHere : TypeExpr → Prop
  | .named s | .decl s => s.NulFree
  | .function _ params _ _ => ∀ p ∈ params, Text.NulFree (p.name.getD [])
  | _ => True

def TypeExpr.FitsHere : TypeExpr → Prop
  | .named s | .decl s => s.asBytes.length ≤ u32Max
  | .function _ params _ _ =>
      params.length ≤ u32Max ∧ ∀ p ∈ params, (Text.asBytes (p.name.getD [])).length ≤ u32Max
  | _ => True

def TypeExpr.Fits : TypeExpr → Prop := Everywhere FitsHere

theorem nulFree_of_nulChecked {s t : Text} {arg : String} (h : nulChecked s arg = .ok t) :
    s.NulFree := by
  intro b hb hzero
  have hany : s.asBytes.any (· == 0) = true := List.any_eq_true.mpr ⟨b, hb, by simp [hzero]⟩
  rw [nulChecked, if_pos hany] at h
  cases h

theorem of_checkParams {params : List (Param TypeExpr)} (h : checkParams params = .ok ()) :
    ∀ p ∈ params, Text.NulFree (p.name.getD []) ∧ p.ty.check = .ok () := by
  induction params with
  | nil => simp
  | cons p params ih =>
      obtain ⟨name, ty⟩ := p
      have hrest : ty.check = .ok () → checkParams params = .ok () →
          Text.NulFree (name.getD []) → ∀ p ∈ (⟨name, ty⟩ : Param TypeExpr) :: params,
            Text.NulFree (p.name.getD []) ∧ p.ty.check = .ok () := by
        intro hty hparams hname p hp
        rcases List.mem_cons.mp hp with rfl | hp
        · exact ⟨hname, hty⟩
        · exact ih hparams p hp
      have hbind : (do ty.check; checkParams params) = Except.ok () →
          ty.check = .ok () ∧ checkParams params = .ok () := by
        intro h
        cases hty : ty.check with
        | error err => rw [hty] at h; cases h
        | ok u => rw [hty] at h; exact ⟨rfl, h⟩
      cases name with
      | none =>
          obtain ⟨hty, hparams⟩ := hbind (by simpa only [checkParams] using h)
          exact hrest hty hparams (by simp [Text.NulFree, Text.asBytes])
      | some name =>
          cases hname : nulChecked name "parameter name" with
          | error err =>
              rw [checkParams, hname] at h
              cases h
          | ok t =>
              rw [checkParams, hname] at h
              obtain ⟨hty, hparams⟩ := hbind h
              exact hrest hty hparams (nulFree_of_nulChecked hname)

/-- A recipe that passes the check has no zero byte in any of its names. -/
theorem nulFree_of_check {e : TypeExpr} (h : e.check = .ok ()) :
    e.Everywhere TypeExpr.NulFreeHere := by
  induction e using TypeExpr.childrenInduct with
  | step e ih =>
      have hname {s : Text} {arg : String}
          (h : (nulChecked s arg).map (fun _ => ()) = .ok ()) : s.NulFree := by
        cases hs : nulChecked s arg with
        | error err => rw [hs] at h; cases h
        | ok t => exact nulFree_of_nulChecked hs
      cases e with
      | void | bool | int | float | bitfield => exact .mk trivial (by simp [TypeExpr.children])
      | named name | decl text =>
          rw [TypeExpr.check] at h
          exact .mk (hname h) (by simp [TypeExpr.children])
      | pointer inner | const inner | volatile inner | array inner len =>
          rw [TypeExpr.check] at h
          refine .mk trivial fun c hc => ih c hc ?_
          rw [TypeExpr.children, List.mem_singleton] at hc
          exact hc ▸ h
      | function ret params varargs cc =>
          rw [TypeExpr.check] at h
          cases hret : ret.check with
          | error err => rw [hret] at h; cases h
          | ok u =>
              rw [hret] at h
              have hparams := of_checkParams h
              refine .mk (fun p hp => (hparams p hp).1) fun c hc => ih c hc ?_
              rcases List.mem_cons.mp hc with rfl | hc
              · exact hret
              · obtain ⟨p, hp, rfl⟩ := List.mem_map.mp hc
                exact (hparams p hp).2

theorem encodeParams_eq (params : List (Param TypeExpr)) :
    encodeParams params = params.flatMap fun p => p.ty.encode := by
  induction params with
  | nil => rfl
  | cons p params ih => rw [encodeParams, ih, List.flatMap_cons]

theorem clampU32_of_le {n : ℕ} (h : n ≤ u32Max) : clampU32 n = n := if_pos h

theorem clampU32_lt (n : ℕ) : clampU32 n < 256 ^ 4 := by
  unfold clampU32 u32Max
  split <;> omega

end Idakit.Types

namespace Idakit.Facade

open Idakit.Library Idakit.Types

/-! ### Reading what was written -/

theorem takeBytes_append (bytes p : List UInt8) :
    takeBytes bytes.length (bytes ++ p) = some (bytes, p) := by
  simp [takeBytes]

theorem uintLe_toLeBytes (width : ℕ) {n : ℕ} (h : n < 256 ^ width) (p : List UInt8) :
    uintLe width (toLeBytes width n ++ p) = some (n, p) := by
  have htake := takeBytes_append (toLeBytes width n) p
  rw [toLeBytes_length] at htake
  rw [uintLe, bind_of_eq_some htake, ofLeBytes_toLeBytes h]
  rfl

/-- A string reads back as far as its length fits. -/
theorem str_encodeLenPrefixed (s : Text) (p : List UInt8) :
    str (encodeLenPrefixed s ++ p) =
      some (s.asBytes.take (clampU32 s.asBytes.length), p) := by
  have hlen : (s.asBytes.take (clampU32 s.asBytes.length)).length =
      clampU32 s.asBytes.length := by
    rw [List.length_take]
    unfold clampU32
    split <;> omega
  rw [encodeLenPrefixed, List.append_assoc, str,
    bind_of_eq_some (uintLe_toLeBytes 4 (clampU32_lt _) _)]
  have htake := takeBytes_append (s.asBytes.take (clampU32 s.asBytes.length)) p
  rwa [hlen] at htake

/-- The names of a function read back in order. -/
theorem mapM_str_encodeNames (params : List (Param TypeExpr)) (p : List UInt8) (l : List ℕ)
    (hl : l.length = params.length) :
    l.mapM (fun _ => str) (encodeNames params ++ p) =
      some (params.map fun q =>
        (Text.asBytes (q.name.getD [])).take (clampU32 (Text.asBytes (q.name.getD [])).length),
        p) := by
  induction params generalizing l with
  | nil =>
      obtain rfl := List.length_eq_zero_iff.mp hl
      rfl
  | cons q params ih =>
      cases l with
      | nil => cases hl
      | cons i l =>
          have hnames : encodeNames (q :: params) ++ p =
              encodeLenPrefixed (q.name.getD []) ++ (encodeNames params ++ p) := by
            rw [encodeNames, List.flatMap_cons, List.append_assoc]
            rfl
          rw [List.mapM_cons, hnames, bind_of_eq_some (str_encodeLenPrefixed _ _),
            bind_of_eq_some (ih l (Nat.succ.inj hl))]
          rfl

theorem encodeNames_length (params : List (Param TypeExpr)) :
    4 * params.length ≤ (encodeNames params).length := by
  induction params with
  | nil => simp
  | cons q params ih =>
      rw [encodeNames, List.flatMap_cons, List.length_append, List.length_cons, encodeLenPrefixed,
        List.length_append, toLeBytes_length]
      rw [encodeNames] at ih
      omega

/-! ### The type a recipe describes -/

def Callcnv.isVararg : Callcnv → Bool
  | .ellipsis => true
  | _ => false

def Callcnv.explicit : Callcnv → Option ℕ
  | .code n => some n
  | _ => none

/-- A type descriptor has the structure of a recipe: the same nesting, the
parameters in order with their names, and what is asked of the calling
convention slot. A parameter without a name has the empty name. -/
inductive Builds (slot : Bool → Option CallingConvention → Callcnv → Prop) :
    TypeExpr → Tinfo → Prop
  | void : Builds slot .void .void
  | bool : Builds slot .bool .bool
  | int {bytes signed} : Builds slot (.int bytes signed) (.int bytes.toNat signed)
  | float {bytes} : Builds slot (.float bytes) (.float bytes.toNat)
  | bitfield {nbytes width signed} : Builds slot (.bitfield nbytes width signed)
      (.bitfield nbytes.toNat width.toNat !signed)
  | decl {text} : Builds slot (.decl text) (.decl text.asBytes)
  | named {name} : Builds slot (.named name) (.named name.asBytes)
  | pointer {inner t} (h : Builds slot inner t) : Builds slot (.pointer inner) (.ptr t)
  | array {elem len t} (h : Builds slot elem t) :
      Builds slot (.array elem len) (.array t len.toNat)
  | const {inner t} (h : Builds slot inner t) : Builds slot (.const inner) (.const t)
  | volatile {inner t} (h : Builds slot inner t) : Builds slot (.volatile inner) (.volatile t)
  | function {ret params varargs cc rettype args conv} (hret : Builds slot ret rettype)
      (hnames : args.map Funcarg.name = params.map fun p => Text.asBytes (p.name.getD []))
      (hargs : List.Forall₂ (Builds slot) (params.map Param.ty) (args.map Funcarg.type))
      (hslot : slot varargs cc conv) :
      Builds slot (.function ret params varargs cc) (.func rettype args conv)

def KeepsBoth (varargs : Bool) (cc : Option CallingConvention) (conv : Callcnv) : Prop :=
  conv.isVararg = varargs ∧ conv.explicit = cc.map CallingConvention.code

def KeepsVarargs (varargs : Bool) (cc : Option CallingConvention) (conv : Callcnv) : Prop :=
  conv.isVararg = varargs ∧
    (varargs = false → conv.explicit = cc.map CallingConvention.code)

/-- Interpreting the bytes of an expression pushes one type that has its
structure, whatever else there is to read. -/
def Pushes (e : TypeExpr) : Prop :=
  ∃ t, Builds KeepsVarargs e t ∧
    ∀ stack p, interpret stack (e.encode ++ p) = interpret (t :: stack) p

theorem cStr_of_nulFree {s : Text} (h : s.NulFree) : cStr s.asBytes = s.asBytes := by
  apply List.takeWhile_eq_self_iff.mpr
  exact fun b hb => bne_iff_ne.mpr (h b hb)

/-- The whole of a string that is short enough. -/
theorem take_clampU32 {s : Text} (h : s.asBytes.length ≤ u32Max) :
    s.asBytes.take (clampU32 s.asBytes.length) = s.asBytes := by
  rw [clampU32_of_le h, List.take_length]

/-- An opcode that makes a type of the string behind it. -/
theorem pushes_str {e : TypeExpr} {op : UInt8} {s : Text} {make : List UInt8 → Tinfo}
    (hnul : s.NulFree) (hlen : s.asBytes.length ≤ u32Max) (hencode : e.encode = encodeStr op s)
    (hop : ∀ stack, recipeStep op stack = str >>= fun s => pure (make (cStr s) :: stack))
    (hbuilds : Builds KeepsVarargs e (make s.asBytes)) : Pushes e := by
  refine ⟨make s.asBytes, hbuilds, fun stack p => ?_⟩
  have hstr := str_encodeLenPrefixed s p
  rw [take_clampU32 hlen] at hstr
  rw [hencode, encodeStr, List.cons_append]
  apply interpret_of_step
  rw [hop, bind_of_eq_some hstr, cStr_of_nulFree hnul]
  rfl

theorem pushes_int {bytes : UInt8} {signed : Bool} (h : bytes.toNat ∈ [1, 2, 4, 8, 16]) :
    Pushes (.int bytes signed) := by
  refine ⟨_, .int, fun stack p => ?_⟩
  apply interpret_of_step recipeInt
  show (StateT.lift (buildInt bytes.toNat (signed.toUInt8 != 0)) >>= fun t => pure (t :: stack)) p = _
  rw [buildInt, if_pos h]
  cases signed <;> rfl

theorem pushes_float {bytes : UInt8} (h : bytes.toNat ∈ [4, 8]) : Pushes (.float bytes) := by
  refine ⟨_, .float, fun stack p => ?_⟩
  apply interpret_of_step recipeFloat
  show (StateT.lift (buildFloat bytes.toNat) >>= fun t => pure (t :: stack)) p = _
  rw [buildFloat, if_pos h]
  rfl

theorem pushes_bitfield (nbytes width : UInt8) (signed : Bool) :
    Pushes (.bitfield nbytes width signed) := by
  refine ⟨_, .bitfield, fun stack p => ?_⟩
  apply interpret_of_step recipeBitfield
  cases signed <;> rfl

/-- An opcode that wraps the top of the stack. -/
theorem Pushes.wrap {e inner : TypeExpr} {op : UInt8} {wrap : Tinfo → Tinfo} (h : Pushes inner)
    (hencode : e.encode = inner.encode ++ [op])
    (hop : ∀ stack, recipeStep op stack = StateT.lift (wrapTop wrap stack))
    (hbuilds : ∀ t, Builds KeepsVarargs inner t → Builds KeepsVarargs e (wrap t)) :
    Pushes e := by
  obtain ⟨t, ht, hpush⟩ := h
  refine ⟨wrap t, hbuilds t ht, fun stack p => ?_⟩
  rw [hencode, List.append_assoc, hpush]
  apply interpret_of_step
  rw [hop]
  rfl

theorem Pushes.array {elem : TypeExpr} {len : UInt64} (h : Pushes elem)
    (hlen : len.toNat ≤ u32Max) : Pushes (.array elem len) := by
  obtain ⟨t, ht, hpush⟩ := h
  refine ⟨.array t len.toNat, .array ht, fun stack p => ?_⟩
  have hencode : (TypeExpr.array elem len).encode ++ p =
      elem.encode ++ recipeArray :: (toLeBytes 8 len.toNat ++ p) := by
    simp [TypeExpr.encode]
  rw [hencode, hpush]
  apply interpret_of_step
  have hread := uintLe_toLeBytes 8 len.toNat_lt p
  show (uintLe 8 >>= fun nelems => if u32Max < nelems then StateT.lift none
    else StateT.lift (wrapTop (.array · nelems) (t :: stack))) _ = _
  rw [bind_of_eq_some hread, if_neg (by omega)]
  rfl

/-- Expressions one after the other leave their types on the stack, the last
one on top. -/
theorem interpret_flatMap (es : List TypeExpr) (h : ∀ e ∈ es, Pushes e) :
    ∃ ts, List.Forall₂ (Builds KeepsVarargs) es ts ∧ ∀ stack p,
      interpret stack (es.flatMap TypeExpr.encode ++ p) = interpret (ts.reverse ++ stack) p := by
  induction es with
  | nil => exact ⟨[], .nil, fun stack p => rfl⟩
  | cons e es ih =>
      obtain ⟨t, ht, hpush⟩ := h e List.mem_cons_self
      obtain ⟨ts, hts, hrest⟩ := ih fun e he => h e (List.mem_cons_of_mem _ he)
      refine ⟨t :: ts, .cons ht hts, fun stack p => ?_⟩
      rw [List.flatMap_cons, List.append_assoc, hpush, hrest, List.reverse_cons,
        List.append_assoc]
      rfl

/-- The opcode of a function, its operands behind it. -/
theorem recipeStep_function (params : List (Param TypeExpr)) (hlen : params.length ≤ u32Max)
    (varargs : UInt8) (cc : ℕ) (hcc : cc < 256 ^ 2) (stack : List Tinfo) (p : List UInt8) :
    recipeStep recipeFunction stack
        (toLeBytes 4 params.length ++ varargs :: toLeBytes 2 cc ++ encodeNames params ++ p) =
      (buildFunc (params.map fun q => (Text.asBytes (q.name.getD [])).take
        (clampU32 (Text.asBytes (q.name.getD [])).length)) varargs cc stack).map (·, p) := by
  have hcount : params.length < 256 ^ 4 := by
    unfold u32Max at hlen
    omega
  have hleft : ¬(encodeNames params ++ p).length / 4 < params.length := by
    have hnames := encodeNames_length params
    rw [List.length_append]
    omega
  have hbytes : toLeBytes 4 params.length ++ varargs :: toLeBytes 2 cc ++ encodeNames params ++ p =
      toLeBytes 4 params.length ++ (varargs :: (toLeBytes 2 cc ++ (encodeNames params ++ p))) := by
    simp
  have hread := uintLe_toLeBytes 4 hcount
    (varargs :: (toLeBytes 2 cc ++ (encodeNames params ++ p)))
  have hreadCc := uintLe_toLeBytes 2 hcc (encodeNames params ++ p)
  have hvarargs : u8 (varargs :: (toLeBytes 2 cc ++ (encodeNames params ++ p))) =
      some (varargs, toLeBytes 2 cc ++ (encodeNames params ++ p)) := rfl
  have hremaining : remaining (encodeNames params ++ p) =
      some ((encodeNames params ++ p).length, encodeNames params ++ p) := rfl
  have hnames := mapM_str_encodeNames params p (List.range params.length) List.length_range
  rw [hbytes]
  show (uintLe 4 >>= fun nparams => u8 >>= fun varargs => uintLe 2 >>= fun cc =>
    remaining >>= fun left => if left / 4 < nparams then StateT.lift none
      else (List.range nparams).mapM (fun _ => str) >>= fun names =>
        StateT.lift (buildFunc names varargs cc stack)) _ = _
  rw [bind_of_eq_some hread, bind_of_eq_some hvarargs, bind_of_eq_some hreadCc,
    bind_of_eq_some hremaining, if_neg hleft, bind_of_eq_some hnames]
  cases buildFunc _ varargs cc stack <;> rfl

/-- The return type and the parameters on the stack become one function. -/
theorem buildFunc_of_pushed {ts : List Tinfo} {names : List (List UInt8)} (rettype : Tinfo)
    (hlen : names.length = ts.length) (varargs : UInt8) (cc : ℕ) (stack : List Tinfo) :
    buildFunc names varargs cc (ts.reverse ++ rettype :: stack) =
      some (.func rettype (List.zipWith Funcarg.mk (names.map cStr) ts)
        (if varargs ≠ 0 then .ellipsis else if cc ≠ 0 then .code cc else .unset) :: stack) := by
  have hreverse : ts.reverse.length = names.length := by simp [hlen]
  have hdrop : (ts.reverse ++ rettype :: stack).drop names.length = rettype :: stack := by
    rw [← hreverse, List.drop_left]
  have htake : (ts.reverse ++ rettype :: stack).take names.length = ts.reverse := by
    rw [← hreverse, List.take_left]
  simp only [buildFunc, hdrop, htake, List.reverse_reverse]

theorem funcargs_of_zipWith {names : List (List UInt8)} {ts : List Tinfo}
    (hlen : names.length = ts.length) :
    (List.zipWith Funcarg.mk names ts).map Funcarg.name = names ∧
      (List.zipWith Funcarg.mk names ts).map Funcarg.type = ts := by
  induction names generalizing ts with
  | nil => simpa [eq_comm] using hlen
  | cons name names ih =>
      cases ts with
      | nil => cases hlen
      | cons t ts =>
          have htail := ih (Nat.succ.inj hlen)
          simp [htail.1, htail.2]

theorem keepsVarargs_slot (varargs : Bool) (cc : Option CallingConvention) :
    KeepsVarargs varargs cc
      (if varargs.toUInt8 ≠ 0 then .ellipsis
        else if (cc.map CallingConvention.code).getD 0 ≠ 0
          then .code ((cc.map CallingConvention.code).getD 0) else .unset) := by
  cases varargs with
  | true => exact ⟨rfl, fun h => nomatch h⟩
  | false =>
      cases cc with
      | none => exact ⟨rfl, fun _ => rfl⟩
      | some c => cases c <;> exact ⟨rfl, fun _ => rfl⟩

theorem Pushes.function {ret : TypeExpr} {params : List (Param TypeExpr)} (varargs : Bool)
    (cc : Option CallingConvention) (hret : Pushes ret) (hparams : ∀ p ∈ params, Pushes p.ty)
    (hcount : params.length ≤ u32Max)
    (hlens : ∀ p ∈ params, (Text.asBytes (p.name.getD [])).length ≤ u32Max)
    (hnul : ∀ p ∈ params, Text.NulFree (p.name.getD [])) :
    Pushes (.function ret params varargs cc) := by
  obtain ⟨rettype, hrettype, hpush⟩ := hret
  obtain ⟨ts, hts, hpushes⟩ := interpret_flatMap (params.map Param.ty) fun e he => by
    obtain ⟨p, hp, rfl⟩ := List.mem_map.mp he
    exact hparams p hp
  have hlen : params.length = ts.length := by simpa using hts.length_eq
  -- The names as they are read are the names that were written.
  have hread : (params.map fun q => (Text.asBytes (q.name.getD [])).take
      (clampU32 (Text.asBytes (q.name.getD [])).length)) =
        params.map fun q => Text.asBytes (q.name.getD []) :=
    List.map_congr_left fun q hq => take_clampU32 (hlens q hq)
  have hnames : (params.map fun q => Text.asBytes (q.name.getD [])).map cStr =
      params.map fun q => Text.asBytes (q.name.getD []) := by
    rw [List.map_map]
    exact List.map_congr_left fun q hq => cStr_of_nulFree (hnul q hq)
  have hcc : (cc.map CallingConvention.code).getD 0 < 256 ^ 2 := by
    cases cc with
    | none => decide
    | some c => cases c <;> decide
  refine ⟨.func rettype
    (List.zipWith Funcarg.mk (params.map fun q => Text.asBytes (q.name.getD [])) ts) _,
    .function hrettype ?_ ?_ (keepsVarargs_slot varargs cc), fun stack p => ?_⟩
  · exact (funcargs_of_zipWith (by simp [hlen])).1
  · rwa [(funcargs_of_zipWith (by simp [hlen])).2]
  · have hencode : (TypeExpr.function ret params varargs cc).encode ++ p =
        ret.encode ++ ((params.map Param.ty).flatMap TypeExpr.encode ++
          recipeFunction :: (toLeBytes 4 params.length ++ varargs.toUInt8 ::
            toLeBytes 2 ((cc.map CallingConvention.code).getD 0) ++ encodeNames params ++ p)) := by
      simp [TypeExpr.encode, encodeParams_eq, clampU32_of_le hcount, List.flatMap_map]
    rw [hencode, hpush, hpushes]
    apply interpret_of_step
    rw [recipeStep_function params hcount _ _ hcc, hread,
      buildFunc_of_pushed rettype (by simp [hlen]), hnames]
    rfl

/-- Every expression that fits pushes its type. -/
theorem pushes (e : TypeExpr) (hsupported : e.Supported)
    (hnul : e.Everywhere TypeExpr.NulFreeHere) (hfits : e.Fits) : Pushes e := by
  induction e using TypeExpr.childrenInduct with
  | step e ih =>
      have hkid : ∀ c ∈ e.children, Pushes c := fun c hc =>
        ih c hc (hsupported.inside c hc) (hnul.inside c hc) (hfits.inside c hc)
      cases e with
      | void => exact ⟨.void, .void, fun stack p => interpret_of_step recipeVoid rfl⟩
      | bool => exact ⟨.bool, .bool, fun stack p => interpret_of_step recipeBool rfl⟩
      | int bytes signed => exact pushes_int hsupported.here
      | float bytes => exact pushes_float hsupported.here
      | bitfield nbytes width signed => exact pushes_bitfield nbytes width signed
      | decl text => exact pushes_str hnul.here hfits.here rfl (fun stack => rfl) .decl
      | named name => exact pushes_str hnul.here hfits.here rfl (fun stack => rfl) .named
      | pointer inner =>
          exact (hkid inner (by simp [TypeExpr.children])).wrap rfl (fun stack => rfl)
            fun t => .pointer
      | array elem len =>
          exact (hkid elem (by simp [TypeExpr.children])).array hsupported.here
      | const inner =>
          exact (hkid inner (by simp [TypeExpr.children])).wrap rfl (fun stack => rfl)
            fun t => .const
      | volatile inner =>
          exact (hkid inner (by simp [TypeExpr.children])).wrap rfl (fun stack => rfl)
            fun t => .volatile
      | function ret params varargs cc =>
          refine .function varargs cc (hkid ret (by simp [TypeExpr.children])) (fun p hp => ?_)
            hfits.here.1 hfits.here.2 hnul.here
          exact hkid p.ty (List.mem_cons_of_mem _ (List.mem_map_of_mem hp))

/-- The bytes of a checked recipe build one type with the recipe's structure.
A function with varargs has the ellipsis convention, whatever convention the
recipe names. -/
theorem buildRecipe_serialize (e : TypeExpr) (hcheck : e.check = .ok ())
    (hsupported : e.Supported) (hfits : e.Fits) :
    ∃ t, buildRecipe e.serialize = some t ∧ Builds KeepsVarargs e t := by
  obtain ⟨t, ht, hpush⟩ := pushes e hsupported (nulFree_of_check hcheck) hfits
  have hrun := hpush [] []
  rw [List.append_nil, interpret] at hrun
  refine ⟨t, ?_, ht⟩
  rw [buildRecipe, TypeExpr.serialize, hrun]

/-- A prototype with a named parameter: `T *(int x, ...)`. -/
def variadicPointer : TypeExpr :=
  .function (.pointer (.named ['T'])) [⟨some ['x'], .int 4 true⟩] true none

theorem buildRecipe_serialize_variadicPointer :
    ∃ t, buildRecipe variadicPointer.serialize = some t ∧
      Builds KeepsVarargs variadicPointer t := by
  refine buildRecipe_serialize variadicPointer rfl ?_ ?_
  · refine .mk trivial fun c hc => ?_
    simp only [variadicPointer, TypeExpr.children, List.map_cons, List.map_nil, List.mem_cons,
      List.not_mem_nil, or_false] at hc
    rcases hc with rfl | rfl
    · refine .mk trivial fun c hc => ?_
      obtain rfl := List.mem_singleton.mp hc
      exact .mk trivial (by simp [TypeExpr.children])
    · exact .mk (by simp [TypeExpr.SupportedHere]) (by simp [TypeExpr.children])
  · refine .mk ⟨by decide, by decide⟩ fun c hc => ?_
    simp only [variadicPointer, TypeExpr.children, List.map_cons, List.map_nil, List.mem_cons,
      List.not_mem_nil, or_false] at hc
    rcases hc with rfl | rfl
    · refine .mk trivial fun c hc => ?_
      obtain rfl := List.mem_singleton.mp hc
      exact .mk (by show _ ≤ _; decide) (by simp [TypeExpr.children])
    · exact .mk trivial (by simp [TypeExpr.children])

/-! ### What does not survive -/

/-- A name too long for its length prefix is cut short. -/
theorem not_builds_of_long {name : Text} (hlen : u32Max < name.asBytes.length)
    {slot : Bool → Option CallingConvention → Callcnv → Prop} :
    ¬∃ t, buildRecipe (TypeExpr.named name).serialize = some t ∧ Builds slot (.named name) t := by
  rintro ⟨t, hbuild, ht⟩
  cases ht
  have hstr := str_encodeLenPrefixed name []
  rw [List.append_nil] at hstr
  have hstep : recipeStep recipeNamed [] (encodeLenPrefixed name) =
      some ([.named (cStr (name.asBytes.take (clampU32 name.asBytes.length)))], []) := by
    show (str >>= fun s => pure [Tinfo.named (cStr s)]) _ = _
    rw [bind_of_eq_some hstr]
    rfl
  have hrun := interpret_of_step _ hstep
  rw [interpret] at hrun
  rw [buildRecipe, TypeExpr.serialize, TypeExpr.encode, encodeStr, hrun] at hbuild
  have hname := congrArg List.length (Tinfo.named.inj (Option.some.inj hbuild))
  have hshort : (cStr (name.asBytes.take (clampU32 name.asBytes.length))).length ≤ u32Max := by
    refine (List.takeWhile_prefix _).length_le.trans ?_
    rw [List.length_take, clampU32, if_neg (by omega)]
    exact Nat.min_le_left _ _
  omega

/-- A function with more parameters than its count can say leaves some of
them on the stack. -/
theorem buildRecipe_of_many {ret : TypeExpr} {params : List (Param TypeExpr)} (varargs : Bool)
    (cc : Option CallingConvention) (hret : Pushes ret) (hparams : ∀ p ∈ params, Pushes p.ty)
    (hcount : u32Max < params.length) :
    buildRecipe (TypeExpr.function ret params varargs cc).serialize = none := by
  obtain ⟨rettype, -, hpush⟩ := hret
  obtain ⟨ts, hts, hpushes⟩ := interpret_flatMap (params.map Param.ty) fun e he => by
    obtain ⟨p, hp, rfl⟩ := List.mem_map.mp he
    exact hparams p hp
  have hlen : params.length = ts.length := by simpa using hts.length_eq
  have hcc : (cc.map CallingConvention.code).getD 0 < 256 ^ 2 := by
    cases cc with
    | none => decide
    | some c => cases c <;> decide
  have htake : (params.take u32Max).length = u32Max := by
    rw [List.length_take]
    omega
  -- The count and the names are cut off at `u32::MAX`, while every type is sent: the first ones
  -- are left on the stack.
  have hencode : (TypeExpr.function ret params varargs cc).serialize =
      ret.encode ++ ((params.map Param.ty).flatMap TypeExpr.encode ++
        recipeFunction :: (toLeBytes 4 (params.take u32Max).length ++ varargs.toUInt8 ::
          toLeBytes 2 ((cc.map CallingConvention.code).getD 0) ++
            encodeNames (params.take u32Max) ++ [])) := by
    simp [TypeExpr.serialize, TypeExpr.encode, encodeParams_eq, clampU32, Nat.not_le.mpr hcount,
      List.flatMap_map, htake]
  have hstep := recipeStep_function (params.take u32Max) (by rw [htake]) varargs.toUInt8 _ hcc
    (ts.reverse ++ [rettype]) []
  obtain ⟨rettype', rest, hdrop⟩ : ∃ rettype' rest,
      (ts.reverse ++ [rettype]).drop u32Max = rettype' :: rest := by
    apply List.exists_cons_of_ne_nil
    apply List.ne_nil_of_length_pos
    simp only [List.length_drop, List.length_append, List.length_reverse, List.length_singleton]
    omega
  have hrest : rest ≠ [] := by
    have hlength := congrArg List.length hdrop
    simp only [List.length_drop, List.length_append, List.length_reverse, List.length_cons,
      List.length_nil] at hlength
    apply List.ne_nil_of_length_pos
    omega
  obtain ⟨t, ht⟩ : ∃ t, buildFunc ((params.take u32Max).map fun q =>
      (Text.asBytes (q.name.getD [])).take (clampU32 (Text.asBytes (q.name.getD [])).length))
        varargs.toUInt8 ((cc.map CallingConvention.code).getD 0) (ts.reverse ++ [rettype]) =
      some (t :: rest) := by
    simp only [buildFunc, List.length_map, htake, hdrop]
    exact ⟨_, rfl⟩
  rw [ht] at hstep
  rw [buildRecipe, hencode, hpush, hpushes, interpret_of_step _ hstep, interpret]
  cases rest with
  | nil => exact absurd rfl hrest
  | cons t' rest => rfl

theorem asBytes_replicate (n : ℕ) : (Text.asBytes (List.replicate n 'a')).length = n := by
  have hsize : 'a'.utf8Size = 1 := by decide
  simp [Text.asBytes, hsize]

theorem nulFree_replicate (n : ℕ) : Text.NulFree (List.replicate n 'a') := by
  intro b hb
  obtain ⟨c, hc, hb⟩ := List.mem_flatMap.mp hb
  obtain rfl := List.eq_of_mem_replicate hc
  have hbytes : String.utf8EncodeChar 'a' = [97] := by decide
  rw [hbytes, List.mem_singleton] at hb
  rw [hb]
  decide

theorem checkParams_replicate (n : ℕ) :
    checkParams (List.replicate n ⟨none, .bool⟩) = .ok () := by
  induction n with
  | zero => rfl
  | succ n ih =>
      simp only [List.replicate_succ, checkParams, TypeExpr.check]
      exact ih

theorem check_replicate (n : ℕ) :
    (TypeExpr.function .void (List.replicate n ⟨none, .bool⟩) false none).check = .ok () := by
  rw [TypeExpr.check]
  exact checkParams_replicate n

theorem Builds.exists_slot {slot : Bool → Option CallingConvention → Callcnv → Prop}
    {ret : TypeExpr} {params : List (Param TypeExpr)} {varargs : Bool}
    {cc : Option CallingConvention} {t : Tinfo}
    (h : Builds slot (.function ret params varargs cc) t) : ∃ conv, slot varargs cc conv := by
  cases h with
  | function hret hnames hargs hslot => exact ⟨_, hslot⟩

/-- Neither a convention beside varargs, nor a name of four gigabytes, nor a
function of as many parameters survives. -/
theorem buildRecipe_not_structural :
    let variadic := TypeExpr.function .void [] true (some .cdecl)
    let long := TypeExpr.named (List.replicate (2 ^ 32) 'a')
    let wide := TypeExpr.function .void (List.replicate (2 ^ 32) ⟨none, .bool⟩) false none
    ∀ e ∈ [variadic, long, wide], e.check = .ok () ∧ e.Supported ∧
      ¬∃ t, buildRecipe e.serialize = some t ∧ Builds KeepsBoth e t := by
  intro variadic long wide e he
  have leaf {e : TypeExpr} (h : e.children = []) (hsupported : e.SupportedHere) : e.Supported :=
    .mk hsupported (by simp [h])
  have hvoid : Pushes .void :=
    ⟨.void, .void, fun stack p => interpret_of_step recipeVoid rfl⟩
  have hbool : Pushes .bool :=
    ⟨.bool, .bool, fun stack p => interpret_of_step recipeBool rfl⟩
  simp only [List.mem_cons, List.not_mem_nil, or_false] at he
  rcases he with rfl | rfl | rfl
  · have hsupported : variadic.Supported := by
      refine .mk trivial fun c hc => ?_
      obtain rfl := List.mem_singleton.mp hc
      exact leaf rfl trivial
    refine ⟨rfl, hsupported, ?_⟩
    rintro ⟨t, -, ht⟩
    obtain ⟨conv, hvararg, hexplicit⟩ := ht.exists_slot
    cases conv <;> simp [Callcnv.isVararg, Callcnv.explicit] at hvararg hexplicit
  · refine ⟨?_, leaf rfl trivial, not_builds_of_long ?_⟩
    · have hnone : (Text.asBytes (List.replicate (2 ^ 32) 'a')).any (· == 0) = false := by
        rw [List.any_eq_false]
        exact fun b hb h => nulFree_replicate _ b hb (beq_iff_eq.mp h)
      simp only [long, TypeExpr.check, nulChecked, hnone]
      rfl
    · rw [asBytes_replicate]
      decide
  · have hmany : u32Max < (List.replicate (2 ^ 32) (⟨none, .bool⟩ : Param TypeExpr)).length := by
      rw [List.length_replicate]
      decide
    have hparam (p : Param TypeExpr) (hp : p ∈ List.replicate (2 ^ 32) ⟨none, .bool⟩) :
        p.ty = .bool := by rw [List.eq_of_mem_replicate hp]
    have hsupported : wide.Supported := by
      refine .mk trivial fun c hc => ?_
      rcases List.mem_cons.mp hc with rfl | hc
      · exact leaf rfl trivial
      · obtain ⟨p, hp, rfl⟩ := List.mem_map.mp hc
        rw [hparam p hp]
        exact leaf rfl trivial
    refine ⟨check_replicate (2 ^ 32), hsupported, ?_⟩
    rintro ⟨t, hbuild, -⟩
    have hnone := buildRecipe_of_many false none hvoid
      (fun p hp => hparam p hp ▸ hbool) hmany
    exact nomatch hbuild.symm.trans hnone

end Idakit.Facade
