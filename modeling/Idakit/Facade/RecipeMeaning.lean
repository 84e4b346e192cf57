import Idakit.Facade.RecipeRefines

/-!
What an expression asks the kernel for, by recursion on the expression: no
bytes, no cursor and no stack. The bytes it is sent as, run by the
interpreter on the other side, come to exactly this, also where a part of it
is refused.
-/

namespace Idakit.Facade.RecipeMachine

open Idakit.Library Idakit.Types

/-! ### Expressions -/

def convention (varargs : Bool) (cc : Option CallingConvention) : Callcnv :=
  if varargs then .ellipsis
  else match cc with
    | none => .unset
    | some cc => .code cc.code

section

variable {τ : Type} (k : Constructors τ)

mutual

/-- The type that an expression asks for, unless a part of it is refused. -/
def meaning : TypeExpr → Option τ
  | .void => k.createSimpleType .void
  | .bool => k.createSimpleType .bool
  | .int bytes signed => buildInt k bytes.toNat signed
  | .float bytes => buildFloat k bytes.toNat
  | .bitfield nbytes width signed => k.createBitfield nbytes width !signed
  | .decl text => k.parseDecl text.asBytes
  | .named name => k.getNamedType name.asBytes
  | .pointer inner => (meaning inner).bind k.createPtr
  | .array elem len =>
      (meaning elem).bind fun t =>
        if len.toNat ≤ u32Max then k.createArray t len.toNat else none
  | .const inner => (meaning inner).map k.setConst
  | .volatile inner => (meaning inner).map k.setVolatile
  | .function ret params varargs cc =>
      (meaning ret).bind fun ret =>
        (meaningParams params).bind fun args => k.createFunc ⟨ret, args, convention varargs cc⟩

def meaningParams : List (Param TypeExpr) → Option (List (Funcarg τ))
  | [] => some []
  | ⟨name, ty⟩ :: params =>
      (meaning ty).bind fun type =>
        (meaningParams params).map fun args => ⟨Text.asBytes (name.getD []), type⟩ :: args

end

/-! ### A term with the structure of an expression -/

theorem eq_convention_of_keepsVarargs {varargs : Bool} {cc : Option CallingConvention}
    {conv : Callcnv} (h : KeepsVarargs varargs cc conv) : conv = convention varargs cc := by
  obtain ⟨hvararg, hexplicit⟩ := h
  cases varargs with
  | true =>
      cases conv with
      | ellipsis => rfl
      | unset | code n => cases hvararg
  | false =>
      have hcode := hexplicit rfl
      cases conv with
      | ellipsis => cases hvararg
      | unset =>
          cases cc with
          | none => rfl
          | some cc => cases hcode
      | code n =>
          cases cc with
          | none => cases hcode
          | some cc => rw [Option.some.inj hcode]; rfl

theorem evalArgs_of_builds {params : List (Param TypeExpr)} {args : List (Funcarg Tinfo)}
    (hnames : args.map Funcarg.name = params.map fun p => Text.asBytes (p.name.getD []))
    (hargs : List.Forall₂ (fun e t => eval k t = meaning k e) (params.map Param.ty)
      (args.map Funcarg.type)) : evalArgs k args = meaningParams k params := by
  induction params generalizing args with
  | nil =>
      cases args with
      | nil => rfl
      | cons arg args => cases hnames
  | cons p params ih =>
      cases args with
      | nil => cases hnames
      | cons arg args =>
          obtain ⟨hname, hnames⟩ := List.cons.inj hnames
          obtain ⟨harg, hargs⟩ := List.forall₂_cons.mp hargs
          have hname : arg.name = Text.asBytes (p.name.getD []) := hname
          rw [evalArgs, meaningParams, ih hnames hargs, harg, hname]

theorem eval_of_builds {e : TypeExpr} {t : Tinfo} (h : Builds KeepsVarargs e t)
    (hsupported : e.Supported) : eval k t = meaning k e := by
  induction e using TypeExpr.childrenInduct generalizing t with
  | step e ih =>
      have hkid {c : TypeExpr} {t : Tinfo} (hc : c ∈ e.children) (ht : Builds KeepsVarargs c t) :
          eval k t = meaning k c := ih c hc ht (hsupported.inside c hc)
      cases h with
      | void | bool | int | float | decl | named => rfl
      | bitfield => rw [eval, meaning, UInt8.ofNat_toNat, UInt8.ofNat_toNat]
      | pointer h =>
          rw [eval, meaning, hkid (by simp [TypeExpr.children]) h]
      | const h =>
          rw [eval, meaning, hkid (by simp [TypeExpr.children]) h]
      | volatile h =>
          rw [eval, meaning, hkid (by simp [TypeExpr.children]) h]
      | @array elem len t h =>
          have hlen : len.toNat ≤ u32Max := hsupported.here
          rw [eval, meaning, hkid (by simp [TypeExpr.children]) h]
          simp only [if_pos hlen]
      | @function ret params varargs cc rettype args conv hret hnames hargs hslot =>
          have hparams : List.Forall₂ (fun e t => eval k t = meaning k e) (params.map Param.ty)
              (args.map Funcarg.type) := by
            have hmem := (List.forall₂_and_left (p := (· ∈ params.map Param.ty)) _ _).mpr
              ⟨fun c hc => hc, hargs⟩
            exact hmem.imp fun c t h => hkid (List.mem_cons_of_mem _ h.1) h.2
          rw [eval, meaning, hkid List.mem_cons_self hret, evalArgs_of_builds k hnames hparams,
            eq_convention_of_keepsVarargs hslot]

/-! ### What the interpreter has no type for -/

/-- What is unsupported is unsupported here, or has a part that is. -/
theorem exists_child_of_not_supported {e : TypeExpr} (h : ¬e.Supported)
    (hhere : e.SupportedHere) : ∃ c ∈ e.children, ¬c.Supported := by
  by_contra hall
  exact h (.mk hhere fun c hc => by_contra fun hunsupported => hall ⟨c, hc, hunsupported⟩)

theorem meaningParams_eq_none {params : List (Param TypeExpr)} {p : Param TypeExpr}
    (hp : p ∈ params) (h : meaning k p.ty = none) : meaningParams k params = none := by
  induction params with
  | nil => cases hp
  | cons p' params ih =>
      rw [meaningParams]
      rcases List.mem_cons.mp hp with rfl | hp
      · rw [h, Option.bind_none]
      · rw [ih hp]
        cases meaning k p'.ty <;> rfl

/-- Some expression inside is one that the interpreter has no type for. -/
theorem meaning_eq_none {e : TypeExpr} (h : ¬e.Supported) : meaning k e = none := by
  induction e using TypeExpr.childrenInduct with
  | step e ih =>
      have hkid {inner : TypeExpr} (hchildren : e.children = [inner])
          (hhere : e.SupportedHere) : meaning k inner = none := by
        obtain ⟨c, hc, hunsupported⟩ := exists_child_of_not_supported h hhere
        have hnone := ih c hc hunsupported
        rw [hchildren, List.mem_singleton] at hc
        exact hc ▸ hnone
      cases e with
      | void | bool | bitfield | decl | named =>
          exact absurd (.mk trivial (by simp [TypeExpr.children])) h
      | int bytes signed =>
          have hwidth : bytes.toNat ∉ [1, 2, 4, 8, 16] := fun hmem =>
            h (.mk hmem (by simp [TypeExpr.children]))
          rw [meaning, buildInt, if_neg hwidth]
      | float bytes =>
          have hwidth : bytes.toNat ∉ [4, 8] := fun hmem =>
            h (.mk hmem (by simp [TypeExpr.children]))
          simp only [List.mem_cons, List.not_mem_nil, or_false, not_or] at hwidth
          rw [meaning, buildFloat, if_neg hwidth.1, if_neg hwidth.2]
      | pointer inner => rw [meaning, hkid rfl trivial, Option.bind_none]
      | const inner => rw [meaning, hkid rfl trivial, Option.map_none]
      | volatile inner => rw [meaning, hkid rfl trivial, Option.map_none]
      | array elem len =>
          rw [meaning]
          by_cases hlen : len.toNat ≤ u32Max
          · rw [hkid rfl hlen, Option.bind_none]
          · simp only [if_neg hlen]
            cases meaning k elem <;> rfl
      | function ret params varargs cc =>
          rw [meaning]
          by_cases hret : ret.Supported
          · -- A parameter it is, then.
            obtain ⟨p, hp, hty⟩ : ∃ p ∈ params, ¬p.ty.Supported := by
              obtain ⟨c, hc, hunsupported⟩ := exists_child_of_not_supported h trivial
              rcases List.mem_cons.mp hc with rfl | hc
              · exact absurd hret hunsupported
              · obtain ⟨p, hp, rfl⟩ := List.mem_map.mp hc
                exact ⟨p, hp, hunsupported⟩
            rw [meaningParams_eq_none k hp
              (ih p.ty (List.mem_cons_of_mem _ (List.mem_map_of_mem hp)) hty)]
            cases meaning k ret <;> rfl
          · rw [ih ret List.mem_cons_self hret, Option.bind_none]

end

theorem interpret_of_step_eq_none (op : UInt8) {stack : List Tinfo} {p : List UInt8}
    (h : Facade.recipeStep op stack p = none) : interpret stack (op :: p) = none := by
  rw [interpret]
  split
  · rfl
  · next heq => cases h.symm.trans heq

/-- The bytes of an expression are given up on, whatever the stack holds and
whatever follows them. -/
def Fails (e : TypeExpr) : Prop := ∀ stack p, interpret stack (e.encode ++ p) = none

theorem Fails.wrap {e inner : TypeExpr} {rest : List UInt8} (h : Fails inner)
    (hencode : e.encode = inner.encode ++ rest) : Fails e := by
  intro stack p
  rw [hencode, List.append_assoc, h]

theorem interpret_flatMap_eq_none {es : List TypeExpr} (h : ∀ e ∈ es, Pushes e ∨ Fails e)
    (hfails : ∃ e ∈ es, Fails e) (stack : List Tinfo) (p : List UInt8) :
    interpret stack (es.flatMap TypeExpr.encode ++ p) = none := by
  induction es generalizing stack with
  | nil =>
      obtain ⟨e, he, -⟩ := hfails
      cases he
  | cons e es ih =>
      rw [List.flatMap_cons, List.append_assoc]
      rcases h e List.mem_cons_self with ⟨t, -, hpush⟩ | hfail
      · obtain ⟨e', he', hfail⟩ := hfails
        rcases List.mem_cons.mp he' with rfl | he'
        · rw [hfail]
        · rw [hpush]
          exact ih (fun e he => h e (List.mem_cons_of_mem _ he)) ⟨e', he', hfail⟩ _
      · rw [hfail]

theorem fails {e : TypeExpr} (hnul : e.Everywhere TypeExpr.NulFreeHere) (hfits : e.Fits)
    (h : ¬e.Supported) : Fails e := by
  induction e using TypeExpr.childrenInduct with
  | step e ih =>
      have hkid {c : TypeExpr} (hc : c ∈ e.children) (hsupported : ¬c.Supported) : Fails c :=
        ih c hc (hnul.inside c hc) (hfits.inside c hc) hsupported
      have hpushes {c : TypeExpr} (hc : c ∈ e.children) (hsupported : c.Supported) : Pushes c :=
        pushes c hsupported (hnul.inside c hc) (hfits.inside c hc)
      have hinner {inner : TypeExpr} (hchildren : e.children = [inner])
          (hhere : e.SupportedHere) : Fails inner := by
        obtain ⟨c, hc, hunsupported⟩ := exists_child_of_not_supported h hhere
        have hfails := hkid hc hunsupported
        rw [hchildren, List.mem_singleton] at hc
        exact hc ▸ hfails
      cases e with
      | void | bool | bitfield | decl | named =>
          exact absurd (.mk trivial (by simp [TypeExpr.children])) h
      | int bytes signed =>
          have hwidth : bytes.toNat ∉ [1, 2, 4, 8, 16] := fun hmem =>
            h (.mk hmem (by simp [TypeExpr.children]))
          intro stack p
          apply interpret_of_step_eq_none recipeInt
          show (StateT.lift (Facade.buildInt bytes.toNat (signed.toUInt8 != 0)) >>= fun t =>
            pure (t :: stack)) p = none
          rw [Facade.buildInt, if_neg hwidth]
          rfl
      | float bytes =>
          have hwidth : bytes.toNat ∉ [4, 8] := fun hmem =>
            h (.mk hmem (by simp [TypeExpr.children]))
          intro stack p
          apply interpret_of_step_eq_none recipeFloat
          show (StateT.lift (Facade.buildFloat bytes.toNat) >>= fun t => pure (t :: stack)) p = none
          rw [Facade.buildFloat, if_neg hwidth]
          rfl
      | pointer inner => exact (hinner rfl trivial).wrap (by rw [TypeExpr.encode])
      | const inner => exact (hinner rfl trivial).wrap (by rw [TypeExpr.encode])
      | volatile inner => exact (hinner rfl trivial).wrap (by rw [TypeExpr.encode])
      | array elem len =>
          by_cases helem : elem.Supported
          · have hlen : u32Max < len.toNat := by
              by_contra hle
              refine h (.mk (Nat.not_lt.mp hle) fun c hc => ?_)
              rw [TypeExpr.children, List.mem_singleton] at hc
              exact hc ▸ helem
            -- The element is pushed; it is the opcode behind it that fails.
            obtain ⟨t, -, hpush⟩ := hpushes (by simp [TypeExpr.children]) helem
            intro stack p
            have hencode : (TypeExpr.array elem len).encode ++ p =
                elem.encode ++ recipeArray :: (toLeBytes 8 len.toNat ++ p) := by
              simp [TypeExpr.encode]
            rw [hencode, hpush]
            apply interpret_of_step_eq_none
            have hread := uintLe_toLeBytes 8 len.toNat_lt p
            show (Facade.uintLe 8 >>= fun nelems => if u32Max < nelems then StateT.lift none
              else StateT.lift (wrapTop (.array · nelems) (t :: stack))) _ = _
            rw [bind_of_eq_some hread, if_pos hlen]
            rfl
          · exact (hkid (by simp [TypeExpr.children]) helem).wrap (by rw [TypeExpr.encode])
      | function ret params varargs cc =>
          by_cases hret : ret.Supported
          · obtain ⟨t, -, hpush⟩ := hpushes List.mem_cons_self hret
            intro stack p
            rw [TypeExpr.encode, encodeParams_eq, ← List.flatMap_map, List.append_assoc,
              List.append_assoc, hpush]
            have hmem {c : TypeExpr} (hc : c ∈ params.map Param.ty) :
                c ∈ (TypeExpr.function ret params varargs cc).children := List.mem_cons_of_mem _ hc
            -- The parameters before the first one that fails are pushed.
            refine interpret_flatMap_eq_none (fun c hc => ?_) ?_ _ _
            · by_cases hc' : c.Supported
              · exact Or.inl (hpushes (hmem hc) hc')
              · exact Or.inr (hkid (hmem hc) hc')
            · obtain ⟨c, hc, hunsupported⟩ := exists_child_of_not_supported h trivial
              rcases List.mem_cons.mp hc with rfl | hc
              · exact absurd hret hunsupported
              · exact ⟨c, hc, hkid (hmem hc) hunsupported⟩
          · exact (hkid List.mem_cons_self hret).wrap
              (by rw [TypeExpr.encode, List.append_assoc])

/-! ### The bytes of an expression -/

theorem buildRecipe_eval_serialize {τ : Type} (k : Constructors τ) {e : TypeExpr}
    (hcheck : e.check = .ok ()) (hfits : e.Fits) :
    (Facade.buildRecipe e.serialize).bind (eval k) = meaning k e := by
  have hnul := nulFree_of_check hcheck
  rw [TypeExpr.serialize, ← outcome_nil, ← List.append_nil e.encode]
  by_cases hsupported : e.Supported
  · obtain ⟨t, ht, hpush⟩ := pushes e hsupported hnul hfits
    rw [outcome, hpush, ← outcome, outcome_singleton, eval_of_builds k ht hsupported]
  · rw [outcome, fails hnul hfits hsupported, meaning_eq_none k hsupported]

/-- The bytes of a checked expression, run on the other side, come to what the
expression asks for, or to an error where a part of it is refused. -/
theorem buildRecipe_meaning {τ : Type} (k : Constructors τ) (e : TypeExpr) (recipe : Slice)
    (hcheck : e.check = .ok ()) (hfits : e.Fits) (hsent : recipe.bytes = e.serialize) :
    ∃ m, ∀ fuel, recipe.bytes.length < fuel → buildRecipe k recipe.bytes fuel .start =
      .returned (answer (meaning k e)) m := by
  obtain ⟨r, m, hreturned, hgives⟩ :=
    Stmt.wp_false_iff.mp (wp_buildRecipe_eval k recipe.fits (Nat.lt_succ_self _))
  refine ⟨m, fun fuel hfuel => ?_⟩
  rw [buildRecipe_fuel k recipe.fits (Nat.lt_succ_self _) hfuel, hreturned, hgives, hsent,
    buildRecipe_eval_serialize k hcheck hfits]

/-- A kernel whose types are terms, and that refuses a bitfield wider than its
container. -/
def Constructors.free : Constructors Tinfo where
  createSimpleType
    | .void => some .void
    | .bool => some .bool
    | .int bytes signed => some (.int bytes signed)
    | .float => some (.float 4)
    | .double => some (.float 8)
  getNamedType name := some (.named name)
  parseDecl text := some (.decl text)
  createPtr inner := some (.ptr inner)
  createArray inner nelems := some (.array inner nelems)
  setConst := .const
  setVolatile := .volatile
  createFunc f := some (.func f.rettype f.args f.cc)
  createBitfield nbytes width isUnsigned :=
    if width.toNat ≤ 8 * nbytes.toNat then some (.bitfield nbytes.toNat width.toNat isUnsigned)
    else none

theorem buildRecipe_meaning_bitfield :
    let e := TypeExpr.bitfield 4 33 true
    ∃ m, ∀ fuel, e.serialize.length < fuel → buildRecipe Constructors.free e.serialize fuel .start =
      .returned (typeErrInput, none) m :=
  buildRecipe_meaning Constructors.free (.bitfield 4 33 true) ⟨_, by decide⟩ rfl
    (.mk trivial (by simp [TypeExpr.children])) rfl

end Idakit.Facade.RecipeMachine
