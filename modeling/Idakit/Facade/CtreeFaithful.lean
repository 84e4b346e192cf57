import Idakit.Facade.CtreeStatements

/-!
The walk of a decompiled function makes the tree of its body. Where no node
fails, finishing makes a tree that shows the body and its locals, with every
node below the root once; otherwise it hands back the first failure.
-/

namespace Idakit.Facade

open Idakit.Library Idakit.Types Idakit.Decompiler

variable {env : Environment} {lossy : Name → Text} {ctree : CtreeSdk} {s : WalkerState}

/-! ### Locals -/

theorem Argpart.toPiece_piece (p : Argpart) : p.piece.toPiece = p.fragment := by
  obtain ⟨location, off, size⟩ := p
  cases location with
  | ea address =>
      show ((Address.newConst address.toInt64.toUInt64).map LocalLocation.static).map _ = _
      rw [UInt64.toUInt64_toInt64]
      rfl
  | _ => rfl

theorem fromArgloc_custom {atype : UInt32} (h : 7 ≤ atype) :
    LocalLocation.fromArgloc atype 0 0 0 [] = some .custom := by
  have h : 7 ≤ atype.toNat := UInt32.le_iff_toNat_le.mp h
  unfold LocalLocation.fromArgloc
  split
  case h_8 => rfl
  all_goals omega

theorem Clvar.flags_and (l : Clvar TypeRef) :
    (l.flags &&& 1 != 0) = l.isArgVar ∧ (l.flags &&& 2 != 0) = l.isResultVar ∧
      (l.flags &&& 4 != 0) = l.isUsedByref := by
  obtain ⟨name, tif, isArg, isResult, isByref, width, cmt, location⟩ := l
  cases isArg <;> cases isResult <;> cases isByref <;> simp [flags] <;> decide

theorem Clvar.fromArgloc_eq (lossy : Name → Text) (l : Clvar TypeRef) (ty : TypeId) :
    ((l.toLvar lossy ty).pieces.mapM LocPiece.toPiece).bind
        (LocalLocation.fromArgloc (l.toLvar lossy ty).atype (l.toLvar lossy ty).reg1
          (l.toLvar lossy ty).reg2 (l.toLvar lossy ty).sval) = l.location.location := by
  obtain ⟨name, tif, isArg, isResult, isByref, width, cmt, location⟩ := l
  cases location with
  | dist scattered =>
      have hpieces : (scattered.map Argpart.piece).mapM LocPiece.toPiece =
          scattered.mapM Argpart.fragment := by
        induction scattered with
        | nil => rfl
        | cons p scattered ih =>
            rw [List.map_cons, List.mapM_cons, List.mapM_cons, ih, Argpart.toPiece_piece]
      show ((scattered.map Argpart.piece).mapM LocPiece.toPiece).bind _ = _
      rw [hpieces, Vdloc.location]
      cases scattered.mapM Argpart.fragment with
      | none => rfl
      | some pieces => rfl
  | static ea =>
      show (Address.newConst ea.toInt64.toUInt64).map LocalLocation.static = _
      rw [UInt64.toUInt64_toInt64]
      rfl
  | custom atype => exact fromArgloc_custom atype.2
  | _ => rfl

/-- The local that the callback makes is the local of the source. -/
theorem Clvar.toLocal_toLvar (l : Clvar TypeRef) (ty : TypeId) :
    (l.toLvar lossy ty).toLocal = l.toLocal lossy ty := by
  obtain ⟨harg, hresult, hbyref⟩ := l.flags_and
  rw [Clvar.toLocal, ← l.fromArgloc_eq lossy ty, Lvar.toLocal]
  cases (l.toLvar lossy ty).pieces.mapM LocPiece.toPiece with
  | none => rfl
  | some pieces =>
      simp only [Option.bind_eq_bind, Option.bind_some]
      cases LocalLocation.fromArgloc (l.toLvar lossy ty).atype (l.toLvar lossy ty).reg1
          (l.toLvar lossy ty).reg2 (l.toLvar lossy ty).sval pieces with
      | none => rfl
      | some location =>
          show some (Local.mk _ _ (l.flags &&& 1 != 0) (l.flags &&& 2 != 0)
            (l.flags &&& 4 != 0) _ _ _) = _
          rw [harg, hresult, hbyref]
          rfl

structure EmittedLocals (env : Environment) (lossy : Name → Text) (ls : List (Clvar TypeRef))
    (s s' : WalkerState) : Prop where
  inv : Inv env env.Mentions s'.types
  onward : Onward s.types s'.types
  arenas : s'.nodes.b.toArenas = s.nodes.b.toArenas
  error : s'.nodes.error = s.nodes.error
  grown {handles : List NodeRef} : s.nodes.b.Growing handles → s'.nodes.b.Growing handles
  locals : ∃ vs, s'.nodes.b.locals = s.nodes.b.locals ++ vs ∧
    List.Forall₂ (ShowsLocal lossy (s'.Stands env)) ls vs

theorem completes_lvars (hlossy : DecodesUtf8 lossy) {ls : List (Clvar TypeRef)}
    (hinv : Inv env env.Mentions s.types) (hnames : ∀ l ∈ ls, env.Mentions l.tif)
    (hplaced : ∀ l ∈ ls, l.location.location.isSome)
    (hroom : s.nodes.b.locals.length + ls.length ≤ 2 ^ 32) :
    Completes (fun fuel => Walker.lvars (env.sdk lossy) fuel ls) s fun _ s' =>
      EmittedLocals env lossy ls s s' := by
  induction ls generalizing s with
  | nil => exact .pure ⟨hinv, .refl _, rfl, rfl, id, [], by simp, .nil⟩
  | cons l ls ih =>
      simp only [Walker.lvars, Walker.lvar, bind_assoc]
      refine (completes_withTypes hlossy hinv (hnames l List.mem_cons_self)).bind ?_
      rintro ty s₁ ⟨w, rfl, hstood⟩
      have hty := hstood.stands
      obtain ⟨location, hlocation⟩ :=
        Option.isSome_iff_exists.mp (hplaced l List.mem_cons_self)
      obtain ⟨v, hv⟩ : ∃ v, l.toLocal lossy ty = some v := by
        rw [Clvar.toLocal, hlocation]
        exact ⟨_, rfl⟩
      have hvty : v.ty = ty := by
        obtain ⟨_, -, rfl⟩ := Option.map_eq_some_iff.mp hv
        rfl
      rw [List.length_cons] at hroom
      -- The location is not the invalid address, so the callback does not panic.
      have hemit : emitLvar (l.toLvar lossy ty) (s.withTypes w) = some ((), { s.withTypes w with
          nodes := ⟨((s.withTypes w).nodes.b.pushLocal v).2, s.nodes.error⟩ }) := by
        have hlocals : (s.withTypes w).nodes.b.locals.length < 2 ^ 32 := by
          show s.nodes.b.locals.length < 2 ^ 32
          omega
        rw [emitLvar, CallbackBuilder.lvar, Clvar.toLocal_toLvar, hv]
        simp only [Option.bind_eq_bind, Option.bind_some, if_pos hlocals]
        rfl
      refine .bind_of_eq hemit ?_
      refine (ih ?_ (fun l hl => hnames l (List.mem_cons_of_mem _ hl))
        (fun l hl => hplaced l (List.mem_cons_of_mem _ hl)) ?_).imp ?_
      · exact hstood.inv
      · simp only [CtreeBuilder.pushLocal, WalkerState.withTypes, List.length_append,
          List.length_singleton]
        omega
      · rintro - s' ⟨hinv', honward', harenas, herror, hgrown, vs, hlocals, hall⟩
        refine ⟨hinv', hstood.went.toOnward.trans honward', harenas, herror,
          fun h => hgrown ((h.types _).pushLocal v), v :: vs, ?_, .cons ⟨?_, ?_⟩ hall⟩
        · rw [hlocals, List.append_cons]
          rfl
        · rw [hvty]
          exact Environment.Stands.grows hty honward'.grows
        · rw [hvty]
          exact hv

/-! ### The whole walk -/

/-- A handle shows a reference: the table unfolds to the environment's
unfolding, unless a typedef of an unnamed struct, union or enum is met. -/
def Environment.Renders (env : Environment) (table : TypeTable) (t : TypeRef) (id : TypeId) :
    Prop :=
  (∀ t', env.Reaches t t' → ¬env.AliasesBody t') → env.Unfolds table t id

structure Extracted (env : Environment) (lossy : Name → Text) (ctree : CtreeSdk)
    (f : Cfunc TypeRef) (t : Ctree) : Prop where
  tree : t.IsTree t.root
  body : ShowsStatement lossy ctree (env.Renders t.types) t.toArenas f.body t.root
  locals : List.Forall₂ (ShowsLocal lossy (env.Renders t.types)) f.lvars t.locals

/-- A decompiled function of the kernel: every name is defined, every operand
that is used is there, no local is at the invalid address, and handles and
counts fit into 32 bits. -/
structure Cfunc.Formed (env : Environment) (ctree : CtreeSdk) (f : Cfunc TypeRef) : Prop where
  nodes : ∀ n ∈ f.body.nodes ctree, SourceNode.Formed env ctree n
  lvars : ∀ l ∈ f.lvars, env.Mentions l.tif ∧ l.location.location.isSome
  expressions : expressionCount (f.body.nodes ctree) ≤ noHandle
  statements : statementCount (f.body.nodes ctree) ≤ noHandle
  locals : f.lvars.length ≤ 2 ^ 32

/-- The walk of a function leaves the first failure of its body, or else the
whole body under one open handle and the locals in index order. -/
theorem completes_cfuncWalkCtree (hlossy : DecodesUtf8 lossy) (huses : ctree.UsesOperands)
    {f : Cfunc TypeRef} (hf : f.Formed env ctree) :
    Completes (fun fuel => cfuncWalkCtree (env.sdk lossy) ctree fuel f) .start fun root s =>
      Inv env env.Mentions s.types ∧ s.nodes.b.types.pending = [] ∧
        s.nodes.error = firstFailure (f.body.nodes ctree) ∧
        List.Forall₂ (ShowsLocal lossy (s.Stands env)) f.lvars s.nodes.b.locals ∧
        (firstFailure (f.body.nodes ctree) = none →
          s.nodes.b.Growing [.statement root] ∧
            s.ShowsStmt env lossy ctree f.body root) := by
  simp only [cfuncWalkCtree]
  refine (completes_lvars (s := .start) hlossy inv_start (fun l hl => (hf.lvars l hl).1)
    (fun l hl => (hf.lvars l hl).2) ?_).bind ?_
  · show 0 + f.lvars.length ≤ 2 ^ 32
    have := hf.locals
    omega
  rintro - s₁ ⟨hinv, honward, harenas, herror, hgrown, vs, hlocals, hall⟩
  have hready : Ready env ctree (f.body.nodes ctree) s₁ := by
    refine ⟨hinv, hf.nodes, ?_, ?_⟩ <;> rw [harenas]
    · show 0 + _ ≤ noHandle
      have := hf.expressions
      omega
    · show 0 + _ ≤ noHandle
      have := hf.statements
      omega
  refine (walksStatement hlossy huses f.body s₁ hready).imp ?_
  rintro root s₂ ⟨hw, -, hshows⟩
  have hstart : s₁.nodes.b.locals = vs := hlocals
  have hclear : s₁.nodes.error = none := herror
  have hgrowing : s₁.nodes.b.Growing [] := hgrown CtreeBuilder.growing_new
  refine ⟨hw.inv, (honward.trans hw.onward).pending_eq, ?_, ?_, fun hclean => ⟨?_, hshows hclean⟩⟩
  · rw [hw.error, hclear, Option.none_or]
  · rw [hw.locals, hstart]
    exact hall.imp fun l v hl => ⟨hw.stands hl.1, hl.2⟩
  · exact hw.grown hclean [] hgrowing

section

variable (hlossy : DecodesUtf8 lossy) (huses : ctree.UsesOperands) {f : Cfunc TypeRef}
  (hf : f.Formed env ctree) (debugAssertions : Bool)

include hlossy huses hf

theorem walk_of_failure {error : ExtractError}
    (hfirst : firstFailure (f.body.nodes ctree) = some error) :
    ∃ least, ∀ fuel, least ≤ fuel →
      walk (env.sdk lossy) ctree fuel debugAssertions f = some (.error error) := by
  obtain ⟨root, s, ⟨least, hends⟩, -, -, herror, -⟩ := completes_cfuncWalkCtree hlossy huses hf
  refine ⟨least, fun fuel hle => ?_⟩
  have hends : cfuncWalkCtree (env.sdk lossy) ctree fuel f .start = some (root, s) :=
    hends fuel hle
  rw [walk, hends]
  show s.nodes.finish debugAssertions root = _
  rw [CallbackBuilder.finish, herror, hfirst]

theorem walk_of_clean (hclean : firstFailure (f.body.nodes ctree) = none) :
    ∃ t, (∃ least, ∀ fuel, least ≤ fuel →
        walk (env.sdk lossy) ctree fuel debugAssertions f = some (.ok t)) ∧
      Extracted env lossy ctree f t := by
  obtain ⟨root, s, ⟨least, hends⟩, hinv, hpending, herror, hlocals, hshown⟩ :=
    completes_cfuncWalkCtree hlossy huses hf
  obtain ⟨hgrowing, hshows⟩ := hshown hclean
  obtain ⟨t, hfinish, htree, hkept, hroot, htypes, hlocals'⟩ := hgrowing.finish debugAssertions
  have hrenders (t' : TypeRef) (id : TypeId) (ht : s.Stands env t' id) :
      env.Renders t.types t' id := by
    rw [htypes]
    exact fun halias => hinv.unfolds hpending halias ht
  refine ⟨t, ⟨least, fun fuel hle => ?_⟩, ?_, ?_, ?_⟩
  · have hends : cfuncWalkCtree (env.sdk lossy) ctree fuel f .start = some (root, s) :=
      hends fuel hle
    have hnarrow : s.nodes.b.types.tooWide = none := hinv.narrow
    have hunfilled : s.nodes.b.types.unfilled = 0 := by
      rw [TypeBuilder.unfilled, hpending, List.length_nil]
    rw [walk, hends]
    show s.nodes.finish debugAssertions root = _
    rw [CallbackBuilder.finish, herror, hclean]
    simp only [hnarrow, hunfilled, hfinish]
    rfl
  · rw [hroot]
    exact htree
  · rw [hroot]
    exact hshows.mono hrenders hkept
  · rw [hlocals']
    exact hlocals.imp fun l v hl => ⟨hrenders _ _ hl.1, hl.2⟩

end

def operatorSdk : CtreeSdk where
  opUsesX tag := 1 ≤ tag && tag ≤ 60 || tag == 67
  opUsesY tag := 1 ≤ tag && tag ≤ 45 || tag == 58
  opUsesZ tag := tag == 16
  getName _ := []

theorem usesOperands_operatorSdk : operatorSdk.UsesOperands := by
  intro tag kind hkind
  have hlt : tag.toNat < 70 := by
    by_contra hge
    have hassign : AssignmentOp.tryFrom tag.toNat = none := by
      unfold AssignmentOp.tryFrom
      split <;> first | omega | rfl
    have hbinary : BinaryOp.tryFrom tag.toNat = none := by
      unfold BinaryOp.tryFrom
      split <;> first | omega | rfl
    have hunary : UnaryOp.tryFrom tag.toNat = none := by
      unfold UnaryOp.tryFrom
      split <;> first | omega | rfl
    have hbind {α : Type} {f : ℕ → Option α} (hf : f tag.toNat = none) :
        (if tag.toNat < 2 ^ 16 then some tag.toNat else none).bind f = none := by
      split <;> simp [hf]
    unfold classify at hkind
    rw [if_neg (by omega)] at hkind
    simp only [hbind hassign, hbind hbinary, hbind hunary] at hkind
    split at hkind <;> first | omega | cases hkind
  have hall : ∀ n : Fin 70, ∀ kind ∈ classify n 0 1 2,
      kind.children = (if operatorSdk.opUsesX (.ofNat n) then [0] else []) ++
        (if operatorSdk.opUsesY (.ofNat n) then [1] else []) ++
          (if operatorSdk.opUsesZ (.ofNat n) then [2] else []) := by decide
  have htag := hall ⟨tag.toNat, hlt⟩ kind hkind
  rwa [UInt32.ofNat_toNat] at htag

end Idakit.Facade
