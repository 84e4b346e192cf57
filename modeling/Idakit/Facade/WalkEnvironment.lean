import Idakit.Facade.WalkInvariant
import Mathlib.Data.Finset.Card

/-!
The walk of a type of an environment. It recurses into the types inside a type
and, at a name not seen before, into that name's definition, so it ends: the
names not yet seen become fewer, and between two names the types become
smaller.
-/

namespace Idakit.Facade

open Idakit.Library Idakit.Types

variable {env : Environment} {lossy : Name → Text} {met : TypeRef → Prop} {d t : TypeRef}
  {w w' : WalkState} {tag : Option Text} {n : Text} {k : ℕ}

def unseen (env : Environment) (w : WalkState) : Finset Text :=
  env.names.toFinset.filter fun n => w.builder.name2type.lookup n = none

theorem unseen_subset (h : w.builder.Grows w'.builder) : unseen env w' ⊆ unseen env w := by
  intro n hn
  obtain ⟨hmem, hnone⟩ := Finset.mem_filter.mp hn
  refine Finset.mem_filter.mpr ⟨hmem, ?_⟩
  cases hlookup : w.builder.name2type.lookup n with
  | none => rfl
  | some id =>
      rw [h.named n id hlookup] at hnone
      cases hnone

/-- A name newly seen is one less. -/
theorem card_unseen_lt (h : w.builder.Grows w'.builder) (hn : n ∈ env.names) {id : TypeId}
    (hold : w.builder.name2type.lookup n = none)
    (hnew : w'.builder.name2type.lookup n = some id) :
    (unseen env w').card < (unseen env w).card := by
  refine Finset.card_lt_card ((Finset.ssubset_iff_of_subset (unseen_subset h)).mpr ⟨n, ?_, ?_⟩)
  · exact Finset.mem_filter.mpr ⟨List.mem_toFinset.mpr hn, hold⟩
  · intro hmem
    rw [(Finset.mem_filter.mp hmem).2] at hnew
    cases hnew

def Within (env : Environment) (met : TypeRef → Prop) (k : ℕ) (w : WalkState) : Prop :=
  Inv env met w ∧ (unseen env w).card ≤ k

theorem Within.onward (h : Within env met k w) (hinv : Inv env met w') (honward : Onward w w') :
    Within env met k w' :=
  ⟨hinv, (Finset.card_le_card (unseen_subset honward.grows)).trans h.2⟩

/-- The walk of a reference comes to an end wherever at most `k` names are
not yet seen. -/
def Walks (env : Environment) (lossy : Name → Text) (met : TypeRef → Prop) (k : ℕ) (t : TypeRef) :
    Prop :=
  ∀ w, Within env met k w →
    Completes (fun fuel => ty (env.sdk lossy) fuel t) w (Stood env met t.names w t)

/-! ### Shared values -/

theorem optSize_getD (size : Option ℕ) :
    optSize (size.getD 0) (if size.getD 0 ≠ 0 then 1 else 0) =
      size.filter fun size => size ≠ 0 := by
  cases size with
  | none => rfl
  | some size =>
      rw [Option.filter_some]
      by_cases hsize : size = 0 <;> simp [optSize, hsize]

theorem call_scalar {b : TypeBuilder} {kind bytes signed size hasSize : ℕ} (hbytes : bytes < 256) :
    b.call (.scalar kind bytes signed size hasSize) =
      some (some (b.table.intern ⟨scalarShape kind bytes signed, optSize size hasSize⟩).1,
        { b with table :=
          (b.table.intern ⟨scalarShape kind bytes signed, optSize size hasSize⟩).2 }) := by
  rw [TypeBuilder.call, TypeBuilder.scalar, if_pos hbytes]
  rfl

theorem completes_scalar (h : Inv env met w) {kind bytes signed size hasSize : ℕ}
    (hbytes : bytes < 256) (ht : ∀ n, t ≠ .named n)
    (hshape : scalarShape kind bytes signed = env.shape t [])
    (hsize : optSize size hasSize = t.givenSize) (hchildren : env.children t = []) :
    Completes (fun _ => mint (.scalar kind bytes signed size hasSize)) w (Stood env met [] w t) :=
  completes_mint h ht (call_scalar hbytes) hshape hsize (hchildren ▸ .nil)

theorem completes_opaqueNamed (h : Inv env met w) (hlossy : DecodesUtf8 lossy) {text : Text}
    (htext : text ≠ []) :
    Completes (fun _ => mint (.opaqueNamed (lossy text.asBytes))) w
      (Stood env met [] w (.unmodelled text)) := by
  rw [hlossy text]
  refine completes_mint h (fun n hn => nomatch hn) rfl ?_ rfl .nil
  rw [Environment.shape, if_neg htext]

theorem completes_tyOpaque (h : Inv env met w) (hlossy : DecodesUtf8 lossy) {text : Text}
    (hd : env.Describes d tag (.unmodelled text)) :
    Completes (fun _ => tyOpaque (env.sdk lossy) d) w
      (Stood env met [] w (TypeRef.knownAs tag (.unmodelled text))) := by
  have hprint : (env.sdk lossy).print d = some text.asBytes := by
    simp only [Environment.sdk, hd.final_eq]
  have htyped := hd.typeName_eq hlossy
  rw [tyOpaque, htyped, hprint]
  cases hd with
  | target hn ht =>
      exact completes_opaqueNamed h hlossy (Environment.ne_nil_of_definition hn)
  | plain ht =>
      by_cases htext : text = []
      · subst htext
        exact completes_mint h ht rfl (congrArg _ (hlossy ['?'])) rfl .nil
      · have hbytes : text.asBytes.isEmpty = false := by
          rw [hlossy.isEmpty_asBytes, List.isEmpty_eq_false_iff]
          exact htext
        simp only [Option.map_none, Option.filter_some, hbytes, Bool.not_false, if_true]
        exact completes_opaqueNamed h hlossy htext

/-! ### Types without a name of their own -/

theorem Walks.completes (ht : Walks env lossy met k t) (h : Within env met k w) :
    Completes (fun fuel => ty (env.sdk lossy) fuel t) w fun id w' =>
      Within env met k w' ∧ Went env met t.names w w' ∧ env.Stands w'.builder t id :=
  (ht w h).imp fun _ _ hw => ⟨h.onward hw.inv hw.went.toOnward, hw.went, hw.stands⟩

theorem completes_refs {ts : List TypeRef} (hts : ∀ c ∈ ts, Walks env lossy met k c)
    (h : Within env met k w) :
    Completes (fun fuel => ts.mapM (ty (env.sdk lossy) fuel)) w fun ids w' =>
      Within env met k w' ∧ Went env met (namesOfRefs ts) w w' ∧
        List.Forall₂ (env.Stands w'.builder) ts ids :=
  Completes.mapM (R := fun ts => Went env met (namesOfRefs ts)) Went.refl
    (fun c ts _ _ _ hc hts => by
      rw [namesOfRefs]
      exact hc.trans hts)
    (fun _ _ _ _ _ hmove hstands => Environment.Stands.grows hstands hmove.grows)
    (fun c hc _ hw => (hts c hc).completes hw) h

section

variable (hchildren : ∀ c ∈ env.children t, Walks env lossy met k c)
include hchildren

theorem completes_tyFunc {ret : TypeRef} {args : List TypeRef} {vararg : Bool}
    (h : Within env met k w) (hd : env.Describes d tag t) (ht : t = .func ret args vararg) :
    Completes (fun fuel => tyFunc (env.sdk lossy) (ty (env.sdk lossy) fuel) d) w
      (Stood env met t.names w t) := by
  subst ht
  have hdetails : (env.sdk lossy).getFuncDetails d = some ⟨ret, args, vararg⟩ := by
    simp only [Environment.sdk, hd.final_eq]
  have hargs (c : TypeRef) (hc : c ∈ args) : Walks env lossy met k c :=
    hchildren c (List.mem_cons_of_mem _ hc)
  simp only [tyFunc, hdetails]
  refine Completes.bind ((hchildren ret List.mem_cons_self).completes h) fun id w₁ hw₁ => ?_
  obtain ⟨hin₁, hwent₁, hret⟩ := hw₁
  refine Completes.bind (completes_refs hargs hin₁) fun ids w₂ hw₂ => ?_
  obtain ⟨hin₂, hwent₂, hall⟩ := hw₂
  have ht (n : Text) : TypeRef.func ret args vararg ≠ .named n := by simp
  have hall : List.Forall₂ (env.Stands w₂.builder) (env.children (.func ret args vararg))
      (id :: ids) := .cons (Environment.Stands.grows hret hwent₂.grows) hall
  refine (completes_mint hin₂.1 ht rfl ?_ rfl hall).imp ?_
  · show TypeShape.function id ids _ = .function id ids vararg
    cases vararg <;> rfl
  · exact fun id w' hw' => Stood.after (hwent₁.trans hwent₂) hw'

/-- A type that has no members or constants. -/
theorem completes_tyResolved (h : Within env met k w)
    (hlossy : DecodesUtf8 lossy) (hd : env.Describes d tag t) (ht : ∀ n, t ≠ .named n)
    (hbody : ∀ body, t ≠ .anonymous body) :
    Completes (fun fuel => tyResolved (env.sdk lossy) (ty (env.sdk lossy) fuel) d) w
      (Stood env met t.names w (t.knownAs tag)) := by
  -- Only an unmodelled type goes by the name that it is declared under.
  have hplain : (∀ text, t ≠ .unmodelled text) → t.knownAs tag = t := by
    intro htext
    cases tag with
    | none => rfl
    | some n =>
        cases t with
        | unmodelled text => exact absurd rfl (htext text)
        | _ => rfl
  have hbytes (bytes : Fin 256) : u32 bytes = bytes :=
    Nat.mod_eq_of_lt (bytes.isLt.trans (by decide))
  simp only [tyResolved, Environment.sdk, hd.final_eq]
  cases t with
  | named n => exact absurd rfl (ht n)
  | anonymous body => exact absurd rfl (hbody body)
  | unmodelled text => exact completes_tyOpaque h.1 hlossy hd
  | void | bool size =>
      rw [hplain (by simp)]
      exact completes_scalar h.1 (by decide) ht rfl (optSize_getD _) rfl
  | integral bytes signed =>
      rw [hplain (by simp)]
      simp only [TypeRef.size, Option.getD_some, hbytes]
      refine completes_scalar h.1 bytes.isLt ht ?_ (optSize_getD (some (bytes : ℕ))) rfl
      show TypeShape.int bytes _ = .int bytes signed
      cases signed <;> rfl
  | floating bytes =>
      rw [hplain (by simp)]
      simp only [TypeRef.size, Option.getD_some, hbytes]
      exact completes_scalar h.1 bytes.isLt ht rfl (optSize_getD (some (bytes : ℕ))) rfl
  | bitfield nbytes isUnsigned =>
      rw [hplain (by simp)]
      have hdetails : (env.sdk lossy).getBitfieldDetails d = some ⟨nbytes, isUnsigned⟩ := by
        simp only [Environment.sdk, hd.final_eq]
      show Completes (fun _ => tyBitfield (env.sdk lossy) d) w _
      simp only [tyBitfield, hdetails, hbytes]
      refine completes_scalar h.1 nbytes.isLt ht ?_ (optSize_getD (some (nbytes : ℕ))) rfl
      show TypeShape.int nbytes _ = .int nbytes !isUnsigned
      cases isUnsigned <;> rfl
  | ptr target size =>
      rw [hplain (by simp)]
      have hchild := (hchildren target (List.mem_singleton_self target)).completes h
      refine Completes.bind hchild ?_
      rintro id w₁ ⟨hin₁, hwent₁, hstands⟩
      refine (completes_mint hin₁.1 ht rfl rfl (optSize_getD size) (.cons hstands .nil)).imp ?_
      exact fun id w' hw' => Stood.after hwent₁ hw'
  | array elem nelems size =>
      rw [hplain (by simp)]
      have hchild := (hchildren elem (List.mem_singleton_self elem)).completes h
      refine Completes.bind hchild ?_
      rintro id w₁ ⟨hin₁, hwent₁, hstands⟩
      refine (completes_mint hin₁.1 ht rfl rfl (optSize_getD size) (.cons hstands .nil)).imp ?_
      exact fun id w' hw' => Stood.after hwent₁ hw'
  | func ret args vararg =>
      rw [hplain (by simp)]
      exact completes_tyFunc hchildren h hd rfl

end

/-! ### Structs, unions and enums -/

theorem valueRepr_eq_display (r : ReprDetails) :
    valueRepr (if isModeledFrbVtype r.vtype then r.vtype else 0)
      (isModeledFrbVtype r.vtype && r.isSigned) (isModeledFrbVtype r.vtype && r.hasLzeroes) =
        r.display := by
  have hmodeled : isModeledFrbVtype r.vtype = true ∨
      isModeledFrbVtype r.vtype = false ∧ NumberFormat.tryFrom r.vtype = none := by
    unfold isModeledFrbVtype NumberFormat.tryFrom
    split <;> simp
  have hzero : NumberFormat.tryFrom 0 = none := rfl
  rcases hmodeled with h | ⟨h, hnone⟩
  · simp [h, valueRepr, ReprDetails.display]
  · simp [h, valueRepr, ReprDetails.display, hnone, hzero]

/-- One member, walked. -/
theorem completes_memberInfo (hlossy : DecodesUtf8 lossy) {m : Member TypeRef}
    (hm : Walks env lossy met k m.type) (h : Within env met k w) :
    Completes (fun fuel => memberInfo (env.sdk lossy) (ty (env.sdk lossy) fuel) m.toUdm) w
      fun info w' => Within env met k w' ∧ Went env met m.names w w' ∧
        env.Stands w'.builder m.type info.ty ∧ info.toMember = m.toTypeMember info.ty := by
  rw [Environment.names_member]
  refine Completes.bind (hm.completes h) fun id w' ⟨hin, hwent, hstands⟩ => ?_
  refine Completes.pure ⟨hin, hwent, hstands, ?_⟩
  have hwidth : (if m.toUdm.isBitfield then u32 m.toUdm.size else 0) =
      (m.bitfieldWidth.map Subtype.val).getD 0 := by
    rw [Member.toUdm]
    cases m.bitfieldWidth with
    | none => rfl
    | some width => exact Nat.mod_eq_of_lt width.2.2
  have hzero : (if (m.bitfieldWidth.map Subtype.val).getD 0 ≠ 0 then
      some ((m.bitfieldWidth.map Subtype.val).getD 0) else none) =
        m.bitfieldWidth.map Subtype.val := by
    cases m.bitfieldWidth with
    | none => rfl
    | some width => exact if_pos width.2.1.ne'
  simp only [MemberInfo.toMember, Member.toTypeMember, hwidth, hzero]
  congr 1
  · exact hlossy m.name
  · exact valueRepr_eq_display m.repr

theorem zipWith_toTypeMember {members : List (Member TypeRef)} {infos : List MemberInfo}
    (h : List.Forall₂ (fun m info => info.toMember = m.toTypeMember info.ty) members infos) :
    List.zipWith Member.toTypeMember members (infos.map MemberInfo.ty) =
      infos.map MemberInfo.toMember := by
  induction h with
  | nil => rfl
  | cons hm _ ih => rw [List.map_cons, List.map_cons, List.zipWith_cons_cons, ih, hm]

theorem completes_members (hlossy : DecodesUtf8 lossy) {members : List (Member TypeRef)}
    (hmembers : ∀ m ∈ members, Walks env lossy met k m.type) (h : Within env met k w) :
    Completes (fun fuel => (members.map Member.toUdm).mapM
        (memberInfo (env.sdk lossy) (ty (env.sdk lossy) fuel))) w
      fun infos w' => Within env met k w' ∧ Went env met (namesOfMembers members) w w' ∧
        List.Forall₂ (fun m info => env.Stands w'.builder m.type info.ty ∧
          info.toMember = m.toTypeMember info.ty) members infos := by
  simp only [List.mapM_map]
  exact Completes.mapM (R := fun members => Went env met (namesOfMembers members)) Went.refl
    (fun m members _ _ _ hm hmembers => by
      rw [namesOfMembers]
      exact hm.trans hmembers)
    (fun _ _ _ _ _ hmove hm => ⟨Environment.Stands.grows hm.1 hmove.grows, hm.2⟩)
    (fun m hm _ hw => completes_memberInfo hlossy (hmembers m hm) hw) h

/-- The integer under an enum. -/
theorem completes_underlying (h : Inv env met w) (e : Enumeration) :
    Completes (fun _ => mint (.scalar 3
        (if (if (e.size : ℕ) ≠ 0 then 1 else 0) ≠ 0 then u32 e.size else 4)
        (if e.toDetails.isNumberSigned then 1 else 0) e.size
        (if (e.size : ℕ) ≠ 0 then 1 else 0))) w
      fun id w' => Inv env met w' ∧ Went env met [] w w' ∧
        env.Stands w'.builder e.underlying id := by
  have hplain (n : Text) : e.underlying ≠ .named n := fun hn => nomatch hn
  have hbytes : (if (if (e.size : ℕ) ≠ 0 then 1 else 0) ≠ 0 then u32 e.size else 4) =
      ((if e.size = 0 then 4 else e.size : Fin 256) : ℕ) := by
    by_cases hsize : e.size = 0
    · rw [hsize]
      rfl
    · have hne : (e.size : ℕ) ≠ 0 := fun heq => hsize (Fin.ext heq)
      simp only [if_pos hne, if_neg hsize]
      exact Nat.mod_eq_of_lt (e.size.isLt.trans (by decide))
  rw [hbytes]
  refine (completes_share h hplain (call_scalar (Fin.isLt _)) ?_ .nil).imp ?_
  · show TypeShape.int _ _ = .int _ e.isSigned
    rw [Enumeration.toDetails]
    cases e.isSigned <;> rfl
  · rintro id w' ⟨hinv, hwent, hstands, -⟩
    exact ⟨hinv, hwent, hstands⟩

/-- An enum's display, as it is handed over. -/
theorem valueRepr_filter (repr : Option ReprDetails) :
    let modeled := repr.filter fun r => isModeledFrbVtype r.vtype
    valueRepr ((modeled.map ReprDetails.vtype).getD 0)
      ((modeled.map ReprDetails.isSigned).getD false)
      ((modeled.map ReprDetails.hasLzeroes).getD false) = repr.bind ReprDetails.display := by
  cases repr with
  | none => rfl
  | some r =>
      have hdisplay := valueRepr_eq_display r
      intro modeled
      cases hmodeled : isModeledFrbVtype r.vtype <;>
        simpa [modeled, Option.filter_some, hmodeled] using hdisplay

/-- A descriptor of a body that is to be walked: the definition of a name not
seen before, or an unnamed one. -/
inductive Unmet (env : Environment) (met : TypeRef → Prop) (w : WalkState) :
    TypeRef → Option Text → Body TypeRef → Prop
  | named {n body} (hn : env.definition n = some (.type body))
      (hnew : w.builder.name2type.lookup n = none) (hreach : met (.named n)) :
      Unmet env met w (.named n) (some n) body
  | unnamed (body) : Unmet env met w (.anonymous body) none body

section

variable {body : Body TypeRef} (hd : Unmet env met w d tag body)
include hd

theorem Unmet.describes : env.Describes d tag (.anonymous body) := by
  cases hd with
  | named hn _ _ => exact .body hn
  | unnamed => exact .plain fun n hn => nomatch hn

theorem Unmet.inside : env.children d = body.children ∧ env.shape d = body.shape tag := by
  cases hd with
  | named hn _ _ => simp [Environment.children, funext_iff, Environment.shape, hn]
  | unnamed => exact ⟨rfl, rfl⟩

theorem Unmet.not_aliasesBody : ¬env.AliasesBody d := by
  rintro ⟨n, body', rfl, hn'⟩
  cases hd with
  | named hn _ _ =>
      rw [hn] at hn'
      cases hn'

theorem Unmet.entrySize (size : Option ℕ) (hsize : env.EntrySize d size) :
    (TypeRef.anonymous body).givenSize = size := by
  cases hsize with
  | plain hplain hsize =>
      cases hd with
      | named => exact absurd rfl (hplain _)
      | unnamed => exact hsize
  | type hn' hsize =>
      cases hd with
      | named hn _ _ =>
          rw [hn] at hn'
          cases hn'
          exact hsize
  | typedef hn' _ _ _ =>
      cases hd with
      | named hn _ _ =>
          rw [hn] at hn'
          cases hn'

/-- The handle of a body, minted and filled. -/
theorem Unmet.completes_fillOnce {α : Type} {bodyWalk : ℕ → Walk α}
    {fill : TypeId → α → SinkCall} (h : Inv env met w) (hlossy : DecodesUtf8 lossy)
    (hbody : ∀ w₁, Inv env met w₁ → w.builder.Grows w₁.builder →
      (∀ n ∈ tag, ∃ id, w₁.builder.name2type.lookup n = some id) →
      Completes bodyWalk w₁ fun a w₂ => Inv env met w₂ ∧ Went env met body.names w₁ w₂ ∧
        ∀ id, (w₂.builder.pending.lookup id).join = tag → ∃ data ids,
          w₂.builder.fills (fill id a) = some (id, data) ∧ data.shape = body.shape tag ids ∧
            List.Forall₂ (env.Stands w₂.builder) body.children ids ∧
              data.size = (TypeRef.anonymous body).givenSize) :
    Completes (fun fuel => fillOnce (env.sdk lossy) d (bodyWalk fuel) fill) w
      (Stood env met d.names w d) := by
  have hnew (n : Text) (hn : n ∈ tag) : w.builder.name2type.lookup n = none ∧
      met (.named n) ∧ d = .named n ∧ n ∈ env.names ∧ body.names = env.nextNames n := by
    cases hd with
    | named hdef hnew hreach =>
        cases hn
        refine ⟨hnew, hreach, rfl, Environment.mem_names_iff.mpr ⟨_, hdef⟩, ?_⟩
        rw [Environment.nextNames, hdef]
        rfl
    | unnamed => cases hn
  have hpasses : tag.elim body.names (fun n => [n]) = d.names := by
    cases hd <;> rfl
  have hplain (htag : tag = none) (n : Text) : d ≠ .named n := by
    cases hd with
    | named => cases htag
    | unnamed => exact fun hn => nomatch hn
  rw [← hpasses]
  refine completes_fillOnce_new h hlossy (hd.describes.typeName_eq hlossy)
    (fun n hn => (hnew n hn).1) (fun n hn => (hnew n hn).2.1) (fun n hn => (hnew n hn).2.2)
    hplain fun w₁ hinv₁ hgrows₁ hpending₁ hlookup₁ => ?_
  refine (hbody w₁ hinv₁ hgrows₁ fun n hn => ⟨_, hlookup₁ n hn⟩).imp ?_
  rintro a w₂ ⟨hinv₂, hwent₂, hfills⟩
  obtain ⟨data, ids, hfills, hshape, hall, hsize⟩ := hfills w.builder.table.len (by
    rw [hwent₂.pending_eq, hpending₁, List.lookup_cons_self]
    rfl)
  obtain ⟨hchildren, hshapes⟩ := hd.inside
  refine ⟨hinv₂, hwent₂, data, hfills, ?_⟩
  exact {
    aliased := fun halias => absurd halias hd.not_aliasesBody
    laid := fun _ => ⟨ids, hshapes ▸ hshape, hchildren ▸ hall⟩
    sized := fun size hentry => hsize.trans (hd.entrySize size hentry) }

omit hd in
theorem tyResolved_record {isUnion : Bool} {members : List (Member TypeRef)} {size : Option ℕ}
    (hfinal : env.final d = .anonymous (.record isUnion members size))
    (recur : TypeRef → Walk TypeId) :
    tyResolved (env.sdk lossy) recur d = tyUdt (env.sdk lossy) recur d (size.getD 0)
      (if size.getD 0 ≠ 0 then 1 else 0) := by
  simp only [tyResolved, Environment.sdk, hfinal]
  rfl

omit hd in
theorem tyResolved_enumeration {e : Enumeration}
    (hfinal : env.final d = .anonymous (.enumeration e)) (recur : TypeRef → Walk TypeId) :
    tyResolved (env.sdk lossy) recur d =
      tyEnum (env.sdk lossy) d e.size (if (e.size : ℕ) ≠ 0 then 1 else 0) := by
  simp only [tyResolved, Environment.sdk, hfinal]
  rfl

/-- A body is walked to its end. -/
theorem Unmet.completes_tyResolved (h : Inv env met w) (hlossy : DecodesUtf8 lossy)
    (hk : ∀ w₁, w.builder.Grows w₁.builder →
      (∀ n ∈ tag, ∃ id, w₁.builder.name2type.lookup n = some id) → (unseen env w₁).card ≤ k)
    (hmembers : ∀ isUnion members size, body = .record isUnion members size →
      ∀ m ∈ members, Walks env lossy met k m.type) :
    Completes (fun fuel => tyResolved (env.sdk lossy) (ty (env.sdk lossy) fuel) d) w
      (Stood env met d.names w d) := by
  have hfinal := hd.describes.final_eq
  cases body with
  | record isUnion members size =>
      have hdetails : (env.sdk lossy).getUdtDetails d = some (members.map Member.toUdm) := by
        simp only [Environment.sdk, hfinal]
      have hunion : (env.sdk lossy).isUnion d = isUnion := by
        simp only [Environment.sdk, hfinal]
      simp only [tyResolved_record hfinal, tyUdt, hdetails, hunion, Option.getD_some]
      refine hd.completes_fillOnce h hlossy fun w₁ hinv₁ hgrows₁ hlookup₁ => ?_
      have hin₁ : Within env met k w₁ := ⟨hinv₁, hk w₁ hgrows₁ hlookup₁⟩
      refine (completes_members hlossy (hmembers isUnion members size rfl) hin₁).imp ?_
      rintro infos w₂ ⟨hin₂, hwent₂, hinfos⟩
      refine ⟨hin₂.1, hwent₂, fun id hid =>
        ⟨_, infos.map MemberInfo.ty, rfl, ?_, ?_, optSize_getD size⟩⟩
      · rw [hid, Body.shape, zipWith_toTypeMember (hinfos.imp fun _ _ hm => hm.2)]
      · rw [Body.children, List.forall₂_map_left_iff, List.forall₂_map_right_iff]
        exact hinfos.imp fun _ _ hm => hm.1
  | enumeration e =>
      have hdetails : (env.sdk lossy).getEnumDetails d = some e.toDetails := by
        simp only [Environment.sdk, hfinal]
      have hrepr : (env.sdk lossy).getEnumRepr d = e.repr := by
        simp only [Environment.sdk, hfinal]
      have hbitmask : (env.sdk lossy).isBitmaskEnum d = e.isBitmask := by
        simp only [Environment.sdk, hfinal]
      simp only [tyResolved_enumeration hfinal, tyEnum, hdetails, hrepr, hbitmask, Option.getD_some]
      refine hd.completes_fillOnce h hlossy fun w₁ hinv₁ hgrows₁ hlookup₁ => ?_
      refine (completes_underlying hinv₁ e).imp ?_
      rintro id w₂ ⟨hinv₂, hwent₂, hstands⟩
      refine ⟨hinv₂, hwent₂, fun id' hid =>
        ⟨_, [id], rfl, ?_, .cons hstands .nil, optSize_getD (some (e.size : ℕ))⟩⟩
      have hconsts : ((e.toDetails.constants.map fun c =>
          (⟨(env.sdk lossy).lossy c.1, c.2⟩ : EnumConstInfo)).map EnumConstInfo.toMember) =
            e.constants.map fun c => ⟨c.1, c.2⟩ := by
        rw [Enumeration.toDetails, List.map_map, List.map_map]
        exact List.map_congr_left fun c _ => congrArg (EnumMember.mk · c.2) (hlossy c.1)
      rw [hid, hconsts, valueRepr_filter e.repr]
      rfl

end

/-- A body whose name has been seen is not walked again. -/
theorem completes_tyResolved_seen {body : Body TypeRef} {id : TypeId} (h : Inv env met w)
    (hlossy : DecodesUtf8 lossy) (hd : env.Describes d (some n) (.anonymous body))
    (hn : w.builder.name2type.lookup n = some id) :
    Completes (fun fuel => tyResolved (env.sdk lossy) (ty (env.sdk lossy) fuel) d) w
      fun id' w' => Inv env met w' ∧ (∃ calls, w' = { w with calls }) ∧ id' = id := by
  have hfinal := hd.final_eq
  have hname := hd.typeName_eq hlossy
  cases body with
  | record isUnion members size =>
      simp only [tyResolved_record hfinal, tyUdt]
      exact completes_fillOnce_seen h hlossy hname hn
  | enumeration e =>
      simp only [tyResolved_enumeration hfinal, tyEnum]
      exact completes_fillOnce_seen h hlossy hname hn

/-! ### Typedefs -/

theorem exists_fills_typedef {b : TypeBuilder} {id underlying : TypeId}
    (hname : (b.pending.lookup id).join = some n) (hunderlying : underlying < b.table.len) :
    ∃ value, b.table.get underlying = some value ∧
      b.fills (.fillTypedef id underlying) = some (id, ⟨.typedef n underlying, value.size⟩) := by
  obtain ⟨value, hget⟩ := TypeTable.get_isSome_iff.mpr hunderlying
  refine ⟨value, hget, ?_⟩
  rw [TypeBuilder.fills, TypeBuilder.typeSize, hget, hname]
  rfl

theorem children_knownAs :
    env.children (t.knownAs tag) = env.children t := by
  cases tag <;> cases t <;> rfl

theorem tyTypedef_eq (sdk : Sdk TypeRef) (recur : TypeRef → Walk TypeId) (t : TypeRef) :
    tyTypedef sdk recur t = fillOnce sdk t
      (((sdk.getNextTypeName t).bind sdk.getNamedType).elim (tyResolved sdk recur t) recur)
      fun id underlying => .fillTypedef id underlying := by
  rw [tyTypedef]
  cases (sdk.getNextTypeName t).bind sdk.getNamedType <;> rfl

theorem givenSize_knownAs : (t.knownAs tag).givenSize = t.givenSize := by
  cases tag <;> cases t <;> rfl

theorem knownAs_ne_named (ht : ∀ n, t ≠ .named n) (n : Text) : t.knownAs tag ≠ .named n := by
  cases tag with
  | none => exact ht n
  | some m =>
      cases t with
      | named n' => exact absurd rfl (ht n')
      | _ => simp [TypeRef.knownAs]

structure Underlies (env : Environment) (n : Text) (target : TypeRef) (id : TypeId)
    (b : TypeBuilder) (underlying : TypeId) : Prop where
  aliased : env.AliasesBody (.named n) → underlying = id
  stands : ¬env.AliasesBody (.named n) → env.Stands b (target.knownAs (some n)) underlying
  sized : ∀ size, env.EntrySize (.named n) size →
    ∃ value, b.table.get underlying = some value ∧ value.size = size

theorem Underlies.of_not_aliases {b : TypeBuilder} {id underlying : TypeId} {target : TypeRef}
    (halias : ¬env.AliasesBody (.named n))
    (hstands : env.Stands b (target.knownAs (some n)) underlying)
    (hsized : ∀ size, env.EntrySize (.named n) size →
      ∃ value, b.table.get underlying = some value ∧ value.size = size) :
    Underlies env n target id b underlying :=
  ⟨fun h => absurd h halias, fun _ => hstands, hsized⟩

/-- What a typedef stands for, walked once its own handle is there. -/
theorem completes_target (hlossy : DecodesUtf8 lossy) (hmet : env.Closes met)
    {target : TypeRef} (hn : env.definition n = some (.typedef target))
    (hreach : met (.named n)) {id : TypeId} (h : Within env met k w)
    (hid : w.builder.name2type.lookup n = some id)
    (hwalks : ∀ c, met c → Walks env lossy met k c) :
    Completes (fun fuel =>
        (((env.sdk lossy).getNextTypeName (.named n)).bind (env.sdk lossy).getNamedType).elim
          (tyResolved (env.sdk lossy) (ty (env.sdk lossy) fuel) (.named n))
          (ty (env.sdk lossy) fuel)) w
      fun underlying w' => Inv env met w' ∧ Went env met (env.nextNames n) w w' ∧
        Underlies env n target id w'.builder underlying := by
  have hchild : met (target.knownAs (some n)) := by
    refine hmet.child hreach ?_
    simp [Environment.children, hn]
  -- A typedef of a name goes one name on; any other target is walked as the typedef itself.
  by_cases hnamed : ∃ m, target = .named m
  · obtain ⟨m, rfl⟩ := hnamed
    have hm : m ∈ env.names := hmet.names hchild (List.mem_singleton_self m)
    have hnext : ((env.sdk lossy).getNextTypeName (.named n)).bind
        (env.sdk lossy).getNamedType = some (.named m) := by
      have hnext : (env.sdk lossy).getNextTypeName (.named n) = some m.asBytes := by
        simp only [Environment.sdk, hn]
      rw [hnext]
      exact Environment.getNamedType_asBytes hlossy hm
    have halias : ¬env.AliasesBody (.named n) := by
      rintro ⟨n', body, heq, hn'⟩
      cases heq
      rw [hn] at hn'
      cases hn'
    have hnames : env.nextNames n = (TypeRef.named m).names := by
      rw [Environment.nextNames, hn]
      rfl
    simp only [hnext, Option.elim_some, hnames]
    refine (hwalks _ hchild w h).imp ?_
    intro underlying w' hw'
    refine ⟨hw'.inv, hw'.went, .of_not_aliases halias hw'.stands fun size hsize => ?_⟩
    exact absurd hsize (Environment.not_entrySize_of_named hn size)
  · have hplain (m : Text) : target ≠ .named m := fun heq => hnamed ⟨m, heq⟩
    have hd : env.Describes (.named n) (some n) target := .target hn hplain
    have hnext : ((env.sdk lossy).getNextTypeName (.named n)).bind
        (env.sdk lossy).getNamedType = none := by
      have hnext : (env.sdk lossy).getNextTypeName (.named n) = none := by
        simp only [Environment.sdk, hn]
        cases target with
        | named m => exact absurd rfl (hplain m)
        | _ => rfl
      rw [hnext]
      rfl
    simp only [hnext, Option.elim_none]
    -- An unnamed body goes by the typedef's name, whose handle it finds again.
    by_cases hbody : ∃ body, target = .anonymous body
    · obtain ⟨body, rfl⟩ := hbody
      have halias : env.AliasesBody (.named n) := ⟨n, body, rfl, hn⟩
      have hnames : env.nextNames n = [] := by rw [Environment.nextNames, hn]
      rw [hnames]
      refine (completes_tyResolved_seen h.1 hlossy hd hid).imp ?_
      rintro underlying w' ⟨hinv, ⟨calls, rfl⟩, heq⟩
      refine ⟨hinv, .still calls, fun _ => heq, fun h => absurd halias h, fun size hsize => ?_⟩
      exact absurd hsize (Environment.not_entrySize_of_body hn size)
    · have halias : ¬env.AliasesBody (.named n) := by
        rintro ⟨n', body, heq, hn'⟩
        cases heq
        rw [hn] at hn'
        cases hn'
        exact hbody ⟨body, rfl⟩
      have hchildren (c : TypeRef) (hc : c ∈ env.children target) :
          Walks env lossy met k c := by
        refine hwalks c (hmet.child hchild ?_)
        rw [children_knownAs]
        exact hc
      have hnames : env.nextNames n = target.names := by
        rw [Environment.nextNames, hn]
        cases target with
        | anonymous body => exact absurd ⟨body, rfl⟩ hbody
        | _ => rfl
      rw [hnames]
      refine (completes_tyResolved hchildren h hlossy hd hplain
        fun body heq => hbody ⟨body, heq⟩).imp ?_
      intro underlying w' hw'
      refine ⟨hw'.inv, hw'.went, .of_not_aliases halias hw'.stands fun size hsize => ?_⟩
      obtain ⟨value, hget, hvalue⟩ := hw'.sized (knownAs_ne_named hplain)
      refine ⟨value, hget, hvalue.trans (givenSize_knownAs.trans ?_)⟩
      exact Environment.entrySize_of_plain hn hsize

theorem completes_tyTypedef (hlossy : DecodesUtf8 lossy) (hmet : env.Closes met)
    {target : TypeRef} (hn : env.definition n = some (.typedef target))
    (hreach : met (.named n)) (h : Within env met k w)
    (hwalks : ∀ k' < k, ∀ c, met c → Walks env lossy met k' c) :
    Completes (fun fuel => tyTypedef (env.sdk lossy) (ty (env.sdk lossy) fuel) (.named n)) w
      (Stood env met [n] w (.named n)) := by
  have hname := Environment.typeName_named hlossy hn
  simp only [tyTypedef_eq]
  cases hseen : w.builder.name2type.lookup n with
  | some id =>
      refine (completes_fillOnce_seen h.1 hlossy hname hseen).imp ?_
      rintro id' w' ⟨hinv, ⟨calls, rfl⟩, rfl⟩
      exact .of_seen hinv hseen
  | none =>
      have htag {P : Text → Prop} (hp : P n) : ∀ m ∈ some n, P m := by
        rintro m hm
        cases hm
        exact hp
      have hname : typeName (env.sdk lossy) (.named n) = (some n).map Text.asBytes := hname
      have hmem : n ∈ env.names := Environment.mem_names_iff.mpr ⟨_, hn⟩
      have hown : TypeRef.named n = .named n ∧ n ∈ env.names ∧ env.nextNames n = env.nextNames n :=
        ⟨rfl, hmem, rfl⟩
      show Completes _ w (Stood env met ((some n).elim (env.nextNames n) fun m => [m]) w _)
      refine completes_fillOnce_new h.1 hlossy hname (htag hseen) (htag hreach)
        (fun m hm => by cases hm; exact hown)
        (fun hnone => nomatch hnone) fun w₁ hinv₁ hgrows₁ hpending₁ hlookup₁ => ?_
      have hid := hlookup₁ n rfl
      -- The name has its handle now, so the target is walked with fewer names to see.
      have hlt := card_unseen_lt hgrows₁ hmem hseen hid
      refine (completes_target hlossy hmet hn hreach ⟨hinv₁, le_rfl⟩ hid
        (hwalks _ (hlt.trans_le h.2))).imp ?_
      rintro underlying w₂ ⟨hinv₂, hwent₂, hunder⟩
      have hunderlying : underlying < w₂.builder.table.len := by
        by_cases hbody : env.AliasesBody (.named n)
        · rw [hunder.aliased hbody]
          exact hinv₂.named_lt n _ (hwent₂.grows.named n _ hid)
        · exact hinv₂.stands_lt (hunder.stands hbody)
      have hpending : (w₂.builder.pending.lookup w.builder.table.len).join = some n := by
        rw [hwent₂.pending_eq, hpending₁, List.lookup_cons_self]
        rfl
      obtain ⟨value, hget, hfills⟩ := exists_fills_typedef hpending hunderlying
      refine ⟨hinv₂, hwent₂, _, hfills, fun hbody => ?_, fun hbody => ?_, fun size hsize => ?_⟩
      · exact ⟨n, rfl, by rw [hunder.aliased hbody]⟩
      · refine ⟨[underlying], ?_, ?_⟩
        · simp [Environment.shape, hn]
        · simpa [Environment.children, hn] using hunder.stands hbody
      · obtain ⟨value', hget', hvalue'⟩ := hunder.sized size hsize
        rw [hget] at hget'
        cases hget'
        exact hvalue'

/-! ### The whole walk -/

/-- A walk that keeps the invariant ends, however the names refer to each
other: by the names not yet seen, then by the size of the reference. -/
theorem walks_of_met (hlossy : DecodesUtf8 lossy) (hmet : env.Closes met) (k : ℕ)
    (hreach : met t) : Walks env lossy met k t := by
  -- Names not yet seen bound how often a definition is entered, sizes the walk between two of them.
  induction k using Nat.strong_induction_on generalizing t with
  | _ k ihNames =>
  induction hsize : sizeOf t using Nat.strong_induction_on generalizing t with
  | _ size ihSize =>
  subst hsize
  intro w hin
  refine Completes.of_succ (fun _ => rfl) ?_
  show Completes (fun fuel => tyWith (env.sdk lossy) (ty (env.sdk lossy) fuel) t) w _
  by_cases hnamed : ∃ n, t = .named n
  · obtain ⟨n, rfl⟩ := hnamed
    obtain ⟨d, hn⟩ := hmet.definition hreach
    cases d with
    | typedef target =>
        have htypedef : (env.sdk lossy).isTypedef (.named n) = true := by
          simp only [Environment.sdk, hn]
        have hempty : (env.sdk lossy).empty (.named n) = false := rfl
        simp only [tyWith, hempty, htypedef, Bool.not_false, Bool.and_self, if_true]
        exact completes_tyTypedef hlossy hmet hn hreach hin
          fun k' hk' c hc => ihNames k' hk' hc
    | type body =>
        have htypedef : (env.sdk lossy).isTypedef (.named n) = false := by
          simp only [Environment.sdk, hn]
        simp only [tyWith, htypedef, Bool.and_false, Bool.false_eq_true, if_false]
        cases hseen : w.builder.name2type.lookup n with
        | some id =>
            refine (completes_tyResolved_seen hin.1 hlossy (.body hn) hseen).imp ?_
            rintro id' w' ⟨hinv, ⟨calls, rfl⟩, rfl⟩
            exact .of_seen hinv hseen
        | none =>
            have hmem : n ∈ env.names := Environment.mem_names_iff.mpr ⟨_, hn⟩
            -- The name is one of those not yet seen, and reserving its handle leaves fewer.
            have hpos : 0 < (unseen env w).card := Finset.card_pos.mpr
              ⟨n, Finset.mem_filter.mpr ⟨List.mem_toFinset.mpr hmem, hseen⟩⟩
            have hless : (unseen env w).card - 1 < k := by
              have hle := hin.2
              omega
            refine (Unmet.named hn hseen hreach).completes_tyResolved hin.1 hlossy
              (k := (unseen env w).card - 1) (fun w₁ hgrows hlookup => ?_)
              fun isUnion members size hbody m hm => ?_
            · obtain ⟨id, hid⟩ := hlookup n rfl
              have hlt := card_unseen_lt hgrows hmem hseen hid
              omega
            · refine ihNames _ hless (hmet.child hreach ?_)
              simp only [Environment.children, hn, hbody]
              exact List.mem_map_of_mem hm
  · have hplain (n : Text) : t ≠ .named n := fun heq => hnamed ⟨n, heq⟩
    have htypedef : (env.sdk lossy).isTypedef t = false := by
      cases t with
      | named n => exact absurd rfl (hplain n)
      | _ => rfl
    simp only [tyWith, htypedef, Bool.and_false, Bool.false_eq_true, if_false]
    have hchildren (henum : ∀ e, t ≠ .anonymous (.enumeration e)) (c : TypeRef)
        (hc : c ∈ env.children t) : Walks env lossy met k c :=
      ihSize _ (Environment.sizeOf_lt_of_mem_children hplain henum hc) (hmet.child hreach hc) rfl
    by_cases hbody : ∃ body, t = .anonymous body
    · obtain ⟨body, rfl⟩ := hbody
      refine (Unmet.unnamed body).completes_tyResolved hin.1 hlossy (k := k) ?_ ?_
      · exact fun w₁ hgrows _ => (Finset.card_le_card (unseen_subset hgrows)).trans hin.2
      · rintro isUnion members size rfl m hm
        refine hchildren (by simp) m.type ?_
        exact List.mem_map_of_mem hm
    · exact completes_tyResolved (hchildren fun e heq => hbody ⟨_, heq⟩) hin hlossy
        (.plain hplain) hplain fun body heq => hbody ⟨body, heq⟩

end Idakit.Facade
