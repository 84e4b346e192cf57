import Mathlib.Data.List.Nodup
import Mathlib.Data.List.Perm.Basic
import Mathlib.Data.Prod.Basic

/-!
Matching the entries of two lists. `firstMatch` is greedy: every entry of
the first list in turn takes the first entry of the second that fits it and
is still free. `uniqueMatch` pairs two entries when no other entry on either
side has their key. Both account for every entry of both lists, and neither
depends on which of the two lists is walked.
-/

namespace Idakit.Library

universe u

variable {α β γ κ : Type u}

/-- The matched pairs of two lists, and what is left over on either side, in
order. -/
structure Matching (α β : Type u) where
  pairs : List (α × β)
  left : List α
  right : List β

/-! ### Greedy matching -/

/-- Every entry of the first list takes the first entry of the second that
fits it and is still free. -/
def firstMatch (fits : α → β → Bool) : List α → List β → Matching α β
  | [], R => ⟨[], [], R⟩
  | a :: L, R =>
    match R.find? (fits a) with
    | some b =>
        let m := firstMatch fits L (R.eraseP (fits a))
        { m with pairs := (a, b) :: m.pairs }
    | none =>
        let m := firstMatch fits L R
        { m with left := a :: m.left }

/-- What fits an entry first splits the list it is in. -/
theorem fits_none_or_split (fits : α → β → Bool) (a : α) (R : List β) :
    (∀ b ∈ R, fits a b = false) ∨
      ∃ A b B, R = A ++ b :: B ∧ fits a b = true ∧ ∀ x ∈ A, fits a x = false := by
  cases h : R.find? (fits a) with
  | none => exact .inl fun b hb => by simpa using List.find?_eq_none.mp h b hb
  | some b =>
      obtain ⟨hb, A, B, rfl, hA⟩ := List.find?_eq_some_iff_append.mp h
      exact .inr ⟨A, b, B, rfl, hb, fun x hx => by simpa using hA x hx⟩

section

variable {fits : α → β → Bool}

theorem firstMatch_of_none {a : α} {L : List α} {R : List β}
    (h : ∀ b ∈ R, fits a b = false) :
    firstMatch fits (a :: L) R =
      { firstMatch fits L R with left := a :: (firstMatch fits L R).left } := by
  have hfind : R.find? (fits a) = none := List.find?_eq_none.mpr fun b hb => by simp [h b hb]
  rw [firstMatch, hfind]

theorem firstMatch_of_split {a : α} {L : List α} {A : List β} {b : β} {B : List β}
    (hb : fits a b = true) (hA : ∀ x ∈ A, fits a x = false) :
    firstMatch fits (a :: L) (A ++ b :: B) =
      { firstMatch fits L (A ++ B) with
        pairs := (a, b) :: (firstMatch fits L (A ++ B)).pairs } := by
  have hfind : (A ++ b :: B).find? (fits a) = some b :=
    List.find?_eq_some_iff_append.mpr ⟨hb, A, B, rfl, fun x hx => by simp [hA x hx]⟩
  have herase : (A ++ b :: B).eraseP (fits a) = A ++ B := by
    rw [List.eraseP_append_right _ fun x hx => by simp [hA x hx], List.eraseP_cons_of_pos hb]
  rw [firstMatch, hfind]
  simp only [herase]

/-- Every entry of the first list is matched or left over. -/
theorem firstMatch_left_perm (fits : α → β → Bool) (L : List α) (R : List β) :
    L.Perm ((firstMatch fits L R).pairs.map Prod.fst ++ (firstMatch fits L R).left) := by
  induction L generalizing R with
  | nil => exact .refl _
  | cons a L ih =>
      rcases fits_none_or_split fits a R with h | ⟨A, b, B, rfl, hb, hA⟩
      · rw [firstMatch_of_none h]
        exact ((ih R).cons a).trans List.perm_middle.symm
      · rw [firstMatch_of_split hb hA]
        exact (ih (A ++ B)).cons a

/-- Every entry of the second list is matched or left over. -/
theorem firstMatch_right_perm (fits : α → β → Bool) (L : List α) (R : List β) :
    R.Perm ((firstMatch fits L R).pairs.map Prod.snd ++ (firstMatch fits L R).right) := by
  induction L generalizing R with
  | nil => exact .refl _
  | cons a L ih =>
      rcases fits_none_or_split fits a R with h | ⟨A, b, B, rfl, hb, hA⟩
      · rw [firstMatch_of_none h]
        exact ih R
      · rw [firstMatch_of_split hb hA]
        exact List.perm_middle.trans ((ih (A ++ B)).cons b)

theorem fits_of_mem_firstMatch {L : List α} {R : List β} {p : α × β}
    (hp : p ∈ (firstMatch fits L R).pairs) : fits p.1 p.2 = true := by
  induction L generalizing R with
  | nil => cases hp
  | cons a L ih =>
      rcases fits_none_or_split fits a R with h | ⟨A, b, B, rfl, hb, hA⟩
      · rw [firstMatch_of_none h] at hp
        exact ih hp
      · rw [firstMatch_of_split hb hA] at hp
        rcases List.mem_cons.mp hp with rfl | hp
        · exact hb
        · exact ih hp

/-- Nothing left over fits anything left over. -/
theorem not_fits_of_left_right {L : List α} {R : List β} {a : α} {b : β}
    (ha : a ∈ (firstMatch fits L R).left) (hb : b ∈ (firstMatch fits L R).right) :
    fits a b = false := by
  induction L generalizing R with
  | nil => cases ha
  | cons c L ih =>
      rcases fits_none_or_split fits c R with h | ⟨A, d, B, rfl, hd, hA⟩
      · rw [firstMatch_of_none h] at ha hb
        have hright : b ∈ (firstMatch fits L R).right := hb
        rcases List.mem_cons.mp ha with rfl | ha
        · exact h b ((firstMatch_right_perm _ L R).mem_iff.mpr (List.mem_append_right _ hright))
        · exact ih ha hright
      · rw [firstMatch_of_split hd hA] at ha hb
        exact ih ha hb

/-- Two entries that fit each other and nothing else are matched. -/
theorem mem_firstMatch_of_only {L : List α} {R : List β} {a : α} {b : β} (ha : a ∈ L)
    (hb : b ∈ R) (hfits : fits a b = true) (honly : ∀ x ∈ L, fits x b = true → x = a)
    (honly' : ∀ y ∈ R, fits a y = true → y = b) : (a, b) ∈ (firstMatch fits L R).pairs := by
  have hleft := firstMatch_left_perm fits L R
  have hright := firstMatch_right_perm fits L R
  rcases List.mem_append.mp (hleft.mem_iff.mp ha) with ha' | ha'
  · obtain ⟨p, hp, rfl⟩ := List.mem_map.mp ha'
    have hmem : p.2 ∈ R := hright.mem_iff.mpr (List.mem_append_left _ (List.mem_map_of_mem hp))
    rw [← honly' p.2 hmem (fits_of_mem_firstMatch hp)]
    exact hp
  · rcases List.mem_append.mp (hright.mem_iff.mp hb) with hb' | hb'
    · obtain ⟨p, hp, rfl⟩ := List.mem_map.mp hb'
      have hmem : p.1 ∈ L := hleft.mem_iff.mpr (List.mem_append_left _ (List.mem_map_of_mem hp))
      rw [← honly p.1 hmem (fits_of_mem_firstMatch hp)]
      exact hp
    · exact absurd hfits (by simp [not_fits_of_left_right ha' hb'])

/-- What is matched once is not left over. -/
theorem not_mem_left_of_mem_pairs {L : List α} {R : List β} (hL : L.Nodup) {p : α × β}
    (hp : p ∈ (firstMatch fits L R).pairs) : p.1 ∉ (firstMatch fits L R).left := by
  have hnodup := (firstMatch_left_perm fits L R).nodup_iff.mp hL
  exact List.disjoint_of_nodup_append hnodup (List.mem_map_of_mem hp)

structure IsSwap (m : Matching α β) (m' : Matching β α) : Prop where
  pairs : (m.pairs.map Prod.swap).Perm m'.pairs
  left : m'.left = m.right
  right : m'.right = m.left

/-- An entry nothing on the other side fits stays where it is. -/
theorem firstMatch_right_of_none {fits' : β → α → Bool} {a : α} (L : List α) {R : List β}
    (h : ∀ b ∈ R, fits' b a = false) :
    firstMatch fits' R (a :: L) =
      { firstMatch fits' R L with right := a :: (firstMatch fits' R L).right } := by
  induction R generalizing L with
  | nil => rfl
  | cons b R ih =>
      have hb := h b (by simp)
      have hR := fun x hx => h x (List.mem_cons_of_mem b hx)
      rcases fits_none_or_split fits' b L with hnone | ⟨C, y, D, rfl, hy, hC⟩
      · rw [firstMatch_of_none hnone, firstMatch_of_none (by simpa [hb] using hnone), ih L hR]
      · have hcons : ∀ x ∈ a :: C, fits' b x = false := by simpa [hb] using hC
        rw [← List.cons_append, firstMatch_of_split hy hcons, List.cons_append,
          ih (C ++ D) hR, firstMatch_of_split hy hC]

/-- An entry is taken by the first entry on the other side that it fits. -/
theorem firstMatch_right_of_split {fits' : β → α → Bool} {a : α} (L : List α) {A : List β}
    {b : β} {B : List β} (hb : fits' b a = true) (hA : ∀ x ∈ A, fits' x a = false) :
    ((b, a) :: (firstMatch fits' (A ++ B) L).pairs).Perm
        (firstMatch fits' (A ++ b :: B) (a :: L)).pairs ∧
      (firstMatch fits' (A ++ b :: B) (a :: L)).left = (firstMatch fits' (A ++ B) L).left ∧
      (firstMatch fits' (A ++ b :: B) (a :: L)).right =
        (firstMatch fits' (A ++ B) L).right := by
  induction A generalizing L with
  | nil =>
      have hsplit : firstMatch fits' ([] ++ b :: B) (a :: L) = _ :=
        firstMatch_of_split (A := []) hb (by simp)
      rw [hsplit]
      exact ⟨.refl _, rfl, rfl⟩
  | cons x A ih =>
      have hx := hA x (by simp)
      have hA' := fun y hy => hA y (List.mem_cons_of_mem x hy)
      rcases fits_none_or_split fits' x L with hnone | ⟨C, y, D, rfl, hy, hC⟩
      · obtain ⟨hpairs, hleft, hright⟩ := ih L hA'
        rw [List.cons_append, List.cons_append, firstMatch_of_none hnone,
          firstMatch_of_none (by simpa [hx] using hnone)]
        exact ⟨hpairs, congrArg (x :: ·) hleft, hright⟩
      · obtain ⟨hpairs, hleft, hright⟩ := ih (C ++ D) hA'
        have hcons : ∀ z ∈ a :: C, fits' x z = false := by simpa [hx] using hC
        have hsplit : firstMatch fits' (x :: A ++ B) (C ++ y :: D) = _ :=
          firstMatch_of_split hy hC
        have hsplit' : firstMatch fits' (x :: A ++ b :: B) (a :: (C ++ y :: D)) = _ :=
          firstMatch_of_split (A := a :: C) hy hcons
        rw [hsplit, hsplit']
        exact ⟨(List.Perm.swap _ _ _).trans (hpairs.cons (x, y)), hleft, hright⟩

/-- Greedy matching does not depend on which side is walked. -/
theorem firstMatch_swap {fits' : β → α → Bool} (hfits : ∀ a b, fits' b a = fits a b)
    (L : List α) (R : List β) : IsSwap (firstMatch fits L R) (firstMatch fits' R L) := by
  induction L generalizing R with
  | nil =>
      induction R with
      | nil => exact ⟨.refl _, rfl, rfl⟩
      | cons b R ih =>
          rw [firstMatch_of_none (by simp)]
          exact ⟨ih.pairs, congrArg (b :: ·) ih.left, ih.right⟩
  | cons a L ih =>
      rcases fits_none_or_split fits a R with h | ⟨A, b, B, rfl, hb, hA⟩
      · rw [firstMatch_of_none h, firstMatch_right_of_none L fun b hb => (hfits a b).trans (h b hb)]
        exact ⟨(ih R).pairs, (ih R).left, congrArg (a :: ·) (ih R).right⟩
      · obtain ⟨hpairs, hleft, hright⟩ := firstMatch_right_of_split (B := B) L
          ((hfits a b).trans hb) fun x hx => (hfits a x).trans (hA x hx)
        have hih := ih (A ++ B)
        rw [firstMatch_of_split hb hA]
        exact ⟨(hih.pairs.cons (b, a)).trans hpairs, hleft.trans hih.left,
          hright.trans hih.right⟩

end

/-! ### Matching by unique keys -/

def only : List α → Option α
  | [a] => some a
  | _ => none

section

variable [DecidableEq κ] (key : α → Option κ) (key' : β → Option κ)

/-- The partner of an entry: the one entry of the second list with its key,
if no other entry of the first has it. -/
def partner (L : List α) (R : List β) (a : α) : Option β := do
  let k ← key a
  let _ ← only (L.filter fun x => key x = some k)
  only (R.filter fun x => key' x = some k)

def uniqueMatch (L : List α) (R : List β) : Matching α β where
  pairs := L.filterMap fun a => (partner key key' L R a).map (a, ·)
  left := L.filter fun a => (partner key key' L R a).isNone
  right := R.filter fun b => (partner key' key R L b).isNone

variable {key key'} {L : List α} {R : List β} {a : α} {b : β}

theorem only_eq_some_iff {l : List α} : only l = some a ↔ l = [a] := by
  match l with
  | [] => simp [only]
  | [x] => simp [only]
  | x :: y :: l => simp [only]

theorem partner_eq_some_iff (ha : a ∈ L) :
    partner key key' L R a = some b ↔
      ∃ k, key a = some k ∧ (L.filter fun x => key x = some k) = [a] ∧
        (R.filter fun x => key' x = some k) = [b] := by
  simp only [partner, Option.bind_eq_bind, Option.bind_eq_some_iff, only_eq_some_iff]
  constructor
  · rintro ⟨k, hk, x, hx, hb⟩
    have hmem : a ∈ L.filter fun x => key x = some k := List.mem_filter.mpr ⟨ha, by simp [hk]⟩
    rw [hx, List.mem_singleton] at hmem
    subst hmem
    exact ⟨k, hk, hx, hb⟩
  · rintro ⟨k, hk, hx, hb⟩
    exact ⟨k, hk, a, hx, hb⟩

/-- Partners are partners of one another. -/
theorem partner_symm (ha : a ∈ L) (h : partner key key' L R a = some b) :
    b ∈ R ∧ partner key' key R L b = some a := by
  obtain ⟨k, hk, hL, hR⟩ := (partner_eq_some_iff ha).mp h
  have hb : b ∈ R.filter fun x => key' x = some k := by
    rw [hR]
    exact List.mem_singleton_self b
  obtain ⟨hbR, hkb⟩ := List.mem_filter.mp hb
  exact ⟨hbR, (partner_eq_some_iff hbR).mpr ⟨k, by simpa using hkb, hR, hL⟩⟩

theorem mem_uniqueMatch_pairs {p : α × β} :
    p ∈ (uniqueMatch key key' L R).pairs ↔
      p.1 ∈ L ∧ partner key key' L R p.1 = some p.2 := by
  obtain ⟨a, b⟩ := p
  simp [uniqueMatch, List.mem_filterMap]

/-- No pair is matched twice: an entry that occurs twice shares its key with
itself. -/
theorem nodup_uniqueMatch_pairs : (uniqueMatch key key' L R).pairs.Nodup := by
  rw [List.Nodup, uniqueMatch, List.pairwise_filterMap, List.pairwise_iff_forall_sublist]
  intro x y hsub p hp q hq hpq
  subst hpq
  obtain ⟨b, hx, rfl⟩ := Option.map_eq_some_iff.mp hp
  obtain ⟨b', hy, hpair⟩ := Option.map_eq_some_iff.mp hq
  obtain ⟨rfl, rfl⟩ := Prod.mk.inj hpair
  have hmem : y ∈ L := hsub.subset (by simp)
  obtain ⟨k, hk, hL, -⟩ := (partner_eq_some_iff hmem).mp hx
  have htwice := (hsub.filter fun z => decide (key z = some k)).length_le
  simp [hL, hk] at htwice

/-- Matching by unique keys does not depend on the order of the sides. -/
theorem uniqueMatch_swap (L : List α) (R : List β) :
    IsSwap (uniqueMatch key key' L R) (uniqueMatch key' key R L) := by
  refine ⟨?_, rfl, rfl⟩
  have hnodup : ((uniqueMatch key key' L R).pairs.map Prod.swap).Nodup :=
    nodup_uniqueMatch_pairs.map Prod.swap_injective
  refine (List.perm_ext_iff_of_nodup hnodup nodup_uniqueMatch_pairs).mpr fun p => ?_
  obtain ⟨b, a⟩ := p
  rw [mem_uniqueMatch_pairs]
  constructor
  · intro h
    obtain ⟨⟨a', b'⟩, hp, hswap⟩ := List.mem_map.mp h
    obtain ⟨rfl, rfl⟩ := Prod.mk.inj hswap
    obtain ⟨ha, hpartner⟩ := mem_uniqueMatch_pairs.mp hp
    exact partner_symm ha hpartner
  · rintro ⟨hb, hpartner⟩
    refine List.mem_map.mpr ⟨(a, b), ?_, rfl⟩
    exact mem_uniqueMatch_pairs.mpr (partner_symm hb hpartner)

/-- Every entry of the first list is matched or left over. -/
theorem uniqueMatch_left_perm (L : List α) (R : List β) :
    L.Perm ((uniqueMatch key key' L R).pairs.map Prod.fst ++
      (uniqueMatch key key' L R).left) := by
  have hfst : (uniqueMatch key key' L R).pairs.map Prod.fst =
      L.filter fun a => !(partner key key' L R a).isNone := by
    rw [uniqueMatch, List.map_filterMap, ← List.filterMap_eq_filter]
    refine List.filterMap_congr fun a _ => ?_
    cases h : partner key key' L R a <;> simp [Option.guard, h]
  rw [hfst]
  refine (List.filter_append_perm (fun a => !(partner key key' L R a).isNone) L).symm.trans ?_
  simp [uniqueMatch]

/-- Every entry of the second list is matched or left over. -/
theorem uniqueMatch_right_perm (L : List α) (R : List β) :
    R.Perm ((uniqueMatch key key' L R).pairs.map Prod.snd ++
      (uniqueMatch key key' L R).right) := by
  have hswap : IsSwap (uniqueMatch key key' L R) (uniqueMatch key' key R L) :=
    uniqueMatch_swap L R
  have hfst := (hswap.pairs.map Prod.fst).symm
  rw [List.map_map] at hfst
  exact (uniqueMatch_left_perm R L).trans (hfst.append_right _)

theorem filter_key_eq_singleton {key : α → κ} (h : (L.map key).Nodup) (ha : a ∈ L) :
    (L.filter fun x => some (key x) = some (key a)) = [a] := by
  refine List.perm_singleton.mp ((List.perm_ext_iff_of_nodup (h.of_map.filter _)
    (List.nodup_singleton a)).mpr fun x => ?_)
  rw [List.mem_filter, List.mem_singleton]
  constructor
  · rintro ⟨hx, hkey⟩
    exact List.inj_on_of_nodup_map h hx ha (by simpa using hkey)
  · rintro rfl
    exact ⟨ha, by simp⟩

/-- Where the keys of both lists are distinct, an entry's partner is the first
entry with its key. -/
theorem partner_eq_find? {key : α → κ} {key' : β → κ} (hL : (L.map key).Nodup)
    (hR : (R.map key').Nodup) (ha : a ∈ L) {p : β → Bool}
    (hp : ∀ b, p b = true ↔ key' b = key a) :
    partner (fun a => some (key a)) (fun b => some (key' b)) L R a = R.find? p := by
  ext b
  have hfind : R.find? p = some b ↔ b ∈ R ∧ key' b = key a := by
    constructor
    · intro h
      exact ⟨List.mem_of_find?_eq_some h, (hp b).mp (List.find?_some h)⟩
    · rintro ⟨hb, hkey⟩
      obtain ⟨c, hc⟩ := Option.isSome_iff_exists.mp
        (List.find?_isSome.mpr ⟨b, hb, (hp b).mpr hkey⟩)
      have hkc := (hp c).mp (List.find?_some hc)
      rw [hc, List.inj_on_of_nodup_map hR (List.mem_of_find?_eq_some hc) hb (hkc.trans hkey.symm)]
  rw [hfind, partner_eq_some_iff ha]
  constructor
  · rintro ⟨k, hk, -, hb⟩
    have hmem : b ∈ R.filter fun x => some (key' x) = some k := hb ▸ List.mem_singleton_self b
    obtain ⟨hbR, hkb⟩ := List.mem_filter.mp hmem
    have hkb : some (key' b) = some k := by simpa using hkb
    exact ⟨hbR, Option.some.inj (hkb.trans hk.symm)⟩
  · rintro ⟨hb, hkey⟩
    refine ⟨key a, rfl, ?_, ?_⟩
    · exact filter_key_eq_singleton hL ha
    · rw [← hkey]
      exact filter_key_eq_singleton hR hb

/-- A list told apart by who has a partner. -/
theorem flatMap_partner_perm (key : α → Option κ) (key' : β → Option κ) (f : α × β → List γ)
    (g : α → List γ) (L : List α) (R : List β) :
    (L.flatMap fun a => match partner key key' L R a with
      | some b => f (a, b)
      | none => g a).Perm
      ((uniqueMatch key key' L R).pairs.flatMap f ++ (uniqueMatch key key' L R).left.flatMap g) := by
  have hperm (o : α → Option β) (L : List α) :
      (L.flatMap fun a => match o a with
        | some b => f (a, b)
        | none => g a).Perm
        ((L.filterMap fun a => (o a).map (a, ·)).flatMap f ++
          (L.filter fun a => (o a).isNone).flatMap g) := by
    induction L with
    | nil => exact .refl _
    | cons a L ih =>
        rw [List.flatMap_cons, List.filterMap_cons, List.filter_cons]
        cases h : o a with
        | none =>
            refine (ih.append_left _).trans ?_
            simpa using List.perm_append_comm_assoc _ _ _
        | some b => simpa using ih.append_left (f (a, b))
  exact hperm _ L

end

end Idakit.Library
