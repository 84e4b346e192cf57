import Idakit.Types.Canonical.Meetings
import Mathlib.Data.Multiset.Bind

/-!
The diff in the other direction. Both passes of the member pairing are
symmetric: greedy matching by name takes the same pairs from either side,
and an offset unique on both sides is so for either. So the two directions
report the same changes with their sides exchanged, up to the order.
-/

namespace Idakit.Types.Canonical

open Idakit.Library
open CanonicalType

/-- The same change seen from the other side. A rename has none of its own,
for it keeps only the name that is gone. -/
def ChangeKind.mirror : ChangeKind → Option ChangeKind
  | .added type => some (.removed type)
  | .removed type => some (.added type)
  | .retyped left right => some (.retyped right left)
  | .renamed _ => none
  | .moved src dst => some (.moved dst src)
  | .bitfieldChanged src dst => some (.bitfieldChanged dst src)
  | .sizeChanged left right => some (.sizeChanged right left)
  | .constantAdded value => some (.constantRemoved value)
  | .constantRemoved value => some (.constantAdded value)
  | .constantChanged left right => some (.constantChanged right left)

/-- Two changes of the two directions that report the same difference. A
rename is anchored at the name its own side does not keep. -/
inductive Mirror : Change → Change → Prop
  | swap {path path' kind kind'} (h : kind.mirror = some kind') :
      Mirror ⟨path, kind⟩ ⟨path', kind'⟩
  | renamed (l r : Member) {parent parent'} :
      Mirror ⟨pathIn r parent, .renamed l.name⟩ ⟨pathIn l parent', .renamed r.name⟩

def Mirrors (xs ys : List Change) : Prop :=
  Multiset.Rel Mirror (xs : Multiset Change) (ys : Multiset Change)

theorem mirrors_nil : Mirrors [] [] := .zero

theorem mirrors_singleton {c c' : Change} (h : Mirror c c') : Mirrors [c] [c'] := .cons h .zero

theorem Mirrors.append {xs xs' ys ys' : List Change} (h : Mirrors xs ys)
    (h' : Mirrors xs' ys') : Mirrors (xs ++ xs') (ys ++ ys') := by
  rw [Mirrors, ← Multiset.coe_add, ← Multiset.coe_add]
  exact h.add h'

theorem Mirrors.perm {xs xs' ys ys' : List Change} (h : Mirrors xs ys) (hx : xs'.Perm xs)
    (hy : ys'.Perm ys) : Mirrors xs' ys' := by
  rw [Mirrors, Multiset.coe_eq_coe.mpr hx, Multiset.coe_eq_coe.mpr hy]
  exact h

theorem mirrors_flatMap {α : Type} {ps : List α} {f g : α → List Change}
    (h : ∀ p ∈ ps, Mirrors (f p) (g p)) : Mirrors (ps.flatMap f) (ps.flatMap g) := by
  induction ps with
  | nil => exact mirrors_nil
  | cons p ps ih =>
      rw [List.flatMap_cons, List.flatMap_cons]
      exact (h p List.mem_cons_self).append (ih fun q hq => h q (List.mem_cons_of_mem p hq))

theorem mirrors_map {α : Type} {ps : List α} {f g : α → Change}
    (h : ∀ p ∈ ps, Mirror (f p) (g p)) : Mirrors (ps.map f) (ps.map g) := by
  rw [Mirrors, ← Multiset.map_coe, ← Multiset.map_coe]
  exact Multiset.rel_map.mpr (Multiset.rel_refl_of_refl_on h)

/-! ### Members -/

theorem pairByName_swap (lm rm : List Member) :
    IsSwap (pairByName lm rm) (pairByName rm lm) := by
  refine firstMatch_swap (fun l r => ?_) lm rm
  by_cases h : l.name = r.name
  · rw [h]
  · have hlr : (l.name == r.name) = false := beq_eq_false_iff_ne.mpr h
    have hrl : (r.name == l.name) = false := beq_eq_false_iff_ne.mpr (Ne.symm h)
    rw [hlr, hrl, Bool.and_false, Bool.and_false]

/-- The pairing from the other side has the pairs turned around, and what was
added is removed. -/
theorem pairMembers_swap (lm rm : List Member) :
    (pairMembers rm lm).pairs.Perm
        ((pairMembers lm rm).pairs.map fun p => (p.2.1, p.1, p.2.2)) ∧
      (pairMembers rm lm).removed = (pairMembers lm rm).added ∧
      (pairMembers rm lm).added = (pairMembers lm rm).removed := by
  have hname := pairByName_swap lm rm
  have hoffset : IsSwap (pairByOffset (pairByName lm rm).left (pairByName lm rm).right)
      (pairByOffset (pairByName lm rm).right (pairByName lm rm).left) :=
    uniqueMatch_swap _ _
  simp only [pairMembers, hname.left, hname.right, List.map_append, List.map_map]
  refine ⟨?_, hoffset.left, hoffset.right⟩
  refine List.Perm.append ?_ ?_
  · have hpairs := (hname.pairs.map fun p => (p.1, p.2, false)).symm
    rwa [List.map_map] at hpairs
  · have hpairs := (hoffset.pairs.map fun p => (p.1, p.2, true)).symm
    rwa [List.map_map] at hpairs

theorem structural_swap (lm rm : List Member) :
    (pairMembers rm lm).structural = (pairMembers lm rm).structural := by
  obtain ⟨-, hremoved, hadded⟩ := pairMembers_swap lm rm
  rw [Pairing.structural, Pairing.structural, hremoved, hadded, Bool.or_comm]

theorem mirrors_renameChange (l r : Member) (path path' : Text) (renamed : Bool) :
    Mirrors (renameChange l r path renamed) (renameChange r l path' renamed) := by
  have hcomm : (r.name != l.name) = (l.name != r.name) := bne_comm
  rw [renameChange, renameChange, hcomm]
  split
  · exact mirrors_singleton (.renamed l r)
  · exact mirrors_nil

theorem mirrors_slotChanges (l r : Member) (path path' : Text) (reportMove : Bool) :
    Mirrors (slotChanges l r path reportMove) (slotChanges r l path' reportMove) := by
  refine Mirrors.append ?_ ?_
  · by_cases h : l.bitfieldWidth = r.bitfieldWidth
    · rw [if_pos h, if_pos h.symm]
      exact mirrors_nil
    · rw [if_neg h, if_neg (Ne.symm h)]
      exact mirrors_singleton (.swap rfl)
  · cases reportMove with
    | false => exact mirrors_nil
    | true =>
        cases hl : l.bitOffset with
        | none => cases r.bitOffset <;> exact mirrors_nil
        | some src =>
            cases hr : r.bitOffset with
            | none => exact mirrors_nil
            | some dst =>
                by_cases h : src = dst
                · simp [h, mirrors_nil]
                · simpa [h, Ne.symm h] using mirrors_singleton (.swap rfl)

theorem mirrors_sizeChange (path path' : Text) (ls rs : Option ℕ) :
    Mirrors (sizeChange path ls rs) (sizeChange path' rs ls) := by
  rw [sizeChange, sizeChange]
  by_cases h : ls = rs
  · rw [if_pos h, if_pos h.symm]
    exact mirrors_nil
  · rw [if_neg h, if_neg (Ne.symm h)]
    exact mirrors_singleton (.swap rfl)

/-- Members mirror when the types of all of them do. -/
theorem mirrors_diffMembers {recur : CanonicalType → Text → CanonicalType → List Change}
    {lm rm : List Member}
    (h : ∀ l ∈ lm, ∀ r ∈ rm, ∀ path path', Mirrors (recur l.ty path r.ty) (recur r.ty path' l.ty))
    (path path' : Text) :
    Mirrors (diffMembers recur path lm rm) (diffMembers recur path' rm lm) := by
  obtain ⟨hpairs, hremoved, hadded⟩ := pairMembers_swap lm rm
  simp only [diffMembers, structural_swap lm rm, hremoved, hadded, List.append_assoc]
  refine Mirrors.append ?_ ?_
  · refine Mirrors.perm ?_ (.refl _) (hpairs.flatMap_right _)
    rw [List.flatMap_map]
    refine mirrors_flatMap fun p hp => ?_
    obtain ⟨hl, hr⟩ := mem_of_mem_pairs hp
    refine (mirrors_renameChange _ _ _ _ _).append ?_
    exact (h _ hl _ hr _ _).append (mirrors_slotChanges _ _ _ _ _)
  · refine Mirrors.perm ?_ (.refl _) List.perm_append_comm
    refine Mirrors.append ?_ ?_
    · exact mirrors_map fun l _ => .swap rfl
    · exact mirrors_map fun r _ => .swap rfl

/-! ### Constants -/

def matchConstants (lm rm : List (Text × ℕ)) : Matching (Text × ℕ) (Text × ℕ) :=
  uniqueMatch (fun l => some l.1) (fun r => some r.1) lm rm

def constantChange (path : Text) (p : (Text × ℕ) × (Text × ℕ)) : List Change :=
  if p.2.2 = p.1.2 then [] else [⟨join path p.1.1, .constantChanged p.1.2 p.2.2⟩]

/-- Where the names of each enum are distinct, its constants are changed,
removed or added as the matching by name has it. -/
theorem diffConstants_perm (path : Text) {lm rm : List (Text × ℕ)}
    (hl : (lm.map Prod.fst).Nodup) (hr : (rm.map Prod.fst).Nodup) :
    (diffConstants path lm rm).Perm
      ((matchConstants lm rm).pairs.flatMap (constantChange path) ++
        ((matchConstants lm rm).left.map fun l => ⟨join path l.1, .constantRemoved l.2⟩) ++
        (matchConstants lm rm).right.map fun r => ⟨join path r.1, .constantAdded r.2⟩) := by
  rw [diffConstants]
  refine List.Perm.append ?_ (List.Perm.of_eq ?_)
  · have hperm := flatMap_partner_perm (fun l : Text × ℕ => some l.1)
      (fun r : Text × ℕ => some r.1) (constantChange path)
      (fun l => [⟨join path l.1, .constantRemoved l.2⟩]) lm rm
    rw [← List.flatMap_pure_eq_map]
    refine (List.Perm.of_eq ?_).trans hperm
    refine List.flatMap_congr fun l hlm => ?_
    rw [partner_eq_find? hl hr hlm (p := fun r => r.1 == l.1) fun r => beq_iff_eq]
    cases h : rm.find? fun r => r.1 == l.1 <;> simp [h, constantChange]
  · have hright : (matchConstants lm rm).right =
        rm.filter fun r => !lm.any fun l => l.1 == r.1 := by
      refine List.filter_congr fun r hrm => ?_
      rw [partner_eq_find? hr hl hrm (p := fun l => l.1 == r.1) fun l => beq_iff_eq,
        ← List.isSome_find?, Option.not_isSome]
    rw [hright]
    clear hr hright
    induction rm with
    | nil => rfl
    | cons r rm ih =>
        rw [List.flatMap_cons, List.filter_cons, ih]
        cases h : lm.any fun l => l.1 == r.1 <;> simp [h]

theorem mirrors_diffConstants (path path' : Text) {lm rm : List (Text × ℕ)}
    (hl : (lm.map Prod.fst).Nodup) (hr : (rm.map Prod.fst).Nodup) :
    Mirrors (diffConstants path lm rm) (diffConstants path' rm lm) := by
  have hswap : IsSwap (matchConstants lm rm) (matchConstants rm lm) := uniqueMatch_swap lm rm
  refine Mirrors.perm ?_ (diffConstants_perm path hl hr) (diffConstants_perm path' hr hl)
  rw [hswap.left, hswap.right, List.append_assoc, List.append_assoc]
  refine Mirrors.append ?_ ?_
  · refine Mirrors.perm ?_ (.refl _) (hswap.pairs.flatMap_right _).symm
    rw [List.flatMap_map]
    refine mirrors_flatMap fun p hp => ?_
    obtain ⟨l, r⟩ := p
    simp only [constantChange, Prod.swap_prod_mk]
    by_cases h : r.2 = l.2
    · rw [if_pos h, if_pos h.symm]
      exact mirrors_nil
    · rw [if_neg h, if_neg (Ne.symm h)]
      exact mirrors_singleton (.swap rfl)
  · refine Mirrors.perm ?_ (.refl _) List.perm_append_comm
    refine Mirrors.append ?_ ?_
    · exact mirrors_map fun l _ => .swap rfl
    · exact mirrors_map fun r _ => .swap rfl

/-! ### The walk -/

def DistinctConstants : CanonicalType → Prop
  | .enum _ _ members _ => (members.map Prod.fst).Nodup
  | _ => True

theorem Alike.symm {x y : CanonicalType} (h : Alike x y) : Alike y x := by
  cases x with
  | aggregate => cases y <;> first | exact ⟨h.1.symm, h.2.symm⟩ | exact h
  | enum => cases y <;> first | exact Eq.symm h | exact h
  | ptr => cases y <;> first | exact Eq.symm h | exact h
  | array => cases y <;> first | exact Eq.symm h | exact h
  | function => cases y <;> first | exact ⟨h.1.symm, h.2.symm⟩ | exact h
  | _ => cases y <;> exact h

theorem mirrors_diffParams {lp rp : List CanonicalType}
    (h : ∀ l ∈ lp, ∀ r ∈ rp, ∀ path path', Mirrors (diffInto l path r) (diffInto r path' l))
    (path path' : Text) (i : ℕ) :
    Mirrors (diffParams path i lp rp) (diffParams path' i rp lp) := by
  induction lp generalizing i rp with
  | nil =>
      cases rp with
      | nil => exact mirrors_nil
      | cons b rp => exact mirrors_nil
  | cons a lp ih =>
      cases rp with
      | nil => exact mirrors_nil
      | cons b rp =>
          rw [diffParams, diffParams]
          refine (h a List.mem_cons_self b List.mem_cons_self _ _).append (ih ?_ _)
          intro l hl r hr
          exact h l (List.mem_cons_of_mem a hl) r (List.mem_cons_of_mem b hr)

/-- The two directions of the walk mirror each other under any two paths. -/
theorem mirrors_diffInto (a b : CanonicalType) (ha : Everywhere DistinctConstants a)
    (hb : Everywhere DistinctConstants b) (path path' : Text) :
    Mirrors (diffInto a path b) (diffInto b path' a) := by
  -- Both directions take the same types apart, at paths of their own.
  induction a, b using compareInduct generalizing path path' with
  | same c =>
      rw [diffInto_self, diffInto_self]
      exact mirrors_nil
  | aggregate tag kind lm ls rm rs hne ih =>
      rw [diffInto_aggregate path hne, diffInto_aggregate path' hne.symm]
      refine (mirrors_sizeChange _ _ ls rs).append (mirrors_diffMembers ?_ path path')
      intro l hl r hr
      exact ih l hl r.ty (ha.member hl) (hb.member hr)
  | enum tag lu lm ls ru rm rs hne ih =>
      rw [diffInto_enum path hne, diffInto_enum path' hne.symm]
      refine Mirrors.append (Mirrors.append ?_ (mirrors_sizeChange _ _ ls rs)) ?_
      · exact ih (ha.inside List.mem_cons_self) (hb.inside List.mem_cons_self) _ _
      · exact mirrors_diffConstants path path' ha.here hb.here
  | ptr lp rp width hne ih =>
      rw [diffInto_ptr path hne, diffInto_ptr path' hne.symm]
      exact ih (ha.inside List.mem_cons_self) (hb.inside List.mem_cons_self) path path'
  | array le re len hne ih =>
      rw [diffInto_array path hne, diffInto_array path' hne.symm]
      exact ih (ha.inside List.mem_cons_self) (hb.inside List.mem_cons_self) path path'
  | function lret lp rret rp varargs hne hlen ihr ihp =>
      rw [diffInto_function path hlen hne, diffInto_function path' hlen.symm hne.symm]
      refine Mirrors.append ?_ (mirrors_diffParams ?_ path path' 0)
      · exact ihr (ha.inside List.mem_cons_self) (hb.inside List.mem_cons_self) _ _
      · intro l hl r hr
        exact ihp l hl r (ha.inside (List.mem_cons_of_mem _ hl))
          (hb.inside (List.mem_cons_of_mem _ hr))
  | retyped a b hne halike =>
      rw [diffInto_retyped path hne halike,
        diffInto_retyped path' hne.symm fun h => halike (Alike.symm h)]
      exact mirrors_singleton (.swap rfl)

/-! ### Both directions of a diff -/

def ChangeKind.isRenamed : ChangeKind → Bool
  | .renamed _ => true
  | _ => false

/-- Two diffs mirror each other: they are of one length, the kinds of the one
are those of the other seen from its side, renames apart, of which there are
equally many, and the changes correspond one for one. -/
structure TypeDiff.Mirrored (d d' : TypeDiff) : Prop where
  len : d.len = d'.len
  kinds : (d.changes.filterMap fun c => c.kind.mirror).Perm
    ((d'.changes.map Change.kind).filter fun k => !k.isRenamed)
  renames : (d.changes.countP fun c => c.kind.isRenamed) =
    d'.changes.countP fun c => c.kind.isRenamed
  changes : Mirrors d.changes d'.changes

theorem isRenamed_of_mirror {k k' : ChangeKind} (h : k.mirror = some k') :
    k.isRenamed = false ∧ k'.isRenamed = false := by
  cases k <;> cases h <;> exact ⟨rfl, rfl⟩

theorem Mirrors.exists_forall₂ {xs ys : List Change} (h : Mirrors xs ys) :
    ∃ zs, List.Forall₂ Mirror xs zs ∧ zs.Perm ys := by
  rw [Mirrors] at h
  induction xs generalizing ys with
  | nil =>
      rw [Multiset.coe_nil, Multiset.rel_zero_left] at h
      have hys : ys = [] := (Multiset.coe_eq_zero ys).mp h
      exact ⟨[], .nil, List.Perm.of_eq hys.symm⟩
  | cons x xs ih =>
      rw [← Multiset.cons_coe, Multiset.rel_cons_left] at h
      obtain ⟨y, rest, hxy, hrest, hys⟩ := h
      induction rest using Quotient.inductionOn with
      | h rest =>
          obtain ⟨zs, hzs, hperm⟩ := ih hrest
          refine ⟨y :: zs, .cons hxy hzs, (hperm.cons y).trans ?_⟩
          exact (Multiset.coe_eq_coe.mp hys).symm

/-- Lists that correspond one for one agree in length, in kinds and in the
number of renames. -/
theorem Mirrors.mirrored {d d' : TypeDiff} (h : Mirrors d.changes d'.changes) :
    d.Mirrored d' := by
  obtain ⟨zs, hforall, hzs⟩ := h.exists_forall₂
  have hkinds : (d.changes.filterMap fun c => c.kind.mirror) =
      (zs.map Change.kind).filter fun k => !k.isRenamed := by
    clear hzs h
    revert hforall
    generalize d.changes = xs
    intro hforall
    induction hforall with
    | nil => rfl
    | cons hm _ ih =>
        cases hm with
        | swap hk => simp [hk, (isRenamed_of_mirror hk).2, ih]
        | renamed l r => simpa [ChangeKind.mirror, ChangeKind.isRenamed] using ih
  have hrenames : (d.changes.countP fun c => c.kind.isRenamed) =
      zs.countP fun c => c.kind.isRenamed := by
    clear hzs h hkinds
    revert hforall
    generalize d.changes = xs
    intro hforall
    induction hforall with
    | nil => rfl
    | cons hm _ ih =>
        rw [List.countP_cons, List.countP_cons, ih]
        cases hm with
        | swap hk => simp [isRenamed_of_mirror hk]
        | renamed l r => rfl
  refine ⟨hforall.length_eq.trans hzs.length_eq, ?_, hrenames.trans (hzs.countP_eq _), h⟩
  rw [hkinds]
  exact (hzs.map _).filter _

/-- The diffs of two types in either direction mirror each other. -/
theorem diff_mirrored (a b : CanonicalType) (ha : Everywhere DistinctConstants a)
    (hb : Everywhere DistinctConstants b) : (a.diff b).Mirrored (b.diff a) :=
  (mirrors_diffInto a b ha hb [] []).mirrored

def twoConstants (first second : Text) : CanonicalType :=
  .enum (some ['e']) (.int (some 4) true) [(first, 1), (second, 2)] (some 4)

theorem distinctConstants_twoConstants {first second : Text} (h : first ≠ second) :
    Everywhere DistinctConstants (twoConstants first second) := by
  refine .mk (by simpa [twoConstants, DistinctConstants] using h) fun d hd => ?_
  rw [List.mem_singleton.mp hd]
  exact .mk trivial (by simp [children])

theorem diff_mirrored_twoConstants :
    ((twoConstants ['a'] ['b']).diff (twoConstants ['b'] ['c'])).Mirrored
      ((twoConstants ['b'] ['c']).diff (twoConstants ['a'] ['b'])) :=
  diff_mirrored _ _ (distinctConstants_twoConstants (by decide))
    (distinctConstants_twoConstants (by decide))

end Idakit.Types.Canonical
