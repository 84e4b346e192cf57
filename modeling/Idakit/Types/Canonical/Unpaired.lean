import Idakit.Types.Canonical.Mirror
import Idakit.Types.Canonical.Reordering

/-!
The members of a record that stay without a partner. A member that stands on
both sides is paired by its name, or, if it has none, by its offset; of several
members at one offset the second pass takes none, so these are reported as
removed and added although nothing happened to them.
-/

namespace Idakit.Types.Canonical

open Idakit.Library CanonicalType

def DistinctNamed (members : List Member) : Prop :=
  ((members.filter fun m => !m.name.isEmpty).map CanonicalMember.name).Nodup

/-- The members of one side that no member of the other shares a name with. -/
def withoutNamesake (lm rm : List Member) : List Member :=
  lm.filter fun l => l.name.isEmpty || !rm.any fun r => r.name == l.name

/-- No name pairs the member, and its offset is missing, or not its own on one
of the two sides. -/
def SharesOffset (lm rm : List Member) (m : Member) : Prop :=
  m.name = [] ∧ ∀ o ∈ m.bitOffset,
    ¬ (((withoutNamesake lm rm).countP fun l => l.bitOffset = some o) = 1 ∧
      ((withoutNamesake rm lm).countP fun r => r.bitOffset = some o) = 1)

instance (lm rm : List Member) : DecidablePred (SharesOffset lm rm) := fun m =>
  inferInstanceAs (Decidable (_ ∧ ∀ o ∈ m.bitOffset, _))

theorem sharesOffset_swap {lm rm : List Member} {m : Member} :
    SharesOffset rm lm m ↔ SharesOffset lm rm m := by
  refine and_congr_right fun _ => forall₂_congr fun o _ => not_congr ?_
  exact and_comm

/-! ### What no name pairs -/

section

variable {lm rm : List Member}

theorem pairByName_left_perm (lm rm : List Member) :
    lm.Perm ((pairByName lm rm).pairs.map Prod.fst ++ (pairByName lm rm).left) :=
  firstMatch_left_perm _ lm rm

theorem pairByName_right_perm (lm rm : List Member) :
    rm.Perm ((pairByName lm rm).pairs.map Prod.snd ++ (pairByName lm rm).right) :=
  firstMatch_right_perm _ lm rm

theorem mem_withoutNamesake {l : Member} :
    l ∈ withoutNamesake lm rm ↔ l ∈ lm ∧ (l.name ≠ [] → ∀ r ∈ rm, r.name ≠ l.name) := by
  rw [withoutNamesake, List.mem_filter]
  refine and_congr_right fun _ => ?_
  by_cases h : l.name = [] <;> simp [h]

/-- A member that another shares a name with is not left over. -/
theorem not_mem_left_of_name (hl : DistinctNamed lm) {l r : Member} (hr : r ∈ rm)
    (hne : l.name ≠ []) (hname : r.name = l.name) : l ∉ (pairByName lm rm).left := by
  intro hleft
  rcases List.mem_append.mp ((pairByName_right_perm lm rm).mem_iff.mp hr) with hpaired | hright
  · obtain ⟨p, hp, rfl⟩ := List.mem_map.mp hpaired
    obtain ⟨hpname, hpne⟩ := name_of_mem_pairByName hp
    -- The one that is paired and the one that is left over would share their name.
    have hnodup := (((pairByName_left_perm lm rm).filter
      fun m : Member => !m.name.isEmpty).map
      CanonicalMember.name).nodup_iff.mp hl
    rw [List.filter_append, List.map_append] at hnodup
    have hfst : l.name ∈ (((pairByName lm rm).pairs.map Prod.fst).filter
        fun m => !m.name.isEmpty).map CanonicalMember.name := by
      rw [← hname, ← hpname]
      refine List.mem_map_of_mem (List.mem_filter.mpr ⟨List.mem_map_of_mem hp, ?_⟩)
      simpa using hpne
    refine List.disjoint_of_nodup_append hnodup hfst (List.mem_map_of_mem ?_)
    exact List.mem_filter.mpr ⟨hleft, by simpa using hne⟩
  · have hfits := not_fits_of_left_right hleft hright
    simp [hname, hne] at hfits

theorem mem_pairByName_left_iff (hl : DistinctNamed lm) {l : Member} :
    l ∈ (pairByName lm rm).left ↔ l ∈ withoutNamesake lm rm := by
  rw [mem_withoutNamesake]
  constructor
  · intro hleft
    refine ⟨(pairByName_left_perm lm rm).mem_iff.mpr (List.mem_append_right _ hleft), ?_⟩
    intro hne r hr hname
    exact not_mem_left_of_name hl hr hne hname hleft
  · rintro ⟨hlm, hother⟩
    refine (List.mem_append.mp ((pairByName_left_perm lm rm).mem_iff.mp hlm)).resolve_left ?_
    intro hpaired
    obtain ⟨p, hp, rfl⟩ := List.mem_map.mp hpaired
    obtain ⟨hname, hne⟩ := name_of_mem_pairByName hp
    have hsnd : p.2 ∈ rm :=
      (pairByName_right_perm lm rm).mem_iff.mpr (List.mem_append_left _ (List.mem_map_of_mem hp))
    exact hother hne p.2 hsnd hname.symm

/-- Names leave over the members that no name of the other side is shared
with. -/
theorem pairByName_left_perm_withoutNamesake (hl : DistinctNamed lm) :
    (pairByName lm rm).left.Perm (withoutNamesake lm rm) := by
  rw [List.perm_iff_count]
  intro l
  by_cases hleft : l ∈ (pairByName lm rm).left
  · have hwithout := mem_withoutNamesake.mp ((mem_pairByName_left_iff hl).mp hleft)
    have hpaired : l ∉ (pairByName lm rm).pairs.map Prod.fst := by
      intro hpaired
      obtain ⟨p, hp, rfl⟩ := List.mem_map.mp hpaired
      obtain ⟨hname, hne⟩ := name_of_mem_pairByName hp
      have hsnd : p.2 ∈ rm := (pairByName_right_perm lm rm).mem_iff.mpr
        (List.mem_append_left _ (List.mem_map_of_mem hp))
      exact hwithout.2 hne p.2 hsnd hname.symm
    have hcount := (pairByName_left_perm lm rm).count_eq l
    rw [List.count_append, List.count_eq_zero_of_not_mem hpaired, Nat.zero_add] at hcount
    rw [← hcount, withoutNamesake, List.count_filter]
    exact (List.mem_filter.mp ((mem_pairByName_left_iff hl).mp hleft)).2
  · rw [List.count_eq_zero_of_not_mem hleft, List.count_eq_zero_of_not_mem]
    exact (mem_pairByName_left_iff hl).not.mp hleft

theorem pairByName_right_perm_withoutNamesake (hr : DistinctNamed rm) :
    (pairByName lm rm).right.Perm (withoutNamesake rm lm) := by
  rw [← (pairByName_swap lm rm).left]
  exact pairByName_left_perm_withoutNamesake hr

/-! ### What stays unpaired -/

theorem mem_removed {l : Member} :
    l ∈ (pairMembers lm rm).removed ↔ l ∈ (pairByName lm rm).left ∧
      partner CanonicalMember.bitOffset CanonicalMember.bitOffset (pairByName lm rm).left
        (pairByName lm rm).right l = none := by
  show l ∈ List.filter _ _ ↔ _
  rw [List.mem_filter, Option.isNone_iff_eq_none]

/-- Of the members that stand on both sides, those are removed that share
their offset. -/
theorem mem_removed_iff (hl : DistinctNamed lm) (hr : DistinctNamed rm) {m : Member}
    (hml : m ∈ lm) (hmr : m ∈ rm) :
    m ∈ (pairMembers lm rm).removed ↔ SharesOffset lm rm m := by
  have hleftPerm : (pairByName lm rm).left.Perm (withoutNamesake lm rm) :=
    pairByName_left_perm_withoutNamesake hl
  have hrightPerm : (pairByName lm rm).right.Perm (withoutNamesake rm lm) :=
    pairByName_right_perm_withoutNamesake hr
  have hcountL (o : ℕ) := hleftPerm.countP_eq fun l => decide (l.bitOffset = some o)
  have hcountR (o : ℕ) := hrightPerm.countP_eq fun r => decide (r.bitOffset = some o)
  rw [mem_removed]
  constructor
  · rintro ⟨hleft, hnone⟩
    have hname : m.name = [] := by
      by_contra hne
      exact not_mem_left_of_name hl hmr hne rfl hleft
    have hright : m ∈ (pairByName lm rm).right := by
      refine hrightPerm.mem_iff.mpr (mem_withoutNamesake.mpr ⟨hmr, ?_⟩)
      exact fun hne => absurd hname hne
    refine ⟨hname, fun o ho hone => ?_⟩
    rw [← hcountL, ← hcountR, List.countP_eq_length_filter, List.countP_eq_length_filter] at hone
    obtain ⟨x, hx⟩ := List.length_eq_one_iff.mp hone.1
    obtain ⟨y, hy⟩ := List.length_eq_one_iff.mp hone.2
    have hmx : m ∈ [x] := by
      rw [← hx]
      exact List.mem_filter.mpr ⟨hleft, by simpa using ho⟩
    rw [List.mem_singleton] at hmx
    subst hmx
    -- An offset of its own on both sides would have paired it.
    have hsome := (partner_eq_some_iff hleft).mpr ⟨o, ho, hx, hy⟩
    rw [hsome] at hnone
    contradiction
  · rintro ⟨hname, hshared⟩
    have hleft : m ∈ (pairByName lm rm).left := by
      rw [mem_pairByName_left_iff hl, mem_withoutNamesake]
      exact ⟨hml, fun hne => absurd hname hne⟩
    refine ⟨hleft, ?_⟩
    by_contra hsome
    obtain ⟨r, hpartner⟩ := Option.ne_none_iff_exists'.mp hsome
    obtain ⟨o, ho, hx, hy⟩ := (partner_eq_some_iff hleft).mp hpartner
    refine hshared o ho ⟨?_, ?_⟩
    · rw [← hcountL, List.countP_eq_length_filter, hx, List.length_singleton]
    · rw [← hcountR, List.countP_eq_length_filter, hy, List.length_singleton]

/-- Besides what only the one side has, removed are at most the members of both
sides that share their offset. -/
theorem removed_le (hl : DistinctNamed lm) (hr : DistinctNamed rm) :
    ((pairMembers lm rm).removed : Multiset Member) ≤
      (lm - rm : Multiset Member) + (lm ∩ rm : Multiset Member).filter (SharesOffset lm rm) := by
  rw [Multiset.le_iff_count]
  intro m
  rw [Multiset.count_add, Multiset.count_sub, Multiset.count_filter, Multiset.count_inter]
  simp only [Multiset.coe_count]
  have hle : (pairMembers lm rm).removed.count m ≤ lm.count m := by
    rw [(pairMembers_left_perm lm rm).count_eq, List.count_append]
    exact Nat.le_add_left _ _
  by_cases hshares : SharesOffset lm rm m
  · rw [if_pos hshares]
    omega
  · rw [if_neg hshares]
    by_cases hml : m ∈ lm
    · by_cases hmr : m ∈ rm
      · have hnot := (mem_removed_iff hl hr hml hmr).not.mpr hshares
        rw [List.count_eq_zero_of_not_mem hnot]
        exact Nat.zero_le _
      · rw [List.count_eq_zero_of_not_mem hmr]
        omega
    · rw [List.count_eq_zero_of_not_mem hml] at hle
      omega

end

/-! ### What is reported of a level -/

/-- The changes inside the members that two aggregates pair. -/
def innerChanges (path : Text) (lm rm : List Member) : List Change :=
  (pairMembers lm rm).pairs.flatMap fun p => diffInto p.1.ty (pathIn p.2.1 path) p.2.1.ty

/-- The changes that satisfy `p` among those of two aggregates are no more than
`bound`, besides those inside the members. -/
def ReportsAtMost (p : Change → Bool) (bound : ℕ) (path : Text) (tag : Option Text)
    (kind : RecordKind) (lm rm : List Member) (ls rs : Option ℕ) : Prop :=
  (diffInto (.aggregate tag kind lm ls) path (.aggregate tag kind rm rs)).countP p ≤
    bound + (innerChanges path lm rm).countP p

/-- No more is removed than only the left side has, and no more is added than
only the right side has. -/
def ReportsDifference (path : Text) (tag : Option Text) (kind : RecordKind) (lm rm : List Member)
    (ls rs : Option ℕ) : Prop :=
  ReportsAtMost (fun c => c.kind.isRemoved) (lm - rm : Multiset Member).card path tag kind lm rm
      ls rs ∧
    ReportsAtMost (fun c => c.kind.isAdded) (rm - lm : Multiset Member).card path tag kind lm rm
      ls rs

theorem countP_memberChanges {p : Change → Bool} (path : Text) (lm rm : List Member)
    (hpair : ∀ q structural, ∀ c ∈ pairChanges path structural q, p c = false) :
    (memberChanges path lm rm).countP p =
      ((pairMembers lm rm).removed.countP fun l => p ⟨pathIn l path, .removed l.ty⟩) +
        (pairMembers lm rm).added.countP fun r => p ⟨pathIn r path, .added r.ty⟩ := by
  have hpairs : ((pairMembers lm rm).pairs.flatMap
      (pairChanges path (pairMembers lm rm).structural)).countP p = 0 := by
    rw [List.countP_eq_zero]
    intro c hc
    obtain ⟨q, -, hq⟩ := List.mem_flatMap.mp hc
    simp [hpair q _ c hq]
  rw [memberChanges, List.countP_append, List.countP_append, hpairs, Nat.zero_add,
    List.countP_map, List.countP_map]
  rfl

theorem isChanged_of_mem_pairChanges {path : Text} {structural : Bool}
    {q : Member × Member × Bool} {c : Change} (hc : c ∈ pairChanges path structural q) :
    c.kind.isChanged = true := by
  rcases List.mem_append.mp hc with hc | hc
  · rw [renameChange] at hc
    split at hc
    · rw [List.mem_singleton.mp hc]
      rfl
    · contradiction
  · rcases List.mem_append.mp hc with hc | hc
    · split at hc
      · contradiction
      · rw [List.mem_singleton.mp hc]
        rfl
    · split at hc
      · split at hc
        · split at hc
          · contradiction
          · rw [List.mem_singleton.mp hc]
            rfl
        · contradiction
      · contradiction

theorem countP_sizeChange {p : Change → Bool} {path : Text} {ls rs : Option ℕ}
    (hp : ∀ l r, p ⟨path, .sizeChanged l r⟩ = false) : (sizeChange path ls rs).countP p = 0 := by
  rw [sizeChange]
  split
  · rfl
  · simp [hp]

/-- Two aggregates report what changes in their members, and inside these. -/
theorem countP_diffInto_aggregate {p : Change → Bool} (path : Text) (tag : Option Text)
    (kind : RecordKind) (lm rm : List Member) (ls rs : Option ℕ)
    (hsize : ∀ l r, p ⟨path, .sizeChanged l r⟩ = false) :
    (diffInto (.aggregate tag kind lm ls) path (.aggregate tag kind rm rs)).countP p ≤
      (memberChanges path lm rm).countP p + (innerChanges path lm rm).countP p := by
  by_cases hsame : CanonicalType.aggregate tag kind lm ls = .aggregate tag kind rm rs
  · rw [← hsame, diffInto_self]
    exact Nat.zero_le _
  · rw [diffInto_aggregate path hsame, List.countP_append, countP_sizeChange hsize, Nat.zero_add,
      (diffMembers_perm _ path lm rm).countP_eq, List.countP_append, Nat.add_comm]
    exact le_rfl

/-- They remove and add the members without a partner. -/
theorem reportsAtMost_unpaired (path : Text) (tag : Option Text) (kind : RecordKind)
    (lm rm : List Member) (ls rs : Option ℕ) :
    ReportsAtMost (fun c => c.kind.isRemoved) (pairMembers lm rm).removed.length path tag kind
        lm rm ls rs ∧
      ReportsAtMost (fun c => c.kind.isAdded) (pairMembers lm rm).added.length path tag kind
        lm rm ls rs := by
  have hkind : ∀ k : ChangeKind, k.isChanged = true → k.isRemoved = false ∧ k.isAdded = false := by
    intro k hk
    cases k <;> first | exact ⟨rfl, rfl⟩ | contradiction
  constructor
  · refine (countP_diffInto_aggregate path tag kind lm rm ls rs fun _ _ => rfl).trans ?_
    rw [countP_memberChanges path lm rm
      fun q structural c hc => (hkind _ (isChanged_of_mem_pairChanges hc)).1]
    simp [ChangeKind.isRemoved]
  · refine (countP_diffInto_aggregate path tag kind lm rm ls rs fun _ _ => rfl).trans ?_
    rw [countP_memberChanges path lm rm
      fun q structural c hc => (hkind _ (isChanged_of_mem_pairChanges hc)).2]
    simp [ChangeKind.isAdded]

theorem ReportsAtMost.mono {p : Change → Bool} {bound bound' : ℕ} {path : Text}
    {tag : Option Text} {kind : RecordKind} {lm rm : List Member} {ls rs : Option ℕ}
    (h : ReportsAtMost p bound path tag kind lm rm ls rs) (hle : bound ≤ bound') :
    ReportsAtMost p bound' path tag kind lm rm ls rs :=
  h.trans (Nat.add_le_add_right hle _)

/-- A member of both sides is left without a partner, on both of them, exactly
if it has no name and shares its offset; what is reported exceeds the
differences of the two sides by no more than such members. -/
structure CommonReported (path : Text) (tag : Option Text) (kind : RecordKind)
    (lm rm : List Member) (ls rs : Option ℕ) : Prop where
  each : ∀ m ∈ lm, m ∈ rm →
    (m ∈ (pairMembers lm rm).removed ↔ SharesOffset lm rm m) ∧
      (m ∈ (pairMembers lm rm).added ↔ SharesOffset lm rm m)
  removed : ReportsAtMost (fun c => c.kind.isRemoved) ((lm - rm : Multiset Member).card +
    ((lm ∩ rm : Multiset Member).filter (SharesOffset lm rm)).card) path tag kind lm rm ls rs
  added : ReportsAtMost (fun c => c.kind.isAdded) ((rm - lm : Multiset Member).card +
    ((lm ∩ rm : Multiset Member).filter (SharesOffset lm rm)).card) path tag kind lm rm ls rs

/-- Nothing that stands on both sides is reported, unless its offset is not its
own. -/
theorem common_reported (path : Text) (tag : Option Text) (kind : RecordKind)
    (lm rm : List Member) (ls rs : Option ℕ) (hl : DistinctNamed lm) (hr : DistinctNamed rm) :
    CommonReported path tag kind lm rm ls rs := by
  obtain ⟨-, hswap, -⟩ := pairMembers_swap lm rm
  obtain ⟨hremoved, hadded⟩ := reportsAtMost_unpaired path tag kind lm rm ls rs
  refine ⟨fun m hml hmr => ⟨mem_removed_iff hl hr hml hmr, ?_⟩, hremoved.mono ?_, hadded.mono ?_⟩
  · rw [← hswap, mem_removed_iff hr hl hmr hml]
    exact sharesOffset_swap
  · have hcard := Multiset.card_le_card (removed_le hl hr)
    rwa [Multiset.card_add, Multiset.coe_card] at hcard
  · have hcard := Multiset.card_le_card (removed_le hr hl)
    have hfilter : (rm ∩ lm : Multiset Member).filter (SharesOffset rm lm) =
        (lm ∩ rm : Multiset Member).filter (SharesOffset lm rm) := by
      rw [Multiset.inter_comm]
      exact Multiset.filter_congr fun m _ => sharesOffset_swap
    rwa [Multiset.card_add, hfilter, Multiset.coe_card, hswap] at hcard

def twoUnnamed : List Member :=
  [⟨[], some 0, none, .aggregate none .struct [] (some 4)⟩,
    ⟨[], some 0, none, .aggregate none .struct [] (some 8)⟩]

theorem distinctNamed_twoUnnamed : DistinctNamed twoUnnamed := by
  simp [DistinctNamed, twoUnnamed]

theorem common_reported_twoUnnamed :
    CommonReported [] (some ['u']) .union twoUnnamed twoUnnamed (some 8) (some 16) :=
  common_reported [] (some ['u']) .union twoUnnamed twoUnnamed (some 8) (some 16)
    distinctNamed_twoUnnamed distinctNamed_twoUnnamed

/-- Both are reported as removed, and as added, when only the size changes. -/
theorem not_reportsDifference_twoUnnamed :
    ¬ ∀ path tag kind lm rm ls rs, DistinctNamed lm → DistinctNamed rm →
      ReportsDifference path tag kind lm rm ls rs := by
  intro h
  obtain ⟨hremoved, -⟩ := h [] (some ['u']) .union twoUnnamed twoUnnamed (some 8) (some 16)
    distinctNamed_twoUnnamed distinctNamed_twoUnnamed
  have htwo : (diffInto (.aggregate (some ['u']) .union twoUnnamed (some 8)) []
      (.aggregate (some ['u']) .union twoUnnamed (some 16))).countP
        (fun c => c.kind.isRemoved) = 2 := by decide
  have hinner : innerChanges [] twoUnnamed twoUnnamed = [] := by decide
  rw [ReportsAtMost, htwo, hinner, Multiset.coe_sub, Multiset.coe_card] at hremoved
  exact absurd hremoved (by decide)

end Idakit.Types.Canonical
