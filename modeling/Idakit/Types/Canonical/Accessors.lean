import Idakit.Types.Canonical.Meetings

/-!
The accessors of a diff. Additions, removals and changes in place are told
apart by their kind, so the three counts never overlap; what they leave out
are the size changes, of which only the first one at the root path is
yielded. A diff is therefore partitioned by its accessors exactly when the
walk meets at most one change of size, and meets it at the root path.
-/

namespace Idakit.Types.Canonical

open CanonicalType

def ChangeKind.isSize : ChangeKind → Bool
  | .sizeChanged _ _ => true
  | _ => false

namespace TypeDiff

/-- How many of the accessors yield the change at a position. -/
def yields (d : TypeDiff) (i : ℕ) : ℕ :=
  match d.changes[i]? with
  | none => 0
  | some c =>
      c.kind.isAdded.toNat + c.kind.isRemoved.toNat + c.kind.isChanged.toNat +
        (decide (d.changes.findIdx? (fun c => c.rootSize.isSome) = some i)).toNat

/-- The accessors count every change, and every change once. -/
structure Partitioned (d : TypeDiff) : Prop where
  total : d.len = d.added + d.removed + d.changed + d.sizeChange.isSome.toNat
  once : ∀ i < d.len, d.yields i = 1

end TypeDiff

/-- Two aggregates of one kind and tag, or two enums of one tag, that differ
in their own sizes. -/
def Meeting.sizeDrift (m : Meeting) : Bool :=
  match m.left, m.right with
  | .aggregate lt lk _ ls, .aggregate rt rk _ rs => lk = rk && lt = rt && ls != rs
  | .enum lt _ _ ls, .enum rt _ _ rs => lt = rt && ls != rs
  | _, _ => false

/-- At most one pair of types that the walk compares differs in its own size,
and that pair is at the root path. -/
def SizesAtRoot (x y : CanonicalType) : Prop :=
  ((meetings x [] y).filter Meeting.sizeDrift).length ≤ 1 ∧
    ∀ m ∈ (meetings x [] y).filter Meeting.sizeDrift, m.path = []

instance (x y : CanonicalType) : Decidable (SizesAtRoot x y) := inferInstanceAs (Decidable (_ ∧ _))

/-! ### What the walk reports of sizes -/

def sizePaths (changes : List Change) : List Text :=
  (changes.filter fun c => c.kind.isSize).map Change.path

theorem sizePaths_append (cs ds : List Change) :
    sizePaths (cs ++ ds) = sizePaths cs ++ sizePaths ds := by
  rw [sizePaths, List.filter_append, List.map_append]
  rfl

theorem sizePaths_eq_nil {changes : List Change} (h : ∀ c ∈ changes, c.kind.isSize = false) :
    sizePaths changes = [] := by
  rw [sizePaths, List.filter_eq_nil_iff.mpr fun c hc => by simp [h c hc]]
  rfl

theorem sizePaths_sizeChange (path : Text) (ls rs : Option ℕ) :
    sizePaths (sizeChange path ls rs) = if ls != rs then [path] else [] := by
  rw [sizeChange]
  by_cases h : ls = rs <;> simp [h, sizePaths, ChangeKind.isSize]

/-- Members are reported with no change of size of their own. -/
theorem sizePaths_memberChanges (path : Text) (lm rm : List Member) :
    sizePaths (memberChanges path lm rm) = [] := by
  refine sizePaths_eq_nil fun c hc => ?_
  rcases List.mem_append.mp hc with hc | hc
  · rcases List.mem_append.mp hc with hc | hc
    · obtain ⟨⟨l, r, renamed⟩, -, hc⟩ := List.mem_flatMap.mp hc
      rcases List.mem_append.mp hc with hc | hc
      · rw [renameChange] at hc
        split at hc
        · rw [List.mem_singleton.mp hc]
          rfl
        · cases hc
      · rcases List.mem_append.mp hc with hc | hc
        · split at hc
          · cases hc
          · rw [List.mem_singleton.mp hc]
            rfl
        · split at hc
          · split at hc
            · split at hc
              · cases hc
              · rw [List.mem_singleton.mp hc]
                rfl
            · cases hc
          · cases hc
    · obtain ⟨l, -, rfl⟩ := List.mem_map.mp hc
      rfl
  · obtain ⟨r, -, rfl⟩ := List.mem_map.mp hc
    rfl

theorem sizePaths_diffConstants (path : Text) (lm rm : List (Text × ℕ)) :
    sizePaths (diffConstants path lm rm) = [] := by
  refine sizePaths_eq_nil fun c hc => ?_
  rcases List.mem_append.mp hc with hc | hc
  · obtain ⟨⟨name, value⟩, -, hc⟩ := List.mem_flatMap.mp hc
    simp only at hc
    split at hc
    · split at hc
      · cases hc
      · rw [List.mem_singleton.mp hc]
        rfl
    · rw [List.mem_singleton.mp hc]
      rfl
  · obtain ⟨⟨name, value⟩, -, hc⟩ := List.mem_flatMap.mp hc
    simp only at hc
    split at hc
    · cases hc
    · rw [List.mem_singleton.mp hc]
      rfl

/-- A meeting reports a change of size exactly when its two types drift in
their own sizes. -/
theorem sizePaths_changes (m : Meeting) :
    sizePaths m.changes = if m.sizeDrift then [m.path] else [] := by
  obtain ⟨path, left, right⟩ := m
  have hretyped : sizePaths [⟨path, .retyped left right⟩] = [] := rfl
  by_cases heq : left = right
  · subst heq
    rw [Meeting.changes, if_pos rfl]
    cases left <;> simp [Meeting.sizeDrift, sizePaths]
  · rw [Meeting.changes, if_neg heq]
    -- Types that are not taken apart together are reported as retyped, with no size.
    cases left with
    | aggregate lt lk lm ls =>
        cases right with
        | aggregate rt rk rm rs =>
            by_cases halike : lk = rk ∧ lt = rt
            · simp only [if_pos halike]
              rw [sizePaths_append, sizePaths_memberChanges, List.append_nil,
                sizePaths_sizeChange]
              simp [Meeting.sizeDrift, halike.1, halike.2]
            · simp only [if_neg halike]
              rw [hretyped, if_neg]
              simp [Meeting.sizeDrift]
              tauto
        | _ => exact hretyped
    | enum lt lu lm ls =>
        cases right with
        | enum rt ru rm rs =>
            by_cases halike : lt = rt
            · simp only [if_pos halike]
              rw [sizePaths_append, sizePaths_diffConstants, List.append_nil,
                sizePaths_sizeChange]
              simp [Meeting.sizeDrift, halike]
            · simp only [if_neg halike]
              rw [hretyped, if_neg]
              simp [Meeting.sizeDrift, halike]
        | _ => exact hretyped
    | ptr lp lw =>
        cases right with
        | ptr rp rw => simp only; split <;> rfl
        | _ => exact hretyped
    | array le ll =>
        cases right with
        | array re rl => simp only; split <;> rfl
        | _ => exact hretyped
    | function lret lp lv =>
        cases right with
        | function rret rp rv => simp only; split <;> rfl
        | _ => exact hretyped
    | _ => cases right <;> exact hretyped

/-- The size changes of a diff are those of the drifting meetings. -/
theorem sizePaths_diffInto (x y : CanonicalType) (path : Text) :
    (sizePaths (diffInto x path y)).Perm
      (((meetings x path y).filter Meeting.sizeDrift).map Meeting.path) := by
  have hflat (ms : List Meeting) : sizePaths (ms.flatMap Meeting.changes) =
      (ms.filter Meeting.sizeDrift).map Meeting.path := by
    induction ms with
    | nil => rfl
    | cons m ms ih =>
        rw [List.flatMap_cons, sizePaths_append, sizePaths_changes, ih, List.filter_cons]
        split <;> rfl
  rw [← hflat]
  exact ((diffInto_perm x y path).filter _).map _

/-! ### The partition -/

theorem kind_total (k : ChangeKind) :
    k.isAdded.toNat + k.isRemoved.toNat + k.isChanged.toNat + k.isSize.toNat = 1 := by
  cases k <;> rfl

theorem isSize_of_rootSize {c : Change} (h : c.rootSize.isSome) :
    c.kind.isSize = true ∧ c.path = [] := by
  obtain ⟨path, kind⟩ := c
  cases kind with
  | sizeChanged left right =>
      cases path with
      | nil => exact ⟨rfl, rfl⟩
      | cons a path => cases h
  | _ => cases h

theorem rootSize_of_isSize {c : Change} (hsize : c.kind.isSize = true) (hpath : c.path = []) :
    c.rootSize.isSome := by
  obtain ⟨path, kind⟩ := c
  cases kind with
  | sizeChanged left right =>
      subst hpath
      rfl
  | _ => cases hsize

namespace TypeDiff

/-- The three counts leave out the size changes and nothing else. -/
theorem len_eq (d : TypeDiff) :
    d.len = d.added + d.removed + d.changed + (sizePaths d.changes).length := by
  obtain ⟨changes⟩ := d
  induction changes with
  | nil => rfl
  | cons c changes ih =>
      have hkind := kind_total c.kind
      simp only [len, added, removed, changed, sizePaths, List.length_cons, List.countP_cons,
        List.filter_cons] at ih hkind ⊢
      rw [ih]
      revert hkind
      cases c.kind.isAdded <;> cases c.kind.isRemoved <;> cases c.kind.isChanged <;>
        cases c.kind.isSize <;> simp <;> omega

theorem sizeChange_isSome_iff (d : TypeDiff) :
    d.sizeChange.isSome ↔ [] ∈ sizePaths d.changes := by
  rw [sizeChange, List.isSome_findSome?, List.any_eq_true]
  constructor
  · rintro ⟨c, hc, hroot⟩
    obtain ⟨hsize, hpath⟩ := isSize_of_rootSize hroot
    exact List.mem_map.mpr ⟨c, List.mem_filter.mpr ⟨hc, hsize⟩, hpath⟩
  · intro h
    obtain ⟨c, hc, hpath⟩ := List.mem_map.mp h
    obtain ⟨hc, hsize⟩ := List.mem_filter.mp hc
    exact ⟨c, hc, rootSize_of_isSize hsize hpath⟩

/-- Where the only size change is at the root path, `size_change` yields it. -/
theorem findIdx_rootSize_iff {d : TypeDiff} (hall : ∀ path ∈ sizePaths d.changes, path = [])
    (hlen : (sizePaths d.changes).length ≤ 1) {i : ℕ} (hi : i < d.changes.length) :
    d.changes.findIdx? (fun c => c.rootSize.isSome) = some i ↔
      d.changes[i].kind.isSize = true := by
  have hroot : ∀ c ∈ d.changes, c.kind.isSize = true → c.rootSize.isSome := fun c hc hsize =>
    rootSize_of_isSize hsize (hall c.path
      (List.mem_map_of_mem (List.mem_filter.mpr ⟨hc, hsize⟩)))
  rw [List.findIdx?_eq_some_iff_getElem]
  constructor
  · rintro ⟨_, h, _⟩
    exact (isSize_of_rootSize h).1
  · intro hsize
    refine ⟨hi, hroot _ (List.getElem_mem hi) hsize, fun j hji hj => ?_⟩
    -- An earlier size change would be a second one.
    have hsplit : d.changes = d.changes.take i ++ d.changes[i] :: d.changes.drop (i + 1) := by
      rw [← List.drop_eq_getElem_cons hi, List.take_append_drop]
    have hbefore : d.changes[j] ∈ (d.changes.take i).filter fun c => c.kind.isSize := by
      refine List.mem_filter.mpr ⟨?_, (isSize_of_rootSize hj).1⟩
      exact List.mem_take_iff_getElem.mpr ⟨j, by omega, rfl⟩
    have hpos := List.length_pos_of_mem hbefore
    rw [hsplit, sizePaths, List.filter_append, List.filter_cons, if_pos hsize, List.length_map,
      List.length_append, List.length_cons] at hlen
    omega

theorem partitioned_iff (d : TypeDiff) :
    d.Partitioned ↔
      (sizePaths d.changes).length ≤ 1 ∧ ∀ path ∈ sizePaths d.changes, path = [] := by
  have hlen := d.len_eq
  have hsome := d.sizeChange_isSome_iff
  constructor
  · rintro ⟨htotal, -⟩
    have hcount : (sizePaths d.changes).length = d.sizeChange.isSome.toNat := by omega
    refine ⟨hcount ▸ Bool.toNat_le _, fun path hpath => ?_⟩
    have hpos := List.length_pos_of_mem hpath
    -- The one size change that the accessor counts is at the root.
    have hroot : [] ∈ sizePaths d.changes := by
      rw [← hsome]
      by_contra h
      rw [Bool.not_eq_true] at h
      rw [h] at hcount
      exact absurd hcount hpos.ne'
    obtain ⟨p, hp⟩ := List.length_eq_one_iff.mp
      (show (sizePaths d.changes).length = 1 from le_antisymm (hcount ▸ Bool.toNat_le _) hpos)
    rw [hp, List.mem_singleton] at hpath hroot
    rw [hpath, hroot]
  · rintro ⟨hle, hall⟩
    constructor
    · rw [hlen]
      refine congrArg _ ?_
      cases hpaths : sizePaths d.changes with
      | nil =>
          rw [hpaths] at hsome
          have hnone : d.sizeChange.isSome = false := by simpa using hsome
          rw [hnone]
          rfl
      | cons path paths =>
          have hpath := hall path (by rw [hpaths]; exact List.mem_cons_self)
          have htrue : d.sizeChange.isSome = true := hsome.mpr (by rw [hpaths, hpath]; simp)
          have hone : (path :: paths).length ≤ 1 := hpaths ▸ hle
          rw [htrue]
          exact le_antisymm hone (by simp)
    · intro i hi
      have hidx := findIdx_rootSize_iff hall hle hi
      have hkind := kind_total d.changes[i].kind
      rw [yields, List.getElem?_eq_getElem hi]
      simp only [hidx, Bool.decide_eq_true]
      exact hkind

end TypeDiff

/-- The accessors partition a diff exactly when its sizes change at most once,
and at the root path. -/
theorem diff_partitioned_iff (x y : CanonicalType) :
    (x.diff y).Partitioned ↔ SizesAtRoot x y := by
  have hperm := sizePaths_diffInto x y []
  rw [TypeDiff.partitioned_iff, SizesAtRoot]
  refine and_congr ?_ ?_
  · rw [show (sizePaths (x.diff y).changes).length = _ from hperm.length_eq, List.length_map]
  · constructor
    · intro h m hm
      exact h m.path (hperm.mem_iff.mpr (List.mem_map_of_mem hm))
    · intro h path hpath
      obtain ⟨m, hm, rfl⟩ := List.mem_map.mp (hperm.mem_iff.mp hpath)
      exact h m hm

/-- A structure whose only member has a structure without a tag for its type. -/
def nestedRecord (size : ℕ) : CanonicalType :=
  .aggregate (some ['s']) .struct
    [⟨['m'], some 0, none, .aggregate none .struct [] (some size)⟩] (some 16)

/-- The nested structure grows from 4 bytes to 8: one change, which no
accessor yields. -/
theorem diff_nestedRecord_not_partitioned :
    ((nestedRecord 4).diff (nestedRecord 8)).changes =
        [⟨['m'], .sizeChanged (some 4) (some 8)⟩] ∧
      ¬∀ x y : CanonicalType, (x.diff y).Partitioned := by
  refine ⟨by decide, fun h => ?_⟩
  have htotal := (h (nestedRecord 4) (nestedRecord 8)).total
  revert htotal
  decide

end Idakit.Types.Canonical
