import Idakit.Types.Canonical.Accessors
import Mathlib.Logic.Relation

/-!
The size change at the root. It is told by its path, and the path of the root
is shared by all that the walk reaches through pointers, arrays and members
without a name; so the accessor yields the first drift of any of them.
-/

namespace Idakit.Types.Canonical

open CanonicalType

/-- Two aggregates of one kind and tag, or two enums of one tag, of the sizes
`l` and `r`, which differ. -/
def OwnDrift (x y : CanonicalType) (l r : Option ℕ) : Prop :=
  match x, y with
  | .aggregate lt lk _ ls, .aggregate rt rk _ rs => lk = rk ∧ lt = rt ∧ ls = l ∧ rs = r ∧ l ≠ r
  | .enum lt _ _ ls, .enum rt _ _ rs => lt = rt ∧ ls = l ∧ rs = r ∧ l ≠ r
  | _, _ => False

def RootSizeOwn (x y : CanonicalType) : Prop :=
  ∀ l r, (x.diff y).sizeChange = some (l, r) ↔ OwnDrift x y l r

/-- Parts of two types that differ, compared under the path of the two types:
pointees, elements, and matched members of which the right one has no name. -/
inductive SharesPath : CanonicalType × CanonicalType → CanonicalType × CanonicalType → Prop
  | pointee {lp rp width} (hne : CanonicalType.ptr lp width ≠ .ptr rp width) :
      SharesPath (.ptr lp width, .ptr rp width) (lp, rp)
  | element {le re len} (hne : CanonicalType.array le len ≠ .array re len) :
      SharesPath (.array le len, .array re len) (le, re)
  | member {tag kind lm ls rm rs p}
      (hne : CanonicalType.aggregate tag kind lm ls ≠ .aggregate tag kind rm rs)
      (hp : p ∈ (pairMembers lm rm).pairs) (hname : p.2.1.name = []) :
      SharesPath (.aggregate tag kind lm ls, .aggregate tag kind rm rs) (p.1.ty, p.2.1.ty)

def NoOtherDrift (x y : CanonicalType) : Prop :=
  (∃ l r, OwnDrift x y l r) ∨
    ∀ p, Relation.TransGen SharesPath (x, y) p → ∀ l r, ¬ OwnDrift p.1 p.2 l r

/-! ### Paths -/

theorem join_ne_nil (path : Text) {name : Text} (h : name ≠ []) : join path name ≠ [] := by
  rw [join]
  split
  · exact h
  · simp

theorem pathIn_eq_nil {m : Member} {parent : Text} :
    pathIn m parent = [] ↔ m.name = [] ∧ parent = [] := by
  rw [pathIn]
  by_cases h : m.name = []
  · simp [h]
  · have hjoin := join_ne_nil parent h
    simp [h, hjoin]

theorem mem_paramMeetings {lp : List CanonicalType} {m : Meeting} :
    ∀ {path : Text} {i : ℕ} {rp : List CanonicalType}, m ∈ paramMeetings path i lp rp →
      ∃ a ∈ lp, ∃ (b : CanonicalType) (j : ℕ),
        m ∈ meetings a (join path ("arg".toList ++ Library.decimal j)) b := by
  induction lp with
  | nil =>
      intro path i rp h
      simp [paramMeetings] at h
  | cons a lp ih =>
      intro path i rp h
      cases rp with
      | nil => simp [paramMeetings] at h
      | cons b rp =>
          rw [paramMeetings] at h
          rcases List.mem_append.mp h with h | h
          · exact ⟨a, by simp, b, i, h⟩
          · obtain ⟨a', ha', hrest⟩ := ih h
            exact ⟨a', List.mem_cons_of_mem _ ha', hrest⟩

/-- What the walk meets at the root path is what shares that path. -/
theorem mem_meetings_root (x y : CanonicalType) (path : Text) (p : CanonicalType × CanonicalType) :
    ⟨[], p.1, p.2⟩ ∈ meetings x path y ↔
      path = [] ∧ Relation.ReflTransGen SharesPath (x, y) p := by
  have hhere {x y : CanonicalType} {path : Text} :
      (⟨[], p.1, p.2⟩ : Meeting) = ⟨path, x, y⟩ ↔ path = [] ∧ (x, y) = p := by
    rw [Meeting.mk.injEq, Prod.ext_iff]
    exact and_congr eq_comm (and_congr eq_comm eq_comm)
  -- Without a part under the same path, only the two types themselves are at the root.
  have hstop {x y : CanonicalType} (hstep : ∀ q, ¬ SharesPath (x, y) q) :
      Relation.ReflTransGen SharesPath (x, y) p ↔ (x, y) = p := by
    rw [Relation.ReflTransGen.cases_head_iff]
    exact or_iff_left fun ⟨q, hq, _⟩ => hstep q hq
  induction x, y using compareInduct generalizing path with
  | same c =>
      rw [meetings_self, List.mem_singleton, hhere, hstop]
      intro q hq
      cases hq <;> contradiction
  | aggregate tag kind lm ls rm rs hne ih =>
      rw [meetings_aggregate path hne, List.mem_cons, hhere, List.mem_flatMap,
        Relation.ReflTransGen.cases_head_iff, and_or_left]
      refine or_congr_right ⟨?_, ?_⟩
      · rintro ⟨q, hq, hmem⟩
        obtain ⟨hpath, hreach⟩ := (ih q.1 (mem_of_mem_pairs hq).1 _ _).mp hmem
        obtain ⟨hname, rfl⟩ := pathIn_eq_nil.mp hpath
        exact ⟨rfl, _, .member hne hq hname, hreach⟩
      · rintro ⟨rfl, c, hstep, hreach⟩
        cases hstep with
        | member _ hq hname =>
            refine ⟨_, hq, (ih _ (mem_of_mem_pairs hq).1 _ _).mpr ⟨?_, hreach⟩⟩
            exact pathIn_eq_nil.mpr ⟨hname, rfl⟩
  | enum tag lu lm ls ru rm rs hne ih =>
      have hlabel : join path "underlying".toList ≠ [] := join_ne_nil path (by simp)
      rw [meetings_enum path hne, List.mem_cons, hhere, hstop (by rintro q ⟨⟩)]
      exact or_iff_left fun h => hlabel ((ih _).mp h).1
  | ptr lp rp width hne ih =>
      rw [meetings_ptr path hne, List.mem_cons, hhere, Relation.ReflTransGen.cases_head_iff,
        and_or_left]
      refine or_congr_right ((ih path).trans (and_congr_right fun _ => ⟨fun hreach => ?_, ?_⟩))
      · exact ⟨_, .pointee hne, hreach⟩
      · rintro ⟨c, hstep, hreach⟩
        cases hstep
        exact hreach
  | array le re len hne ih =>
      rw [meetings_array path hne, List.mem_cons, hhere, Relation.ReflTransGen.cases_head_iff,
        and_or_left]
      refine or_congr_right ((ih path).trans (and_congr_right fun _ => ⟨fun hreach => ?_, ?_⟩))
      · exact ⟨_, .element hne, hreach⟩
      · rintro ⟨c, hstep, hreach⟩
        cases hstep
        exact hreach
  | function lret lp rret rp varargs hne hlen ihr ihp =>
      have hlabel : join path "return".toList ≠ [] := join_ne_nil path (by simp)
      rw [meetings_function path hlen hne, List.mem_cons, hhere, List.mem_append,
        hstop (by rintro q ⟨⟩)]
      refine or_iff_left ?_
      rintro (h | h)
      · exact hlabel ((ihr _).mp h).1
      · obtain ⟨a, ha, b, j, hmem⟩ := mem_paramMeetings h
        have harg : join path ("arg".toList ++ Library.decimal j) ≠ [] :=
          join_ne_nil path (by simp)
        exact harg ((ihp a ha b _).mp hmem).1
  | retyped self other hne halike =>
      rw [meetings_retyped path hne halike, List.mem_singleton, hhere, hstop]
      rintro q hq
      cases hq with
      | pointee _ => exact halike rfl
      | element _ => exact halike rfl
      | member _ _ _ => exact halike ⟨rfl, rfl⟩

/-! ### Drifts -/

theorem sizeDrift_iff {m : Meeting} :
    m.sizeDrift = true ↔ ∃ l r, OwnDrift m.left m.right l r := by
  obtain ⟨path, left, right⟩ := m
  cases left <;> cases right <;> simp [Meeting.sizeDrift, OwnDrift, and_assoc]

theorem isSome_sizeChange_iff (x y : CanonicalType) :
    (x.diff y).sizeChange.isSome ↔
      ∃ p, Relation.ReflTransGen SharesPath (x, y) p ∧ ∃ l r, OwnDrift p.1 p.2 l r := by
  rw [TypeDiff.sizeChange_isSome_iff, CanonicalType.diff, (sizePaths_diffInto x y []).mem_iff,
    List.mem_map]
  constructor
  · rintro ⟨⟨path, left, right⟩, hm, rfl⟩
    obtain ⟨hmem, hdrift⟩ := List.mem_filter.mp hm
    exact ⟨(left, right), ((mem_meetings_root x y [] (left, right)).mp hmem).2,
      sizeDrift_iff.mp hdrift⟩
  · rintro ⟨p, hreach, hdrift⟩
    refine ⟨⟨[], p.1, p.2⟩, List.mem_filter.mpr ⟨?_, sizeDrift_iff.mpr hdrift⟩, rfl⟩
    exact (mem_meetings_root x y [] p).mpr ⟨rfl, hreach⟩

/-- The first size change at the root path is the roots' own, if they drift. -/
theorem sizeChange_of_ownDrift {x y : CanonicalType} {l r : Option ℕ} (h : OwnDrift x y l r) :
    (x.diff y).sizeChange = some (l, r) := by
  have hfirst : ∀ {ls rs : Option ℕ} {rest : List Change}, ls ≠ rs →
      (sizeChange [] ls rs ++ rest).findSome? Change.rootSize = some (ls, rs) := by
    intro ls rs rest hne
    rw [sizeChange, if_neg hne]
    rfl
  cases x with
  | aggregate lt lk lm ls =>
      cases y with
      | aggregate rt rk rm rs =>
          obtain ⟨rfl, rfl, rfl, rfl, hlr⟩ := h
          have hne : CanonicalType.aggregate lt lk lm ls ≠ .aggregate lt lk rm rs := by
            simp [hlr]
          rw [TypeDiff.sizeChange, CanonicalType.diff, diffInto_aggregate [] hne]
          exact hfirst hlr
      | _ => exact h.elim
  | enum lt lu lm ls =>
      cases y with
      | enum rt ru rm rs =>
          obtain ⟨rfl, rfl, rfl, hlr⟩ := h
          have hne : CanonicalType.enum lt lu lm ls ≠ .enum lt ru rm rs := by
            simp [hlr]
          -- The underlying types are compared first, under a path of their own.
          have hunder : (diffInto lu (join [] "underlying".toList) ru).findSome? Change.rootSize =
              none := by
            rw [List.findSome?_eq_none_iff]
            intro c hc
            by_contra hsome
            obtain ⟨hsize, hpath⟩ := isSize_of_rootSize (Option.isSome_iff_ne_none.mpr hsome)
            have hroot : [] ∈ sizePaths (diffInto lu (join [] "underlying".toList) ru) :=
              List.mem_map.mpr ⟨c, List.mem_filter.mpr ⟨hc, hsize⟩, hpath⟩
            obtain ⟨⟨path, left, right⟩, hm, rfl⟩ :=
              List.mem_map.mp ((sizePaths_diffInto lu ru _).mem_iff.mp hroot)
            have hmem := (List.mem_filter.mp hm).1
            have hnil := ((mem_meetings_root lu ru _ (left, right)).mp hmem).1
            exact join_ne_nil [] (by simp) hnil
          rw [TypeDiff.sizeChange, CanonicalType.diff, diffInto_enum [] hne, List.append_assoc,
            List.findSome?_append, hunder, Option.none_or]
          exact hfirst hlr
      | _ => exact h.elim
  | _ => cases y <;> exact h.elim

/-- The size change is the roots' own exactly where nothing else that drifts
shares their path, or they drift themselves. -/
theorem rootSizeOwn_iff (x y : CanonicalType) : RootSizeOwn x y ↔ NoOtherDrift x y := by
  constructor
  · intro h
    by_cases hown : ∃ l r, OwnDrift x y l r
    · exact .inl hown
    · right
      intro p hreach l r hdrift
      have hsome : (x.diff y).sizeChange.isSome :=
        (isSome_sizeChange_iff x y).mpr ⟨p, hreach.to_reflTransGen, l, r, hdrift⟩
      obtain ⟨⟨l', r'⟩, hsize⟩ := Option.isSome_iff_exists.mp hsome
      exact hown ⟨l', r', (h l' r').mp hsize⟩
  · rintro (⟨l, r, hown⟩ | hnone) l' r'
    · constructor
      · intro hsize
        rw [sizeChange_of_ownDrift hown] at hsize
        obtain ⟨rfl, rfl⟩ := Prod.mk.inj (Option.some.inj hsize)
        exact hown
      · exact sizeChange_of_ownDrift
    · refine ⟨fun hsize => ?_, sizeChange_of_ownDrift⟩
      have hsome : (x.diff y).sizeChange.isSome := by simp [hsize]
      obtain ⟨p, hreach, l, r, hdrift⟩ := (isSome_sizeChange_iff x y).mp hsome
      rcases Relation.reflTransGen_iff_eq_or_transGen.mp hreach with rfl | hbelow
      · rw [sizeChange_of_ownDrift hdrift] at hsize
        obtain ⟨rfl, rfl⟩ := Prod.mk.inj (Option.some.inj hsize)
        exact hdrift
      · exact absurd hdrift (hnone p hbelow l r)

/-- A structure of 16 bytes with a union that has no name. -/
def withUnnamedUnion (size : ℕ) : CanonicalType :=
  .aggregate (some ['s']) .struct
    [⟨[], some 0, none, .aggregate none .union [] (some size)⟩] (some 16)

/-- The union grows from 4 bytes to 8, and the structure is said to. -/
theorem not_rootSizeOwn_withUnnamedUnion :
    ¬ RootSizeOwn (withUnnamedUnion 4) (withUnnamedUnion 8) := by
  intro h
  have hsize : ((withUnnamedUnion 4).diff (withUnnamedUnion 8)).sizeChange =
      some (some 4, some 8) := by decide
  obtain ⟨-, -, hown, -⟩ := (h _ _).mp hsize
  exact absurd hown (by decide)

end Idakit.Types.Canonical
