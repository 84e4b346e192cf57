import Idakit.Types.Canonical.Mirror

/-!
The renames of a diff. A rename is displayed as the old name and the last
segment of the path, under the rest of the path. The path ends in the new name
only if there is one, and in all of it only if it has no dot of its own.
-/

namespace Idakit.Types.Canonical

open CanonicalType

/-! ### Splitting a path -/

def rfind (c : Char) : Text → Option ℕ
  | [] => none
  | a :: path =>
      match rfind c path with
      | some i => some (i + 1)
      | none => if a = c then some 0 else none

/-- A dotted path as what is before its last dot and its last segment. -/
def splitParent (path : Text) : Text × Text :=
  match rfind '.' path with
  | some i => (path.take i, path.drop (i + 1))
  | none => ([], path)

theorem rfind_eq_none_iff {c : Char} {path : Text} : rfind c path = none ↔ c ∉ path := by
  induction path with
  | nil => simp [rfind]
  | cons a path ih =>
      rw [rfind]
      cases h : rfind c path with
      | some i => simpa [h] using fun _ => ih.not.mp (by simp [h])
      | none => simp [ih.mp h, eq_comm]

theorem rfind_append {c : Char} (before : Text) {after : Text} (h : c ∉ after) :
    rfind c (before ++ c :: after) = some before.length := by
  induction before with
  | nil => simp [rfind, rfind_eq_none_iff.mpr h]
  | cons a before ih => simp [rfind, ih]

theorem splitParent_of_not_mem {path : Text} (h : '.' ∉ path) : splitParent path = ([], path) := by
  rw [splitParent, rfind_eq_none_iff.mpr h]

theorem splitParent_append (parent : Text) {leaf : Text} (h : '.' ∉ leaf) :
    splitParent (parent ++ '.' :: leaf) = (parent, leaf) := by
  rw [splitParent, rfind_append parent h]
  simp

/-- A path has no dot, or it is put together from its two parts again. -/
theorem splitParent_cases (path : Text) :
    '.' ∉ (splitParent path).2 ∧
      (splitParent path = ([], path) ∨
        path = (splitParent path).1 ++ '.' :: (splitParent path).2) := by
  by_cases h : '.' ∈ path
  · obtain ⟨before, after, rfl, hafter⟩ : ∃ before after, path = before ++ '.' :: after ∧
        '.' ∉ after := by
      obtain ⟨front, back, hpath, hback⟩ := List.eq_append_cons_of_mem (List.mem_reverse.mpr h)
      refine ⟨back.reverse, front.reverse, ?_, by simpa using hback⟩
      rw [← List.reverse_reverse path, hpath]
      simp
    rw [splitParent_append before hafter]
    exact ⟨hafter, .inr rfl⟩
  · rw [splitParent_of_not_mem h]
    exact ⟨h, .inl rfl⟩

/-- The path of a member shows its parent's and its own name just if the name
has no dot, and is there unless the parent's path is empty. -/
theorem splitParent_pathIn {m : Member} {parent : Text} :
    splitParent (pathIn m parent) = (parent, m.name) ↔
      '.' ∉ m.name ∧ (m.name = [] → parent = []) := by
  constructor
  · intro h
    obtain ⟨hdot, hparts⟩ := splitParent_cases (pathIn m parent)
    rw [h] at hdot hparts
    refine ⟨hdot, fun hname => ?_⟩
    have hpath : pathIn m parent = parent := by simp [pathIn, hname]
    rw [hpath] at hparts
    rcases hparts with hparts | hparts
    · exact (Prod.mk.inj hparts).1
    · have hlen := congrArg List.length hparts
      simp at hlen
  · rintro ⟨hdot, hempty⟩
    by_cases hname : m.name = []
    · rw [hempty hname, pathIn, hname]
      rfl
    · by_cases hparent : parent = []
      · have hpath : pathIn m parent = m.name := by simp [pathIn, join, hname, hparent]
        rw [hpath, splitParent_of_not_mem hdot, hparent]
      · have hpath : pathIn m parent = parent ++ '.' :: m.name := by
          simp [pathIn, join, hname, hparent]
        rw [hpath, splitParent_append parent hdot]

/-! ### The renames of a walk -/

/-- Two members paired across a change of name, in the type at a path. -/
structure Rename where
  path : Text
  left : Member
  right : Member

def Rename.change (e : Rename) : Change := ⟨pathIn e.right e.path, .renamed e.left.name⟩

def renamesOf (path : Text) (lm rm : List Member) : List Rename :=
  (pairMembers lm rm).pairs.filterMap fun (l, r, renamed) =>
    if renamed && l.name != r.name then some ⟨path, l, r⟩ else none

def Meeting.renames (m : Meeting) : List Rename :=
  if m.left = m.right then [] else
  match m.left, m.right with
  | .aggregate lt lk lm _, .aggregate rt rk rm _ =>
      if lk = rk ∧ lt = rt then renamesOf m.path lm rm else []
  | _, _ => []

def renames (x y : CanonicalType) : List Rename := (meetings x [] y).flatMap Meeting.renames

/-- A change is displayed as a rename of the left member to the right one, in
their type. -/
structure Displays (c : Change) (e : Rename) : Prop where
  old : c.kind = .renamed e.left.name
  path : splitParent c.path = (e.path, e.right.name)

/-- Every change of name in the diff is displayed as a rename of the walk, and
every rename of the walk by the change it is reported as. -/
structure RenamesReal (x y : CanonicalType) : Prop where
  real : ∀ c ∈ (x.diff y).changes, c.kind.isRenamed = true → ∃ e ∈ renames x y, Displays c e
  own : ∀ e ∈ renames x y, Displays e.change e

/-- New names have no dots, and are there except at the root. -/
def PlainNames (x y : CanonicalType) : Prop :=
  ∀ e ∈ renames x y, '.' ∉ e.right.name ∧ (e.right.name = [] → e.path = [])

theorem filter_isRenamed_slotChanges (l r : Member) (path : Text) (reportMove : Bool) :
    (slotChanges l r path reportMove).filter (fun c => c.kind.isRenamed) = [] := by
  rw [List.filter_eq_nil_iff]
  intro c hc
  rcases List.mem_append.mp hc with hc | hc
  · split at hc
    · contradiction
    · rw [List.mem_singleton.mp hc]
      simp [ChangeKind.isRenamed]
  · split at hc
    · split at hc
      · split at hc
        · contradiction
        · rw [List.mem_singleton.mp hc]
          simp [ChangeKind.isRenamed]
      · contradiction
    · contradiction

theorem filter_isRenamed_diffConstants (path : Text) (lm rm : List (Text × ℕ)) :
    (diffConstants path lm rm).filter (fun c => c.kind.isRenamed) = [] := by
  rw [List.filter_eq_nil_iff]
  intro c hc
  rcases List.mem_append.mp hc with hc | hc
  · obtain ⟨⟨name, value⟩, -, hc⟩ := List.mem_flatMap.mp hc
    simp only at hc
    split at hc
    · split at hc
      · contradiction
      · rw [List.mem_singleton.mp hc]
        simp [ChangeKind.isRenamed]
    · rw [List.mem_singleton.mp hc]
      simp [ChangeKind.isRenamed]
  · obtain ⟨⟨name, value⟩, -, hc⟩ := List.mem_flatMap.mp hc
    simp only at hc
    split at hc
    · contradiction
    · rw [List.mem_singleton.mp hc]
      simp [ChangeKind.isRenamed]

theorem filter_isRenamed_sizeChange (path : Text) (ls rs : Option ℕ) :
    (sizeChange path ls rs).filter (fun c => c.kind.isRenamed) = [] := by
  rw [sizeChange]
  split <;> rfl

/-- Members are reported as renamed for the pairs that change their name. -/
theorem filter_isRenamed_memberChanges (path : Text) (lm rm : List Member) :
    (memberChanges path lm rm).filter (fun c => c.kind.isRenamed) =
      (renamesOf path lm rm).map Rename.change := by
  have hpairs (structural : Bool) (ps : List (Member × Member × Bool)) :
      (ps.flatMap (pairChanges path structural)).filter (fun c => c.kind.isRenamed) =
        (ps.filterMap fun (l, r, renamed) =>
          if renamed && l.name != r.name then some (Rename.mk path l r) else none).map
            Rename.change := by
    induction ps with
    | nil => rfl
    | cons p ps ih =>
        obtain ⟨l, r, renamed⟩ := p
        rw [List.flatMap_cons, List.filter_append, ih, pairChanges, List.filter_append,
          filter_isRenamed_slotChanges, List.append_nil, List.filterMap_cons]
        simp only [renameChange]
        split <;> rfl
  rw [memberChanges, List.filter_append, List.filter_append, hpairs, renamesOf]
  simp [ChangeKind.isRenamed]

/-- A level reports its renames. -/
theorem filter_isRenamed_changes (m : Meeting) :
    m.changes.filter (fun c => c.kind.isRenamed) = m.renames.map Rename.change := by
  obtain ⟨path, left, right⟩ := m
  have hretyped : [Change.mk path (.retyped left right)].filter (fun c => c.kind.isRenamed) = [] :=
    rfl
  by_cases heq : left = right
  · rw [Meeting.changes, Meeting.renames, if_pos heq, if_pos heq]
    rfl
  · rw [Meeting.changes, Meeting.renames, if_neg heq, if_neg heq]
    cases left with
    | aggregate lt lk lm ls =>
        cases right with
        | aggregate rt rk rm rs =>
            by_cases halike : lk = rk ∧ lt = rt
            · simp only [if_pos halike]
              rw [List.filter_append, filter_isRenamed_sizeChange, List.nil_append,
                filter_isRenamed_memberChanges]
            · simp only [if_neg halike]
              exact hretyped
        | _ => exact hretyped
    | enum lt lu lm ls =>
        cases right with
        | enum rt ru rm rs =>
            simp only
            split
            · rw [List.filter_append, filter_isRenamed_sizeChange, List.nil_append,
                filter_isRenamed_diffConstants]
              rfl
            · exact hretyped
        | _ => exact hretyped
    | ptr lp lw => cases right <;> first | exact hretyped | (simp only; split <;> rfl)
    | array le ll => cases right <;> first | exact hretyped | (simp only; split <;> rfl)
    | function lret lp lv => cases right <;> first | exact hretyped | (simp only; split <;> rfl)
    | _ => cases right <;> exact hretyped

/-- The changes of name in a diff are those that the walk's renames are reported
as. -/
theorem renamed_changes (x y : CanonicalType) :
    ((x.diff y).changes.filter fun c => c.kind.isRenamed).Perm
      ((renames x y).map Rename.change) := by
  have hflat (ms : List Meeting) :
      (ms.flatMap Meeting.changes).filter (fun c => c.kind.isRenamed) =
        (ms.flatMap Meeting.renames).map Rename.change := by
    induction ms with
    | nil => rfl
    | cons m ms ih =>
        rw [List.flatMap_cons, List.flatMap_cons, List.filter_append, List.map_append, ih,
          filter_isRenamed_changes]
  rw [renames, ← hflat]
  exact (diffInto_perm x y []).filter _

/-- Renames are displayed as what they are exactly where the new names are
plain. -/
theorem renamesReal_iff (x y : CanonicalType) : RenamesReal x y ↔ PlainNames x y := by
  constructor
  · intro h e he
    exact splitParent_pathIn.mp (h.own e he).path
  · intro h
    have hown : ∀ e ∈ renames x y, Displays e.change e := fun e he =>
      ⟨rfl, splitParent_pathIn.mpr (h e he)⟩
    refine ⟨fun c hc hrenamed => ?_, hown⟩
    have hmem := (renamed_changes x y).mem_iff.mp (List.mem_filter.mpr ⟨hc, hrenamed⟩)
    obtain ⟨e, he, rfl⟩ := List.mem_map.mp hmem
    exact ⟨e, he, hown e he⟩

def inHeader (name : Text) : CanonicalType :=
  .aggregate (some ['s']) .struct
    [⟨['h'], some 0, none, .aggregate none .struct
      [⟨name, some 0, none, .int (some 4) true⟩] (some 4)⟩] (some 4)

/-- A member of `h` that loses its name is displayed as renamed to `h`. -/
theorem not_renamesReal_inHeader : ¬ RenamesReal (inHeader ['a']) (inHeader []) := by
  intro h
  have hchanges : ((inHeader ['a']).diff (inHeader [])).changes = [⟨['h'], .renamed ['a']⟩] := by
    decide
  obtain ⟨e, he, hdisplays⟩ := h.real ⟨['h'], .renamed ['a']⟩ (by rw [hchanges]; simp) rfl
  have hshown : splitParent ['h'] = ([], ['h']) := rfl
  have hname := (Prod.mk.inj (hshown.symm.trans hdisplays.path)).2
  -- No right member of the renamed pairs is called `h`.
  have hnone : ∀ e ∈ renames (inHeader ['a']) (inHeader []), ['h'] ≠ e.right.name := by
    decide
  exact hnone e he hname

end Idakit.Types.Canonical
