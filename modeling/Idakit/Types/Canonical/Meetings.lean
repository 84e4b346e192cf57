import Idakit.Types.Canonical.Engine

/-!
What the diff compares. The walk meets two types at a time: the roots, the
types of paired members, the parts of transparent wrappers. Each meeting
reports some changes of its own, and the diff is, up to the order, what its
meetings report. One induction principle over the two types at once carries
every statement about the walk.
-/

namespace Idakit.Types.Canonical

open Idakit.Library

namespace CanonicalType

/-- The two types are taken apart together: aggregates of one kind and tag,
enums of one tag, or wrappers of one shape. -/
def Alike : CanonicalType → CanonicalType → Prop
  | .aggregate lt lk _ _, .aggregate rt rk _ _ => lk = rk ∧ lt = rt
  | .enum lt _ _ _, .enum rt _ _ _ => lt = rt
  | .ptr _ lw, .ptr _ rw => lw = rw
  | .array _ ll, .array _ rl => ll = rl
  | .function _ lp lv, .function _ rp rv => lv = rv ∧ lp.length = rp.length
  | _, _ => False

/-- Induction along the walk: types that are equal, types that are taken
apart together, for which the parts may be assumed, and all others. -/
theorem compareInduct {P : CanonicalType → CanonicalType → Prop}
    (same : ∀ c, P c c)
    (aggregate : ∀ tag kind lm ls rm rs,
      CanonicalType.aggregate tag kind lm ls ≠ .aggregate tag kind rm rs →
      (∀ l ∈ lm, ∀ other, P l.ty other) →
      P (.aggregate tag kind lm ls) (.aggregate tag kind rm rs))
    (enum : ∀ tag lu lm ls ru rm rs,
      CanonicalType.enum tag lu lm ls ≠ .enum tag ru rm rs → P lu ru →
      P (.enum tag lu lm ls) (.enum tag ru rm rs))
    (ptr : ∀ lp rp width, CanonicalType.ptr lp width ≠ .ptr rp width → P lp rp →
      P (.ptr lp width) (.ptr rp width))
    (array : ∀ le re len, CanonicalType.array le len ≠ .array re len → P le re →
      P (.array le len) (.array re len))
    (function : ∀ lret lp rret rp varargs,
      CanonicalType.function lret lp varargs ≠ .function rret rp varargs →
      lp.length = rp.length → P lret rret → (∀ l ∈ lp, ∀ other, P l other) →
      P (.function lret lp varargs) (.function rret rp varargs))
    (retyped : ∀ self other, self ≠ other → ¬Alike self other → P self other)
    (self other : CanonicalType) : P self other := by
  have unequal {x y : CanonicalType} (h : x ≠ y → P x y) : P x y := by
    by_cases heq : x = y
    · exact heq ▸ same x
    · exact h heq
  -- Types that do not go on together are reported as retyped, and end the walk.
  induction self generalizing other with
  | aggregate tag kind lm ls ih =>
      refine unequal fun hne => ?_
      cases other with
      | aggregate rt rk rm rs =>
          by_cases halike : kind = rk ∧ tag = rt
          · obtain ⟨rfl, rfl⟩ := halike
            exact aggregate tag kind lm ls rm rs hne ih
          · exact retyped _ _ hne halike
      | _ => exact retyped _ _ hne id
  | enum tag lu lm ls ih =>
      refine unequal fun hne => ?_
      cases other with
      | enum rt ru rm rs =>
          by_cases halike : tag = rt
          · subst halike
            exact enum tag lu lm ls ru rm rs hne (ih ru)
          · exact retyped _ _ hne halike
      | _ => exact retyped _ _ hne id
  | ptr lp lw ih =>
      refine unequal fun hne => ?_
      cases other with
      | ptr rp rw =>
          by_cases halike : lw = rw
          · subst halike
            exact ptr lp rp lw hne (ih rp)
          · exact retyped _ _ hne halike
      | _ => exact retyped _ _ hne id
  | array le ll ih =>
      refine unequal fun hne => ?_
      cases other with
      | array re rl =>
          by_cases halike : ll = rl
          · subst halike
            exact array le re ll hne (ih re)
          · exact retyped _ _ hne halike
      | _ => exact retyped _ _ hne id
  | function lret lp lv ihr ihp =>
      refine unequal fun hne => ?_
      cases other with
      | function rret rp rv =>
          by_cases halike : lv = rv ∧ lp.length = rp.length
          · obtain ⟨rfl, hlen⟩ := halike
            exact function lret lp rret rp lv hne hlen (ihr rret) ihp
          · exact retyped _ _ hne halike
      | _ => exact retyped _ _ hne id
  | _ =>
      refine unequal fun hne => retyped _ _ hne ?_
      cases other <;> exact id

/-! ### The walk, arm by arm -/

@[simp] theorem diffInto_self (c : CanonicalType) (path : Text) : diffInto c path c = [] := by
  rw [diffInto.eq_def, if_pos rfl]

theorem diffInto_retyped {self other : CanonicalType} (path : Text) (hne : self ≠ other)
    (halike : ¬Alike self other) : diffInto self path other = [⟨path, .retyped self other⟩] := by
  rw [diffInto.eq_def, if_neg hne]
  cases self <;> cases other <;> first | rfl | exact if_neg halike

theorem diffInto_ptr {lp rp : CanonicalType} {width : Option ℕ} (path : Text)
    (hne : CanonicalType.ptr lp width ≠ .ptr rp width) :
    diffInto (.ptr lp width) path (.ptr rp width) = diffInto lp path rp := by
  rw [diffInto.eq_def, if_neg hne]
  exact if_pos rfl

theorem diffInto_array {le re : CanonicalType} {len : ℕ} (path : Text)
    (hne : CanonicalType.array le len ≠ .array re len) :
    diffInto (.array le len) path (.array re len) = diffInto le path re := by
  rw [diffInto.eq_def, if_neg hne]
  exact if_pos rfl

theorem diffInto_enum {tag : Option Text} {lu ru : CanonicalType} {lm rm : List (Text × ℕ)}
    {ls rs : Option ℕ} (path : Text)
    (hne : CanonicalType.enum tag lu lm ls ≠ .enum tag ru rm rs) :
    diffInto (.enum tag lu lm ls) path (.enum tag ru rm rs) =
      diffInto lu (join path "underlying".toList) ru ++ sizeChange path ls rs ++
        diffConstants path lm rm := by
  rw [diffInto.eq_def, if_neg hne]
  exact if_pos rfl

theorem diffInto_function {lret rret : CanonicalType} {lp rp : List CanonicalType}
    {varargs : Bool} (path : Text) (hlen : lp.length = rp.length)
    (hne : CanonicalType.function lret lp varargs ≠ .function rret rp varargs) :
    diffInto (.function lret lp varargs) path (.function rret rp varargs) =
      diffInto lret (join path "return".toList) rret ++ diffParams path 0 lp rp := by
  rw [diffInto.eq_def, if_neg hne]
  exact if_pos ⟨rfl, hlen⟩

end CanonicalType

open CanonicalType

/-- Every left member is paired or removed. -/
theorem pairMembers_left_perm (lm rm : List Member) :
    lm.Perm ((pairMembers lm rm).pairs.map (fun p => p.1) ++ (pairMembers lm rm).removed) := by
  have hname : lm.Perm ((pairByName lm rm).pairs.map Prod.fst ++ (pairByName lm rm).left) :=
    firstMatch_left_perm _ lm rm
  refine hname.trans ?_
  simp only [pairMembers, List.map_append, List.map_map, List.append_assoc]
  exact (uniqueMatch_left_perm _ _).append_left _

/-- Every right member is paired or added. -/
theorem pairMembers_right_perm (lm rm : List Member) :
    rm.Perm ((pairMembers lm rm).pairs.map (fun p => p.2.1) ++ (pairMembers lm rm).added) := by
  have hname : rm.Perm ((pairByName lm rm).pairs.map Prod.snd ++ (pairByName lm rm).right) :=
    firstMatch_right_perm _ lm rm
  refine hname.trans ?_
  simp only [pairMembers, List.map_append, List.map_map, List.append_assoc]
  exact (uniqueMatch_right_perm _ _).append_left _

/-- Paired members are members of the two lists. -/
theorem mem_of_mem_pairs {lm rm : List Member} {p : Member × Member × Bool}
    (h : p ∈ (pairMembers lm rm).pairs) : p.1 ∈ lm ∧ p.2.1 ∈ rm := by
  constructor
  · apply (pairMembers_left_perm lm rm).mem_iff.mpr
    exact List.mem_append_left _ (List.mem_map_of_mem h)
  · apply (pairMembers_right_perm lm rm).mem_iff.mpr
    exact List.mem_append_left _ (List.mem_map_of_mem h)

theorem diffMemberType_of_mem {members : List Member} {l : Member} (hl : l ∈ members) :
    diffMemberType members l.ty = diffInto l.ty := by
  funext path other
  induction members with
  | nil => cases hl
  | cons m members ih =>
      obtain ⟨name, bitOffset, width, ty⟩ := m
      rw [diffMemberType]
      split
      next h => rw [h]
      next h =>
        refine ih ((List.mem_cons.mp hl).resolve_left ?_)
        rintro rfl
        exact h rfl

theorem diffMembers_congr {recur recur' : CanonicalType → Text → CanonicalType → List Change}
    {lm : List Member} (h : ∀ l ∈ lm, recur l.ty = recur' l.ty) (path : Text)
    (rm : List Member) : diffMembers recur path lm rm = diffMembers recur' path lm rm := by
  have hpairs : ∀ p ∈ (pairMembers lm rm).pairs, recur p.1.ty = recur' p.1.ty :=
    fun p hp => h p.1 (mem_of_mem_pairs hp).1
  simp only [diffMembers, diffAgainst]
  congr 2
  refine List.flatMap_congr fun p hp => ?_
  rw [hpairs p hp]

theorem diffInto_aggregate {tag : Option Text} {kind : RecordKind} {lm rm : List Member}
    {ls rs : Option ℕ} (path : Text)
    (hne : CanonicalType.aggregate tag kind lm ls ≠ .aggregate tag kind rm rs) :
    diffInto (.aggregate tag kind lm ls) path (.aggregate tag kind rm rs) =
      sizeChange path ls rs ++ diffMembers diffInto path lm rm := by
  rw [diffInto.eq_def, if_neg hne]
  refine (if_pos ⟨rfl, rfl⟩).trans ?_
  rw [diffMembers_congr fun l hl => diffMemberType_of_mem hl]

/-! ### Meetings -/

/-- Two types that the walk compares, and the path it has reached. -/
structure Meeting where
  path : Text
  left : CanonicalType
  right : CanonicalType

namespace CanonicalType

mutual

/-- The meetings of the walk, the two types themselves first. Equal types
are not taken apart. -/
def meetings (self : CanonicalType) (path : Text) (other : CanonicalType) : List Meeting :=
  ⟨path, self, other⟩ ::
  if self = other then [] else
  match self, other with
  | .aggregate lt lk lm _, .aggregate rt rk rm _ =>
      if lk = rk ∧ lt = rt then
        (pairMembers lm rm).pairs.flatMap fun (l, r, _) =>
          memberMeetings lm l.ty (pathIn r path) r.ty
      else []
  | .enum lt lu _ _, .enum rt ru _ _ =>
      if lt = rt then meetings lu (join path "underlying".toList) ru else []
  | .ptr lp lw, .ptr rp rw => if lw = rw then meetings lp path rp else []
  | .array le ll, .array re rl => if ll = rl then meetings le path re else []
  | .function lret lp lv, .function rret rp rv =>
      if lv = rv ∧ lp.length = rp.length then
        meetings lret (join path "return".toList) rret ++ paramMeetings path 0 lp rp
      else []
  | _, _ => []
termination_by structural self

def memberMeetings (members : List Member) (self : CanonicalType) (path : Text)
    (other : CanonicalType) : List Meeting :=
  match members with
  | [] => []
  | ⟨_, _, _, ty⟩ :: members =>
      if ty = self then meetings ty path other else memberMeetings members self path other
termination_by structural members

def paramMeetings (path : Text) (i : ℕ) (lp rp : List CanonicalType) : List Meeting :=
  match lp, rp with
  | a :: lp, b :: rp =>
      meetings a (join path ("arg".toList ++ decimal i)) b ++ paramMeetings path (i + 1) lp rp
  | _, _ => []
termination_by structural lp

end

attribute [grind =] meetings memberMeetings paramMeetings

end CanonicalType

def pairChanges (path : Text) (structural : Bool) (p : Member × Member × Bool) : List Change :=
  renameChange p.1 p.2.1 path p.2.2 ++ slotChanges p.1 p.2.1 path (!structural)

/-- The changes of two aggregates' members besides those of their types. -/
def memberChanges (path : Text) (lm rm : List Member) : List Change :=
  let p := pairMembers lm rm
  p.pairs.flatMap (pairChanges path p.structural) ++
    (p.removed.map fun l => ⟨pathIn l path, .removed l.ty⟩) ++
    p.added.map fun r => ⟨pathIn r path, .added r.ty⟩

def Meeting.changes (m : Meeting) : List Change :=
  if m.left = m.right then [] else
  match m.left, m.right with
  | .aggregate lt lk lm ls, .aggregate rt rk rm rs =>
      if lk = rk ∧ lt = rt then sizeChange m.path ls rs ++ memberChanges m.path lm rm
      else [⟨m.path, .retyped (.aggregate lt lk lm ls) (.aggregate rt rk rm rs)⟩]
  | .enum lt lu lm ls, .enum rt ru rm rs =>
      if lt = rt then sizeChange m.path ls rs ++ diffConstants m.path lm rm
      else [⟨m.path, .retyped (.enum lt lu lm ls) (.enum rt ru rm rs)⟩]
  | .ptr lp lw, .ptr rp rw =>
      if lw = rw then [] else [⟨m.path, .retyped (.ptr lp lw) (.ptr rp rw)⟩]
  | .array le ll, .array re rl =>
      if ll = rl then [] else [⟨m.path, .retyped (.array le ll) (.array re rl)⟩]
  | .function lret lp lv, .function rret rp rv =>
      if lv = rv ∧ lp.length = rp.length then []
      else [⟨m.path, .retyped (.function lret lp lv) (.function rret rp rv)⟩]
  | self, other => [⟨m.path, .retyped self other⟩]

theorem memberMeetings_of_mem {members : List Member} {l : Member} (hl : l ∈ members) :
    memberMeetings members l.ty = meetings l.ty := by
  funext path other
  induction members with
  | nil => cases hl
  | cons m members ih =>
      obtain ⟨name, bitOffset, width, ty⟩ := m
      rw [memberMeetings]
      split
      next h => rw [h]
      next h =>
        refine ih ((List.mem_cons.mp hl).resolve_left ?_)
        rintro rfl
        exact h rfl

theorem meetings_self (c : CanonicalType) (path : Text) :
    meetings c path c = [⟨path, c, c⟩] := by
  rw [meetings.eq_def, if_pos rfl]

theorem meetings_retyped {self other : CanonicalType} (path : Text) (hne : self ≠ other)
    (halike : ¬Alike self other) : meetings self path other = [⟨path, self, other⟩] := by
  rw [meetings.eq_def, if_neg hne]
  refine congrArg _ ?_
  cases self <;> cases other <;> first | rfl | exact if_neg halike

theorem changes_retyped {self other : CanonicalType} (path : Text) (hne : self ≠ other)
    (halike : ¬Alike self other) :
    (Meeting.mk path self other).changes = [⟨path, .retyped self other⟩] := by
  rw [Meeting.changes, if_neg hne]
  cases self <;> cases other <;> first | rfl | exact if_neg halike

theorem meetings_aggregate {tag : Option Text} {kind : RecordKind} {lm rm : List Member}
    {ls rs : Option ℕ} (path : Text)
    (hne : CanonicalType.aggregate tag kind lm ls ≠ .aggregate tag kind rm rs) :
    meetings (.aggregate tag kind lm ls) path (.aggregate tag kind rm rs) =
      ⟨path, .aggregate tag kind lm ls, .aggregate tag kind rm rs⟩ ::
        (pairMembers lm rm).pairs.flatMap fun p => meetings p.1.ty (pathIn p.2.1 path) p.2.1.ty := by
  rw [meetings.eq_def, if_neg hne]
  refine congrArg _ ((if_pos ⟨rfl, rfl⟩).trans ?_)
  refine List.flatMap_congr fun p hp => ?_
  obtain ⟨l, r, renamed⟩ := p
  simp only [memberMeetings_of_mem (mem_of_mem_pairs hp).1]

theorem meetings_enum {tag : Option Text} {lu ru : CanonicalType} {lm rm : List (Text × ℕ)}
    {ls rs : Option ℕ} (path : Text)
    (hne : CanonicalType.enum tag lu lm ls ≠ .enum tag ru rm rs) :
    meetings (.enum tag lu lm ls) path (.enum tag ru rm rs) =
      ⟨path, .enum tag lu lm ls, .enum tag ru rm rs⟩ ::
        meetings lu (join path "underlying".toList) ru := by
  rw [meetings.eq_def, if_neg hne]
  exact congrArg _ (if_pos rfl)

theorem meetings_ptr {lp rp : CanonicalType} {width : Option ℕ} (path : Text)
    (hne : CanonicalType.ptr lp width ≠ .ptr rp width) :
    meetings (.ptr lp width) path (.ptr rp width) =
      ⟨path, .ptr lp width, .ptr rp width⟩ :: meetings lp path rp := by
  rw [meetings.eq_def, if_neg hne]
  exact congrArg _ (if_pos rfl)

theorem meetings_array {le re : CanonicalType} {len : ℕ} (path : Text)
    (hne : CanonicalType.array le len ≠ .array re len) :
    meetings (.array le len) path (.array re len) =
      ⟨path, .array le len, .array re len⟩ :: meetings le path re := by
  rw [meetings.eq_def, if_neg hne]
  exact congrArg _ (if_pos rfl)

theorem meetings_function {lret rret : CanonicalType} {lp rp : List CanonicalType}
    {varargs : Bool} (path : Text) (hlen : lp.length = rp.length)
    (hne : CanonicalType.function lret lp varargs ≠ .function rret rp varargs) :
    meetings (.function lret lp varargs) path (.function rret rp varargs) =
      ⟨path, .function lret lp varargs, .function rret rp varargs⟩ ::
        (meetings lret (join path "return".toList) rret ++ paramMeetings path 0 lp rp) := by
  rw [meetings.eq_def, if_neg hne]
  exact congrArg _ (if_pos ⟨rfl, hlen⟩)

/-- The parts of a matched pair's changes may be told apart. -/
theorem diffMembers_perm (recur : CanonicalType → Text → CanonicalType → List Change)
    (path : Text) (lm rm : List Member) :
    (diffMembers recur path lm rm).Perm
      (((pairMembers lm rm).pairs.flatMap fun p => recur p.1.ty (pathIn p.2.1 path) p.2.1.ty) ++
        memberChanges path lm rm) := by
  rw [memberChanges, ← List.append_assoc, ← List.append_assoc]
  refine List.Perm.append_right _ (List.Perm.append_right _ ?_)
  refine List.Perm.trans ?_ (List.flatMap_append_perm _ _ _).symm
  refine List.Perm.flatMap_left _ fun p _ => ?_
  obtain ⟨l, r, renamed⟩ := p
  simp only [diffAgainst, pairChanges]
  rw [← List.append_assoc, ← List.append_assoc]
  exact List.perm_append_comm.append_right _

theorem diffParams_perm {lp : List CanonicalType}
    (h : ∀ l ∈ lp, ∀ other path,
      (diffInto l path other).Perm ((meetings l path other).flatMap Meeting.changes))
    (path : Text) (i : ℕ) (rp : List CanonicalType) :
    (diffParams path i lp rp).Perm ((paramMeetings path i lp rp).flatMap Meeting.changes) := by
  induction lp generalizing i rp with
  | nil => exact .refl _
  | cons a lp ih =>
      cases rp with
      | nil => exact .refl _
      | cons b rp =>
          rw [diffParams, paramMeetings, List.flatMap_append]
          exact (h a (by simp) b _).append (ih (fun l hl => h l (List.mem_cons_of_mem a hl)) _ rp)

/-- The diff is what the meetings of the walk report, up to the order. -/
theorem diffInto_perm (self other : CanonicalType) (path : Text) :
    (diffInto self path other).Perm ((meetings self path other).flatMap Meeting.changes) := by
  -- The walk reports the types of members before their slots, a meeting its own changes first.
  induction self, other using compareInduct generalizing path with
  | same c =>
      rw [diffInto_self, meetings_self]
      simp [Meeting.changes]
  | aggregate tag kind lm ls rm rs hne ih =>
      have hchanges : (Meeting.mk path (.aggregate tag kind lm ls)
          (.aggregate tag kind rm rs)).changes = sizeChange path ls rs ++ memberChanges path lm rm := by
        rw [Meeting.changes, if_neg hne]
        exact if_pos ⟨rfl, rfl⟩
      rw [diffInto_aggregate path hne, meetings_aggregate path hne, List.flatMap_cons, hchanges,
        List.flatMap_assoc, List.append_assoc]
      refine ((diffMembers_perm _ path lm rm).trans List.perm_append_comm).append_left _ |>.trans ?_
      refine (List.Perm.flatMap_left _ fun p hp => ?_).append_left _ |>.append_left _
      exact ih p.1 (mem_of_mem_pairs hp).1 _ _
  | enum tag lu lm ls ru rm rs hne ih =>
      have hchanges : (Meeting.mk path (.enum tag lu lm ls) (.enum tag ru rm rs)).changes =
          sizeChange path ls rs ++ diffConstants path lm rm := by
        rw [Meeting.changes, if_neg hne]
        exact if_pos rfl
      rw [diffInto_enum path hne, meetings_enum path hne, List.flatMap_cons, hchanges, List.append_assoc]
      exact List.perm_append_comm.trans ((ih _).append_left _)
  | ptr lp rp width hne ih =>
      have hchanges : (Meeting.mk path (.ptr lp width) (.ptr rp width)).changes = [] := by
        rw [Meeting.changes, if_neg hne]
        exact if_pos rfl
      rw [diffInto_ptr path hne, meetings_ptr path hne, List.flatMap_cons, hchanges, List.nil_append]
      exact ih path
  | array le re len hne ih =>
      have hchanges : (Meeting.mk path (.array le len) (.array re len)).changes = [] := by
        rw [Meeting.changes, if_neg hne]
        exact if_pos rfl
      rw [diffInto_array path hne, meetings_array path hne, List.flatMap_cons, hchanges, List.nil_append]
      exact ih path
  | function lret lp rret rp varargs hne hlen ihr ihp =>
      have hchanges : (Meeting.mk path (.function lret lp varargs)
          (.function rret rp varargs)).changes = [] := by
        rw [Meeting.changes, if_neg hne]
        exact if_pos ⟨rfl, hlen⟩
      rw [diffInto_function path hlen hne, meetings_function path hlen hne, List.flatMap_cons, hchanges,
        List.nil_append, List.flatMap_append]
      exact (ihr _).append (diffParams_perm ihp path 0 rp)
  | retyped self other hne halike =>
      rw [diffInto_retyped path hne halike, meetings_retyped path hne halike]
      simp [changes_retyped path hne halike]

end Idakit.Types.Canonical
