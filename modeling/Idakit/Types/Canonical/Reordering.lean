import Idakit.Types.Canonical.Form
import Idakit.Types.Canonical.Meetings

/-!
When a diff is empty. Members pair by name wherever they stand, so the diff
does not see the order in which a struct lists its members, while equality
of canonical types does. Among canonical forms that is all it misses: the
diff is empty exactly when one type reorders the other.
-/

namespace Idakit.Types

open Idakit.Library

structure TypeTable.DistinctNames (table : TypeTable) : Prop where
  members : ∀ id kind name members size,
    table.get id = some ⟨Canonical.recordShape kind name members, size⟩ →
      (members.map TypeMember.name).Nodup
  constants : ∀ id name underlying members isBitmask repr size,
    table.get id = some ⟨.enum name underlying members isBitmask repr, size⟩ →
      (members.map EnumMember.name).Nodup

namespace Canonical

open CanonicalType

/-! ### The names in a canonical form -/

/-- Distinct names, constants in name order, and offsets on all members or on
none of them, as the options say. -/
def Tidy (opts : CanonicalOptions) : CanonicalType → Prop
  | .aggregate _ _ members _ =>
      (members.map CanonicalMember.name).Nodup ∧
        ∀ m ∈ members, m.bitOffset.isSome = opts.includeSizes
  | .enum _ _ members _ => (members.map Prod.fst).Nodup ∧ SortedByKey Prod.fst members
  | _ => True

theorem isSome_offset (opts : CanonicalOptions) (bits : ℕ) :
    (opts.offset bits).isSome = opts.includeSizes := by
  rw [CanonicalOptions.offset]
  cases opts.includeSizes <;> rfl

theorem nodup_constants {members : List EnumMember} (h : (members.map EnumMember.name).Nodup) :
    ((constants members).map Prod.fst).Nodup := by
  have hperm : ((constants members).map Prod.fst).Perm
      ((members.map fun m => (m.name, m.value)).map Prod.fst) :=
    (sortByKey_perm _ _).map _
  rw [hperm.nodup_iff, List.map_map]
  exact h

theorem arrange_perm (kind : RecordKind) (members : List Member) :
    (arrange kind members).Perm members := by
  cases kind with
  | struct => exact .refl _
  | union => exact sortByKey_perm _ _

/-- The forms of a table with distinct names are tidy throughout. -/
theorem Spells.tidy {table : TypeTable} (hnames : table.DistinctNames)
    {opts : CanonicalOptions} {stack : List TypeId} {id : TypeId} {spellNamed : Bool}
    {c : CanonicalType} (h : Spells table opts stack id spellNamed c) :
    Everywhere (Tidy opts) c := by
  refine h.induct (P := fun _ _ _ c => Everywhere (Tidy opts) c) ?_
  intro stack id spellNamed c h
  cases h with
  | @leaf shape size c hget hleaf =>
      cases shape <;> cases hleaf <;> exact .mk trivial (by simp [children])
  | ptr hget hc | array hget hc | typedef hget hc =>
      exact .mk trivial (by simpa [children] using hc.2)
  | @function ret params varargs size r ps hget hr hps =>
      refine .mk trivial fun d hd => ?_
      rcases List.mem_cons.mp hd with rfl | hd
      · exact hr.2
      · obtain ⟨hlen, hps⟩ := List.forall₂_iff_zip.mp hps
        obtain ⟨p, hp⟩ := exists_mem_zip hlen hd
        exact (hps hp).2
  | enumCut | recordCut | backRef => exact .mk trivial (by simp [children])
  | enum hget hspell hc =>
      refine .mk ⟨?_, sortByKey_sorted _ _⟩ (by simpa [children] using hc.2)
      exact nodup_constants (hnames.constants _ _ _ _ _ _ _ hget)
  | @record kind name members size ms hget hspell hfresh hms =>
      have hperm := arrange_perm kind ms
      have hnodup : (ms.map CanonicalMember.name).Nodup := by
        have heq : ms.map CanonicalMember.name = members.map TypeMember.name := by
          have hforall : List.Forall₂ (fun (m : TypeMember) (cm : Member) => cm.name = m.name)
            members ms := hms.imp fun _ _ hm => hm.name
          clear hms hperm hget
          induction hforall with
          | nil => rfl
          | cons hname _ ih => rw [List.map_cons, List.map_cons, hname, ih]
        rw [heq]
        exact hnames.members _ _ _ _ _ hget
      obtain ⟨hlen, hms⟩ := List.forall₂_iff_zip.mp hms
      refine .mk ⟨(hperm.map _).nodup_iff.mpr hnodup, fun cm hcm => ?_⟩ fun d hd => ?_
      · obtain ⟨m, hm⟩ := exists_mem_zip hlen (hperm.mem_iff.mp hcm)
        rw [(hms hm).bitOffset]
        exact isSome_offset opts m.bitOffset
      · obtain ⟨cm, hcm, rfl⟩ := List.mem_map.mp hd
        obtain ⟨m, hm⟩ := exists_mem_zip hlen (hperm.mem_iff.mp hcm)
        exact (hms hm).ty.2

/-! ### Types up to the order of members -/

/-- Two members that differ at most in their types, and that the diff can
tell from their neighbours: one without a name needs an offset. -/
structure SameSlot (l r : Member) : Prop where
  name : l.name = r.name
  bitOffset : l.bitOffset = r.bitOffset
  bitfieldWidth : l.bitfieldWidth = r.bitfieldWidth
  keyed : l.name ≠ [] ∨ l.bitOffset.isSome

/-- The second type is the first with the members of some aggregates listed
in another order. What an alias stands for is left as it is. -/
inductive Reorders : CanonicalType → CanonicalType → Prop
  | same (c) : Reorders c c
  | aggregate {tag kind lm rm size} (pairs : List (Member × Member))
      (hl : lm.Perm (pairs.map Prod.fst)) (hr : rm.Perm (pairs.map Prod.snd))
      (hslot : ∀ p ∈ pairs, SameSlot p.1 p.2) (hty : ∀ p ∈ pairs, Reorders p.1.ty p.2.ty) :
      Reorders (.aggregate tag kind lm size) (.aggregate tag kind rm size)
  | enum {tag lu ru members size} (hu : Reorders lu ru) :
      Reorders (.enum tag lu members size) (.enum tag ru members size)
  | ptr {lp rp width} (hp : Reorders lp rp) : Reorders (.ptr lp width) (.ptr rp width)
  | array {le re len} (he : Reorders le re) : Reorders (.array le len) (.array re len)
  | function {lret rret lp rp varargs} (hret : Reorders lret rret)
      (hlen : lp.length = rp.length) (hp : ∀ p ∈ lp.zip rp, Reorders p.1 p.2) :
      Reorders (.function lret lp varargs) (.function rret rp varargs)

/-! ### Pairing the members of reordered records -/

section

variable {lm rm : List Member} (hl : (lm.map CanonicalMember.name).Nodup)
  (hr : (rm.map CanonicalMember.name).Nodup)

theorem name_of_mem_pairByName {p : Member × Member} (hp : p ∈ (pairByName lm rm).pairs) :
    p.1.name = p.2.name ∧ p.1.name ≠ [] := by
  have hfits := fits_of_mem_firstMatch hp
  simp only [Bool.and_eq_true, Bool.not_eq_true', beq_iff_eq, List.isEmpty_eq_false_iff] at hfits
  exact ⟨hfits.2.symm, hfits.1⟩

include hl hr

theorem mem_pairByName {l r : Member} (hlm : l ∈ lm) (hrm : r ∈ rm) (hname : l.name = r.name)
    (hne : l.name ≠ []) : (l, r) ∈ (pairByName lm rm).pairs := by
  refine mem_firstMatch_of_only hlm hrm (by simp [← hname, hne]) ?_ ?_
  · intro x hx hfits
    have hxr : r.name = x.name := by simp at hfits; exact hfits.2
    exact List.inj_on_of_nodup_map hl hx hlm (hxr.symm.trans hname.symm)
  · intro y hy hfits
    have hyl : y.name = l.name := by simp at hfits; exact hfits.2
    exact List.inj_on_of_nodup_map hr hy hrm (hyl.trans hname)

/-- Of members that all have a counterpart, the first pass leaves over at most
one on either side, without a name and at one offset. -/
theorem pairByName_leftover {pairs : List (Member × Member)}
    (hlp : lm.Perm (pairs.map Prod.fst)) (hrp : rm.Perm (pairs.map Prod.snd))
    (hslot : ∀ p ∈ pairs, SameSlot p.1 p.2) :
    ((pairByName lm rm).left = [] ∧ (pairByName lm rm).right = []) ∨
      ∃ l r k, (pairByName lm rm).left = [l] ∧ (pairByName lm rm).right = [r] ∧
        l.name = r.name ∧ l.bitOffset = some k ∧ r.bitOffset = some k := by
  have hleft := firstMatch_left_perm (fun l r : Member => !l.name.isEmpty && r.name == l.name) lm rm
  have hright :=
    firstMatch_right_perm (fun l r : Member => !l.name.isEmpty && r.name == l.name) lm rm
  have hnames : ((pairByName lm rm).left.map CanonicalMember.name).Nodup := by
    have hmap := (hleft.map CanonicalMember.name).nodup_iff.mp hl
    rw [List.map_append] at hmap
    exact hmap.of_append_right
  have hlen : (pairByName lm rm).left.length = (pairByName lm rm).right.length := by
    have hllen := hleft.length_eq
    have hrlen := hright.length_eq
    have heq : lm.length = rm.length := by
      rw [hlp.length_eq, hrp.length_eq, List.length_map, List.length_map]
    simp only [List.length_append, List.length_map] at hllen hrlen
    change lm.length = _ + (pairByName lm rm).left.length at hllen
    change rm.length = _ + (pairByName lm rm).right.length at hrlen
    omega
  -- A member left over has no name, and its counterpart is left over too.
  have hover : ∀ l ∈ (pairByName lm rm).left, l.name = [] ∧
      ∃ r ∈ (pairByName lm rm).right, SameSlot l r := by
    intro l hlover
    have hlm : l ∈ lm := hleft.mem_iff.mpr (List.mem_append_right _ hlover)
    obtain ⟨⟨l', r⟩, hp, heq⟩ := List.mem_map.mp (hlp.mem_iff.mp hlm)
    have hl' : l' = l := heq
    subst hl'
    have hrm : r ∈ rm := hrp.mem_iff.mpr (List.mem_map.mpr ⟨_, hp, rfl⟩)
    have hsame : SameSlot l' r := hslot _ hp
    have hanon : l'.name = [] := by
      by_contra hne
      exact not_mem_left_of_mem_pairs hl.of_map (mem_pairByName hl hr hlm hrm hsame.name hne) hlover
    refine ⟨hanon, r, ?_, hsame⟩
    refine (List.mem_append.mp (hright.mem_iff.mp hrm)).resolve_left fun hpaired => ?_
    obtain ⟨q, hq, rfl⟩ := List.mem_map.mp hpaired
    obtain ⟨hqname, hqne⟩ := name_of_mem_pairByName hq
    exact hqne (hqname.trans (hsame.name.symm.trans hanon))
  -- Names are distinct, so no second member without one is left over.
  cases hcase : (pairByName lm rm).left with
  | nil =>
      rw [hcase] at hlen
      exact .inl ⟨rfl, List.length_eq_zero_iff.mp hlen.symm⟩
  | cons l rest =>
      have hover := hcase ▸ hover
      obtain ⟨hanon, r, hrover, hsame⟩ := hover l List.mem_cons_self
      have hrest : rest = [] := by
        refine List.eq_nil_iff_forall_not_mem.mpr fun x hx => ?_
        rw [hcase, List.map_cons, List.nodup_cons] at hnames
        apply hnames.1
        rw [hanon, ← (hover x (List.mem_cons_of_mem l hx)).1]
        exact List.mem_map_of_mem hx
      rw [hcase, hrest] at hlen
      obtain ⟨r', hr'⟩ := List.length_eq_one_iff.mp hlen.symm
      rw [hr', List.mem_singleton] at hrover
      subst hrover
      obtain ⟨k, hk⟩ := Option.isSome_iff_exists.mp
        (hsame.keyed.resolve_left (not_not_intro hanon))
      exact .inr ⟨l, r, k, by rw [hrest], hr', hsame.name, hk, hsame.bitOffset ▸ hk⟩

/-- Members that all have a counterpart pair with a member of their name. -/
theorem pairMembers_of_slots {pairs : List (Member × Member)}
    (hlp : lm.Perm (pairs.map Prod.fst)) (hrp : rm.Perm (pairs.map Prod.snd))
    (hslot : ∀ p ∈ pairs, SameSlot p.1 p.2) :
    (pairMembers lm rm).removed = [] ∧ (pairMembers lm rm).added = [] ∧
      ∀ p ∈ (pairMembers lm rm).pairs, p.1.name = p.2.1.name := by
  rw [pairMembers]
  have hnamed : ∀ p ∈ (pairByName lm rm).pairs.map fun p => (p.1, p.2, false),
      p.1.name = p.2.1.name := by
    intro p hp
    obtain ⟨q, hq, rfl⟩ := List.mem_map.mp hp
    exact (name_of_mem_pairByName hq).1
  rcases pairByName_leftover hl hr hlp hrp hslot with ⟨hL, hR⟩ | ⟨l, r, k, hL, hR, hname, hk, hk'⟩
  · rw [hL, hR]
    exact ⟨rfl, rfl, by simpa [pairByOffset, uniqueMatch] using hnamed⟩
  · have hmatch : pairByOffset [l] [r] = ⟨[(l, r)], [], []⟩ := by
      simp [pairByOffset, uniqueMatch, partner, only, hk, hk']
    rw [hL, hR, hmatch]
    refine ⟨rfl, rfl, fun p hp => ?_⟩
    rcases List.mem_append.mp hp with hp | hp
    · exact hnamed p hp
    · rw [List.map_singleton, List.mem_singleton] at hp
      rw [hp]
      exact hname

end

/-! ### Empty diffs -/

theorem sizeChange_eq_nil_iff {path : Text} {ls rs : Option ℕ} :
    sizeChange path ls rs = [] ↔ ls = rs := by
  rw [sizeChange]
  split <;> simp_all

/-- No change of members: all are paired, under their names, in their places,
and with types that do not differ. -/
theorem diffMembers_eq_nil_iff {recur : CanonicalType → Text → CanonicalType → List Change}
    {path : Text} {lm rm : List Member} :
    diffMembers recur path lm rm = [] ↔
      (pairMembers lm rm).removed = [] ∧ (pairMembers lm rm).added = [] ∧
        ∀ p ∈ (pairMembers lm rm).pairs, renameChange p.1 p.2.1 path p.2.2 = [] ∧
          recur p.1.ty (pathIn p.2.1 path) p.2.1.ty = [] ∧
          slotChanges p.1 p.2.1 path true = [] := by
  simp only [diffMembers, List.append_eq_nil_iff, List.map_eq_nil_iff, List.flatMap_eq_nil_iff,
    diffAgainst]
  constructor
  · rintro ⟨⟨hpairs, hremoved⟩, hadded⟩
    have hstructural : (pairMembers lm rm).structural = false := by
      rw [Pairing.structural, hremoved, hadded]
      rfl
    rw [hstructural] at hpairs
    exact ⟨hremoved, hadded, hpairs⟩
  · rintro ⟨hremoved, hadded, hpairs⟩
    have hstructural : (pairMembers lm rm).structural = false := by
      rw [Pairing.structural, hremoved, hadded]
      rfl
    rw [hstructural]
    exact ⟨⟨hpairs, hremoved⟩, hadded⟩

/-- A pair of members that nothing is reported of fills one slot. -/
theorem sameSlot_of_nil {lm rm : List Member} {path : Text} {p : Member × Member × Bool}
    (hp : p ∈ (pairMembers lm rm).pairs) (hrename : renameChange p.1 p.2.1 path p.2.2 = [])
    (hslot : slotChanges p.1 p.2.1 path true = [])
    (hlens : p.1.bitOffset.isSome = p.2.1.bitOffset.isSome) : SameSlot p.1 p.2.1 := by
  have hwidth : p.1.bitfieldWidth = p.2.1.bitfieldWidth := by
    by_contra hne
    rw [slotChanges, if_neg hne] at hslot
    cases hslot
  have hoffset : p.1.bitOffset = p.2.1.bitOffset := by
    rw [slotChanges, if_pos hwidth] at hslot
    revert hlens hslot
    cases p.1.bitOffset <;> cases p.2.1.bitOffset <;> simp
  rcases List.mem_append.mp hp with hp | hp
  · obtain ⟨q, hq, rfl⟩ := List.mem_map.mp hp
    obtain ⟨hname, hne⟩ := name_of_mem_pairByName hq
    exact ⟨hname, hoffset, hwidth, .inl hne⟩
  · obtain ⟨q, hq, rfl⟩ := List.mem_map.mp hp
    obtain ⟨hmem, hpartner⟩ := mem_uniqueMatch_pairs.mp hq
    obtain ⟨k, hk, -⟩ := (partner_eq_some_iff hmem).mp hpartner
    refine ⟨?_, hoffset, hwidth, .inr (Option.isSome_of_eq_some hk)⟩
    by_contra hne
    have hbne : (q.1.name != q.2.name) = true := bne_iff_ne.mpr hne
    rw [renameChange, hbne] at hrename
    cases hrename

theorem slotChanges_of_sameSlot {l r : Member} (h : SameSlot l r) (path : Text) :
    slotChanges l r path true = [] := by
  rw [slotChanges, if_pos h.bitfieldWidth, h.bitOffset]
  cases r.bitOffset <;> simp

theorem diffConstants_eq_nil_iff {path : Text} {lm rm : List (Text × ℕ)}
    (hl : (lm.map Prod.fst).Nodup) (hls : SortedByKey Prod.fst lm)
    (hr : (rm.map Prod.fst).Nodup) (hrs : SortedByKey Prod.fst rm) :
    diffConstants path lm rm = [] ↔ lm = rm := by
  rw [diffConstants, List.append_eq_nil_iff, List.flatMap_eq_nil_iff, List.flatMap_eq_nil_iff]
  constructor
  · rintro ⟨hleft, hright⟩
    have hsub : ∀ c ∈ lm, c ∈ rm := by
      intro c hc
      have hnil := hleft c hc
      obtain ⟨name, value⟩ := c
      simp only at hnil
      split at hnil
      next r rv hfind =>
        split at hnil
        next hval =>
          have hname := List.find?_some hfind
          rw [beq_iff_eq] at hname
          rw [← hname, ← hval]
          exact List.mem_of_find?_eq_some hfind
        next => cases hnil
      next => cases hnil
    have hsub' : ∀ c ∈ rm, c ∈ lm := by
      intro c hc
      have hnil := hright c hc
      obtain ⟨name, value⟩ := c
      simp only at hnil
      split at hnil
      next hany =>
        obtain ⟨d, hd, hname⟩ := List.any_eq_true.mp hany
        rw [beq_iff_eq] at hname
        rw [← List.inj_on_of_nodup_map hr (hsub d hd) hc hname]
        exact hd
      next => cases hnil
    -- The same constants in the order of their names are one list.
    refine SortedByKey.eq_of_perm ?_ hls hrs hl
    exact (List.perm_ext_iff_of_nodup hl.of_map hr.of_map).mpr fun c => ⟨hsub c, hsub' c⟩
  · rintro rfl
    constructor
    · intro c hc
      obtain ⟨name, value⟩ := c
      cases hfind : lm.find? fun r => r.1 == name with
      | none => exact absurd (List.find?_eq_none.mp hfind _ hc) (by simp)
      | some d =>
          have hname := List.find?_some hfind
          rw [beq_iff_eq] at hname
          have heq := List.inj_on_of_nodup_map hl (List.mem_of_find?_eq_some hfind) hc hname
          simp [hfind, heq]
    · intro c hc
      obtain ⟨name, value⟩ := c
      have hany : (lm.any fun l => l.1 == name) = true :=
        List.any_eq_true.mpr ⟨_, hc, beq_iff_eq.mpr rfl⟩
      exact if_pos hany

theorem exists_of_diffParams_nil {lp rp : List CanonicalType} {path : Text} {i : ℕ}
    (h : diffParams path i lp rp = []) : ∀ p ∈ lp.zip rp, ∃ path, diffInto p.1 path p.2 = [] := by
  induction lp generalizing i rp with
  | nil => simp
  | cons a lp ih =>
      cases rp with
      | nil => simp
      | cons b rp =>
          rw [diffParams, List.append_eq_nil_iff] at h
          exact List.forall_mem_cons.mpr ⟨⟨_, h.1⟩, ih h.2⟩

theorem diffParams_eq_nil {lp rp : List CanonicalType} (path : Text) (i : ℕ)
    (h : ∀ p ∈ lp.zip rp, ∀ path, diffInto p.1 path p.2 = []) : diffParams path i lp rp = [] := by
  induction lp generalizing i rp with
  | nil => rfl
  | cons a lp ih =>
      cases rp with
      | nil => rfl
      | cons b rp =>
          rw [List.zip_cons_cons, List.forall_mem_cons] at h
          rw [diffParams, h.1, ih _ h.2]
          rfl

variable {opts : CanonicalOptions}

/-- A diff that finds nothing was given a type and a reordering of it. -/
theorem reorders_of_diffInto_nil (x y : CanonicalType) (hx : Everywhere (Tidy opts) x)
    (hy : Everywhere (Tidy opts) y) (path : Text) (h : diffInto x path y = []) :
    Reorders x y := by
  induction x, y using compareInduct generalizing path with
  | same c => exact .same c
  | aggregate tag kind lm ls rm rs hne ih =>
      rw [diffInto_aggregate path hne, List.append_eq_nil_iff, sizeChange_eq_nil_iff,
        diffMembers_eq_nil_iff] at h
      obtain ⟨rfl, hremoved, hadded, hpairs⟩ := h
      have hlp := pairMembers_left_perm lm rm
      have hrp := pairMembers_right_perm lm rm
      rw [hremoved, List.append_nil] at hlp
      rw [hadded, List.append_nil] at hrp
      -- Nothing is added or removed, so the pairs are all the members of both sides.
      refine .aggregate ((pairMembers lm rm).pairs.map fun p => (p.1, p.2.1)) ?_ ?_ ?_ ?_
      · rw [List.map_map]
        exact hlp
      · rw [List.map_map]
        exact hrp
      · intro q hq
        obtain ⟨p, hp, rfl⟩ := List.mem_map.mp hq
        obtain ⟨hl, hr⟩ := mem_of_mem_pairs hp
        obtain ⟨hrename, -, hslot⟩ := hpairs p hp
        exact sameSlot_of_nil hp hrename hslot ((hx.here.2 _ hl).trans (hy.here.2 _ hr).symm)
      · intro q hq
        obtain ⟨p, hp, rfl⟩ := List.mem_map.mp hq
        obtain ⟨hl, hr⟩ := mem_of_mem_pairs hp
        exact ih _ hl _ (hx.member hl) (hy.member hr) _ (hpairs p hp).2.1
  | enum tag lu lm ls ru rm rs hne ih =>
      rw [diffInto_enum path hne, List.append_eq_nil_iff, List.append_eq_nil_iff,
        sizeChange_eq_nil_iff,
        diffConstants_eq_nil_iff hx.here.1 hx.here.2 hy.here.1 hy.here.2] at h
      obtain ⟨⟨hu, rfl⟩, rfl⟩ := h
      exact .enum (ih (hx.inside List.mem_cons_self) (hy.inside List.mem_cons_self) _ hu)
  | ptr lp rp width hne ih =>
      rw [diffInto_ptr path hne] at h
      exact .ptr (ih (hx.inside List.mem_cons_self) (hy.inside List.mem_cons_self) _ h)
  | array le re len hne ih =>
      rw [diffInto_array path hne] at h
      exact .array (ih (hx.inside List.mem_cons_self) (hy.inside List.mem_cons_self) _ h)
  | function lret lp rret rp varargs hne hlen ihr ihp =>
      rw [diffInto_function path hlen hne, List.append_eq_nil_iff] at h
      refine .function (ihr (hx.inside List.mem_cons_self) (hy.inside List.mem_cons_self) _ h.1)
        hlen fun p hp => ?_
      obtain ⟨path', hpath⟩ := exists_of_diffParams_nil h.2 p hp
      have hmem : p.1 ∈ lp ∧ p.2 ∈ rp := List.of_mem_zip hp
      exact ihp _ hmem.1 _ (hx.inside (List.mem_cons_of_mem _ hmem.1))
        (hy.inside (List.mem_cons_of_mem _ hmem.2)) _ hpath
  | retyped x y hne halike =>
      rw [diffInto_retyped path hne halike] at h
      cases h

/-- The diff of a type and a reordering of it finds nothing. -/
theorem Reorders.diffInto_nil {x y : CanonicalType} (h : Reorders x y)
    (hx : Everywhere (Tidy opts) x) (hy : Everywhere (Tidy opts) y) (path : Text) :
    diffInto x path y = [] := by
  induction h generalizing path with
  | same c => exact diffInto_self c path
  | @aggregate tag kind lm rm size pairs hlp hrp hslot hty ih =>
      by_cases heq : CanonicalType.aggregate tag kind lm size = .aggregate tag kind rm size
      · rw [heq, diffInto_self]
      · obtain ⟨hremoved, hadded, hnames⟩ :=
          pairMembers_of_slots hx.here.1 hy.here.1 hlp hrp hslot
        rw [diffInto_aggregate path heq, sizeChange_eq_nil_iff.mpr rfl, List.nil_append,
          diffMembers_eq_nil_iff]
        refine ⟨hremoved, hadded, fun p hp => ?_⟩
        obtain ⟨hl, hr⟩ := mem_of_mem_pairs hp
        -- The pair found is one of the given pairs, for names are distinct.
        obtain ⟨⟨l, r⟩, hq, hql⟩ := List.mem_map.mp (hlp.mem_iff.mp hl)
        have hql' : l = p.1 := hql
        have hrmem : r ∈ rm := hrp.mem_iff.mpr (List.mem_map.mpr ⟨_, hq, rfl⟩)
        have hsame : SameSlot l r := hslot _ hq
        have hqr : r = p.2.1 := by
          refine List.inj_on_of_nodup_map hy.here.1 hrmem hr ?_
          rw [← hnames p hp, ← hql', hsame.name]
        subst hql' hqr
        refine ⟨?_, ?_, slotChanges_of_sameSlot hsame path⟩
        · have hbne : (p.1.name != p.2.1.name) = false := by simp [hnames p hp]
          rw [renameChange, hbne, Bool.and_false]
          rfl
        · exact ih _ hq (hx.member hl) (hy.member hr) _
  | @enum tag lu ru members size hu ih =>
      by_cases heq : CanonicalType.enum tag lu members size = .enum tag ru members size
      · rw [heq, diffInto_self]
      · rw [diffInto_enum path heq, sizeChange_eq_nil_iff.mpr rfl,
          (diffConstants_eq_nil_iff hx.here.1 hx.here.2 hy.here.1 hy.here.2).mpr rfl,
          ih (hx.inside List.mem_cons_self) (hy.inside List.mem_cons_self)]
        rfl
  | @ptr lp rp width hp ih =>
      by_cases heq : CanonicalType.ptr lp width = .ptr rp width
      · rw [heq, diffInto_self]
      · rw [diffInto_ptr path heq]
        exact ih (hx.inside List.mem_cons_self) (hy.inside List.mem_cons_self) path
  | @array le re len he ih =>
      by_cases heq : CanonicalType.array le len = .array re len
      · rw [heq, diffInto_self]
      · rw [diffInto_array path heq]
        exact ih (hx.inside List.mem_cons_self) (hy.inside List.mem_cons_self) path
  | @function lret rret lp rp varargs hret hlen hp ihr ihp =>
      by_cases heq : CanonicalType.function lret lp varargs = .function rret rp varargs
      · rw [heq, diffInto_self]
      · rw [diffInto_function path hlen heq,
          ihr (hx.inside List.mem_cons_self) (hy.inside List.mem_cons_self), List.nil_append]
        refine diffParams_eq_nil path 0 fun p hmem path => ?_
        have hzip : p.1 ∈ lp ∧ p.2 ∈ rp := List.of_mem_zip hmem
        exact ihp p hmem (hx.inside (List.mem_cons_of_mem _ hzip.1))
          (hy.inside (List.mem_cons_of_mem _ hzip.2)) path

/-- Of the canonical forms of two tables under one lens the diff is empty
exactly when one reorders the other, so it is empty exactly for equal forms
unless they are different forms that differ in nothing but the order of
members. -/
theorem diff_isEmpty_iff_eq_iff (table table' : TypeTable) (root root' : TypeId)
    (hnames : table.DistinctNames) (hnames' : table'.DistinctNames) (opts : CanonicalOptions)
    (c c' : CanonicalType) (hc : IsCanonicalForm table opts root c)
    (hc' : IsCanonicalForm table' opts root' c') :
    ((c.diff c').isEmpty = true ↔ c = c') ↔ ¬(c ≠ c' ∧ Reorders c c') := by
  have htidy := Spells.tidy hnames hc
  have htidy' := Spells.tidy hnames' hc'
  have hempty : (c.diff c').isEmpty = true ↔ Reorders c c' := by
    rw [TypeDiff.isEmpty, List.isEmpty_iff]
    constructor
    · exact reorders_of_diffInto_nil c c' htidy htidy' []
    · exact fun h => h.diffInto_nil htidy htidy' []
  rw [hempty]
  constructor
  · rintro h ⟨hne, hreorders⟩
    exact hne (h.mp hreorders)
  · intro h
    constructor
    · intro hreorders
      by_contra hne
      exact h ⟨hne, hreorders⟩
    · rintro rfl
      exact .same c

def twoFields (first second : Text) : TypeTable where
  arena := [⟨.struct (some ['s']) [⟨first, 0, 1, none, none⟩, ⟨second, 32, 1, none, none⟩], some 8⟩,
    ⟨.int 4 true, some 4⟩]
  dedup := []

theorem handlesInRange_twoFields (first second : Text) :
    (twoFields first second).HandlesInRange := by
  rw [TypeTable.handlesInRange_iff]
  simp [twoFields, TypeShape.children, TypeTable.len]

theorem distinctNames_twoFields {first second : Text} (h : first ≠ second) :
    (twoFields first second).DistinctNames := by
  constructor
  · intro id kind name members size hget
    match id with
    | 0 => cases kind <;> cases hget; simpa using h
    | 1 => cases kind <;> cases hget
    | id + 2 => cases hget
  · intro id name underlying members isBitmask repr size hget
    match id with
    | 0 | 1 | id + 2 => cases hget

def twoFieldsLogical (first second : Text) : CanonicalType :=
  .aggregate (some ['s']) .struct
    [⟨first, none, none, .int none true⟩, ⟨second, none, none, .int none true⟩] none

theorem isCanonicalForm_twoFields (first second : Text) :
    IsCanonicalForm (twoFields first second) .logical 0 (twoFieldsLogical first second) :=
  ⟨2, rfl⟩

theorem diff_isEmpty_iff_eq_iff_twoFields :
    (((twoFieldsLogical ['a'] ['b']).diff (twoFieldsLogical ['b'] ['a'])).isEmpty = true ↔
        twoFieldsLogical ['a'] ['b'] = twoFieldsLogical ['b'] ['a']) ↔
      ¬(twoFieldsLogical ['a'] ['b'] ≠ twoFieldsLogical ['b'] ['a'] ∧
        Reorders (twoFieldsLogical ['a'] ['b']) (twoFieldsLogical ['b'] ['a'])) :=
  diff_isEmpty_iff_eq_iff (twoFields ['a'] ['b']) (twoFields ['b'] ['a']) 0 0
    (distinctNames_twoFields (by decide)) (distinctNames_twoFields (by decide)) .logical _ _
    (isCanonicalForm_twoFields _ _) (isCanonicalForm_twoFields _ _)

/-- Two fields change places and the size-abstracted diff sees nothing. -/
theorem diff_isEmpty_not_iff_eq :
    ¬∀ (table table' : TypeTable) (root root' : TypeId) (opts : CanonicalOptions)
      (c c' : CanonicalType), table.HandlesInRange → table'.HandlesInRange →
      table.DistinctNames → table'.DistinctNames →
      IsCanonicalForm table opts root c → IsCanonicalForm table' opts root' c' →
      ((c.diff c').isEmpty = true ↔ c = c') := by
  intro h
  have hiff := h (twoFields ['a'] ['b']) (twoFields ['b'] ['a']) 0 0 .logical _ _
    (handlesInRange_twoFields _ _) (handlesInRange_twoFields _ _)
    (distinctNames_twoFields (by decide)) (distinctNames_twoFields (by decide))
    (isCanonicalForm_twoFields _ _) (isCanonicalForm_twoFields _ _)
  revert hiff
  decide

end Canonical

end Idakit.Types
