import Mathlib.Data.Char
import Mathlib.Data.Set.Function
import Mathlib.Data.List.Lex
import Mathlib.Data.List.Sort
import Idakit.Library.SortedMap
import Idakit.Types.Canonical.Engine

/-!
The diff of two catalogs of named types. Every name of either catalog is in one
of four lists: those only the left one has, those only the right one has, those
both have under one key, and those that drifted apart.

A key is the digest of a canonical form. How it is computed is left open; that
it tells the forms of two catalogs apart is assumed where it matters.
-/

namespace Idakit.Types.Canonical

open Idakit.Library

abbrev TypeKey := BitVec 128

structure Entry where
  canonical : CanonicalType
  key : TypeKey

structure TypeCatalog where
  types : SortedMap Text Entry
  opts : CanonicalOptions
  skipped : ℕ

structure CatalogDiff where
  identical : List Text
  drifted : List (Text × TypeDiff)
  onlyLeft : List Text
  onlyRight : List Text

def CatalogDiff.isEmpty (d : CatalogDiff) : Bool :=
  d.drifted.isEmpty && d.onlyLeft.isEmpty && d.onlyRight.isEmpty

namespace TypeCatalog

variable (digest : CanonicalType → TypeKey)

/-- Add a named type, unless it failed to resolve. -/
def add (c : TypeCatalog) (named : Text × Option CanonicalType) : TypeCatalog :=
  match named.2 with
  | some canonical =>
      { c with types := c.types.insert named.1 ⟨canonical, digest canonical⟩ }
  | none => { c with skipped := c.skipped + 1 }

def typeCatalogWith (opts : CanonicalOptions) (namedTypes : List (Text × Option CanonicalType)) :
    TypeCatalog :=
  namedTypes.foldl (add digest) ⟨.empty, opts, 0⟩

variable (self other : TypeCatalog)

def names : List Text := self.types.keys

def get (name : Text) : Option CanonicalType := (self.types.get? name).map Entry.canonical

def classify (d : CatalogDiff) (e : Text × Entry) : CatalogDiff :=
  match other.types.get? e.1 with
  | some right =>
      if e.2.key = right.key then { d with identical := d.identical ++ [e.1] }
      else { d with drifted := d.drifted ++ [(e.1, e.2.canonical.diff right.canonical)] }
  | none => { d with onlyLeft := d.onlyLeft ++ [e.1] }

/-- Pair the names of two catalogs. A debug build refuses catalogs that were
built under different options. -/
def diff (debug : Bool) : Option CatalogDiff :=
  if debug ∧ self.opts ≠ other.opts then none else
    some { self.types.entries.foldl (classify other) ⟨[], [], [], []⟩ with
      onlyRight := other.types.keys.filter fun name => !self.types.containsKey name }

/-! ### Keys -/

/-- Every key is the digest of its form. -/
def Keyed (c : TypeCatalog) : Prop := ∀ e ∈ c.types.entries, e.2.key = digest e.2.canonical

variable {digest}

theorem Keyed.get {c : TypeCatalog} (hc : c.Keyed digest) {name : Text} {e : Entry}
    (h : c.types.get? name = some e) : e.key = digest e.canonical :=
  hc (name, e) (c.types.mem_entries_iff.mpr h)

theorem add_keyed {c : TypeCatalog} (hc : c.Keyed digest) (named : Text × Option CanonicalType) :
    (c.add digest named).Keyed digest := by
  obtain ⟨name, _ | canonical⟩ := named
  · exact hc
  · rintro ⟨key, e⟩ he
    have hget : (c.types.insert name ⟨canonical, digest canonical⟩).get? key = some e :=
      (SortedMap.mem_entries_iff _).mp he
    rw [SortedMap.get?_insert] at hget
    split at hget
    · cases hget
      rfl
    · exact hc.get hget

/-- A catalog that is built has the digests for keys. -/
theorem typeCatalogWith_keyed (opts : CanonicalOptions)
    (namedTypes : List (Text × Option CanonicalType)) :
    (typeCatalogWith digest opts namedTypes).Keyed digest := by
  have hfold : ∀ c : TypeCatalog, c.Keyed digest →
      (namedTypes.foldl (add digest) c).Keyed digest := by
    induction namedTypes with
    | nil => exact fun c hc => hc
    | cons named namedTypes ih => exact fun c hc => ih (c.add digest named) (add_keyed hc named)
  exact hfold _ (fun e he => nomatch he)

end TypeCatalog

/-! ### Where a name is -/

inductive Standing
  | identical
  | drifted
  | onlyLeft
  | onlyRight
  deriving DecidableEq

def Standing.swap : Standing → Standing
  | .identical => .identical
  | .drifted => .drifted
  | .onlyLeft => .onlyRight
  | .onlyRight => .onlyLeft

def standing (left right : TypeCatalog) (name : Text) : Option Standing :=
  match left.types.get? name, right.types.get? name with
  | some l, some r => some (if l.key = r.key then .identical else .drifted)
  | some _, none => some .onlyLeft
  | none, some _ => some .onlyRight
  | none, none => none

def CatalogDiff.list (d : CatalogDiff) : Standing → List Text
  | .identical => d.identical
  | .drifted => d.drifted.map Prod.fst
  | .onlyLeft => d.onlyLeft
  | .onlyRight => d.onlyRight

/-- Each list has the names that belong there, in their order. -/
structure CatalogDiff.Lists (d : CatalogDiff) (left right : TypeCatalog) : Prop where
  sorted : ∀ s, (d.list s).Pairwise (· < ·)
  mem : ∀ s name, name ∈ d.list s ↔ standing left right name = some s

/-- The four lists part the names of two catalogs. -/
structure CatalogDiff.Partitions (d : CatalogDiff) (left right : TypeCatalog) : Prop where
  sorted : ∀ s, (d.list s).Pairwise (· < ·)
  disjoint : ∀ s s', s ≠ s' → (d.list s).Disjoint (d.list s')
  union : ∀ name, (∃ s, name ∈ d.list s) ↔ name ∈ left.names ∨ name ∈ right.names

section

variable {left right : TypeCatalog} {d d' : CatalogDiff} {debug : Bool}

theorem standing_swap (left right : TypeCatalog) (name : Text) :
    standing right left name = (standing left right name).map Standing.swap := by
  unfold standing
  cases left.types.get? name <;> cases right.types.get? name <;> try rfl
  next l r =>
    by_cases h : l.key = r.key
    · simp [h, Standing.swap]
    · simp [h, Ne.symm h, Standing.swap]

theorem standing_isSome_iff {name : Text} :
    (∃ s, standing left right name = some s) ↔ name ∈ left.names ∨ name ∈ right.names := by
  rw [TypeCatalog.names, TypeCatalog.names, SortedMap.mem_keys_iff, SortedMap.mem_keys_iff, standing]
  cases left.types.get? name <;> cases right.types.get? name <;> simp

/-- A name of the left catalog goes to the list where it belongs. -/
theorem list_classify {e : Text × Entry} (he : left.types.get? e.1 = some e.2) (d : CatalogDiff)
    (s : Standing) : (TypeCatalog.classify right d e).list s =
      d.list s ++ if standing left right e.1 = some s then [e.1] else [] := by
  rw [TypeCatalog.classify, standing, he]
  cases right.types.get? e.1 with
  | none => cases s <;> simp [CatalogDiff.list]
  | some r =>
      by_cases h : e.2.key = r.key
      · cases s <;> simp [CatalogDiff.list, h]
      · cases s <;> simp [CatalogDiff.list, h]

theorem list_foldl_classify {entries : List (Text × Entry)}
    (hentries : ∀ e ∈ entries, left.types.get? e.1 = some e.2) (d : CatalogDiff) (s : Standing) :
    (entries.foldl (TypeCatalog.classify right) d).list s =
      d.list s ++ (entries.map Prod.fst).filter fun name => standing left right name = some s := by
  induction entries generalizing d with
  | nil => simp
  | cons e entries ih =>
      obtain ⟨he, hrest⟩ := List.forall_mem_cons.mp hentries
      rw [List.foldl_cons, ih hrest, list_classify he, List.append_assoc, List.map_cons]
      by_cases h : standing left right e.1 = some s <;> simp [h]

theorem diff_eq_some_iff :
    left.diff right debug = some d ↔ (debug = true → left.opts = right.opts) ∧
      d = { left.types.entries.foldl (TypeCatalog.classify right) ⟨[], [], [], []⟩ with
        onlyRight := right.types.keys.filter fun name => !left.types.containsKey name } := by
  rw [TypeCatalog.diff]
  split
  · next h => simp [h]
  · next h =>
      rw [Option.some.injEq, eq_comm]
      exact (and_iff_right (by simpa using h)).symm

/-- Every list is a part of the names of one catalog. -/
theorem list_diff (h : left.diff right debug = some d) (s : Standing) :
    d.list s = (if s = .onlyRight then right else left).names.filter fun name =>
      standing left right name = some s := by
  obtain ⟨-, rfl⟩ := diff_eq_some_iff.mp h
  have hentries : ∀ e ∈ left.types.entries, left.types.get? e.1 = some e.2 := fun e he =>
    left.types.mem_entries_iff.mp he
  have hfold : (left.types.entries.foldl (TypeCatalog.classify right) ⟨[], [], [], []⟩).list s =
      _ := list_foldl_classify hentries _ s
  cases s with
  | onlyRight =>
      refine List.filter_congr fun name hname => ?_
      obtain ⟨r, hr⟩ := right.types.mem_keys_iff.mp hname
      rw [Bool.eq_iff_iff, Bool.not_eq_true', ← Bool.not_eq_true, left.types.containsKey_iff,
        ← left.types.get?_eq_none_iff, decide_eq_true_eq, standing, hr]
      cases left.types.get? name with
      | none => simp
      | some l =>
          simp only [reduceCtorEq, false_iff, Option.some.injEq]
          split <;> nofun
  | _ => exact hfold

theorem lists_of_diff (h : left.diff right debug = some d) : d.Lists left right where
  sorted s := by
    rw [list_diff h s]
    split
    · exact right.types.sorted.filter _
    · exact left.types.sorted.filter _
  mem s name := by
    rw [list_diff h s, List.mem_filter, decide_eq_true_eq, and_iff_right_of_imp]
    intro hs
    have hone := standing_isSome_iff.mp ⟨s, hs⟩
    unfold standing at hs
    split
    · next heq =>
        subst heq
        refine right.types.mem_keys_iff.mpr ?_
        cases hr : right.types.get? name with
        | some r => exact ⟨r, rfl⟩
        | none => cases hl : left.types.get? name <;> simp [hl, hr] at hs
    · next hne =>
        refine left.types.mem_keys_iff.mpr ?_
        cases hl : left.types.get? name with
        | some l => exact ⟨l, rfl⟩
        | none => cases hr : right.types.get? name <;> simp_all

theorem CatalogDiff.Lists.partitions (h : d.Lists left right) : d.Partitions left right where
  sorted := h.sorted
  disjoint s s' hne name hs hs' :=
    hne (Option.some.inj (((h.mem s name).mp hs).symm.trans ((h.mem s' name).mp hs')))
  union name := by
    rw [← standing_isSome_iff]
    exact exists_congr fun s => h.mem s name

/-- Exchanging the catalogs exchanges the lists of the names that only one has,
and keeps the other two. -/
theorem CatalogDiff.Lists.swap (h : d.Lists left right) (h' : d'.Lists right left) (s : Standing) :
    d'.list s.swap = d.list s := by
  refine (h'.sorted s.swap).eq_of_mem_iff (h.sorted s) fun name => ?_
  rw [h'.mem, h.mem, standing_swap, Option.map_eq_some_iff]
  constructor
  · rintro ⟨s', hs', hswap⟩
    have heq : s' = s := by cases s <;> cases s' <;> simp_all [Standing.swap]
    rwa [← heq]
  · exact fun hs => ⟨s, hs, rfl⟩

/-- The diff is empty just if every name that one catalog has, both have under
one key. -/
theorem CatalogDiff.Lists.isEmpty_iff (h : d.Lists left right) :
    d.isEmpty = true ↔ ∀ name s, standing left right name = some s → s = .identical := by
  have hnil (s : Standing) : d.list s = [] ↔ ∀ name, standing left right name ≠ some s := by
    rw [List.eq_nil_iff_forall_not_mem]
    exact forall_congr' fun name => (h.mem s name).not
  have hparts : d.isEmpty = true ↔
      d.list .drifted = [] ∧ d.list .onlyLeft = [] ∧ d.list .onlyRight = [] := by
    simp [CatalogDiff.isEmpty, CatalogDiff.list, and_assoc]
  rw [hparts, hnil, hnil, hnil]
  constructor
  · rintro ⟨hdrifted, hleft, hright⟩ name s hs
    cases s with
    | identical => rfl
    | drifted => exact absurd hs (hdrifted name)
    | onlyLeft => exact absurd hs (hleft name)
    | onlyRight => exact absurd hs (hright name)
  · intro hall
    refine ⟨fun name hs => ?_, fun name hs => ?_, fun name hs => ?_⟩
    all_goals cases hall name _ hs

end

namespace TypeCatalog

def forms (c : TypeCatalog) : Set CanonicalType := { form | ∃ name, c.get name = some form }

variable {digest : CanonicalType → TypeKey} {left right : TypeCatalog}

theorem standing_identical_iff (hleft : left.Keyed digest) (hright : right.Keyed digest)
    (hdigest : Set.InjOn digest (left.forms ∪ right.forms)) (name : Text) :
    (∀ s, standing left right name = some s → s = .identical) ↔ left.get name = right.get name := by
  rw [standing, TypeCatalog.get, TypeCatalog.get]
  cases hl : left.types.get? name with
  | none => cases hr : right.types.get? name <;> simp
  | some l =>
      cases hr : right.types.get? name with
      | none => simp
      | some r =>
          have hl' : l.canonical ∈ left.forms ∪ right.forms := .inl ⟨name, by simp [get, hl]⟩
          have hr' : r.canonical ∈ left.forms ∪ right.forms := .inr ⟨name, by simp [get, hr]⟩
          have hkeys : l.key = r.key ↔ l.canonical = r.canonical := by
            rw [hleft.get hl, hright.get hr]
            exact hdigest.eq_iff hl' hr'
          by_cases h : l.key = r.key <;> simp [h, ← hkeys]

/-- The diff parts the names of both catalogs into four sorted lists. Exchanging
the catalogs exchanges two of them. It is empty just if both catalogs have the
same names with equal canonical forms, as far as the keys tell those apart. -/
theorem diff_partitions (debug : Bool) (hopts : debug = true → left.opts = right.opts)
    (hleft : left.Keyed digest) (hright : right.Keyed digest)
    (hdigest : Set.InjOn digest (left.forms ∪ right.forms)) :
    ∃ d, left.diff right debug = some d ∧ d.Partitions left right ∧
      (∃ d', right.diff left debug = some d' ∧ d'.onlyLeft = d.onlyRight ∧
        d'.onlyRight = d.onlyLeft ∧ d'.identical = d.identical ∧
        d'.drifted.map Prod.fst = d.drifted.map Prod.fst) ∧
      (d.isEmpty = true ↔ ∀ name, left.get name = right.get name) := by
  obtain ⟨d, hd⟩ : ∃ d, left.diff right debug = some d := ⟨_, diff_eq_some_iff.mpr ⟨hopts, rfl⟩⟩
  obtain ⟨d', hd'⟩ : ∃ d', right.diff left debug = some d' :=
    ⟨_, diff_eq_some_iff.mpr ⟨fun h => (hopts h).symm, rfl⟩⟩
  have hlists := lists_of_diff hd
  have hswap := hlists.swap (lists_of_diff hd')
  refine ⟨d, hd, hlists.partitions, ⟨d', hd', hswap .onlyRight, hswap .onlyLeft,
    hswap .identical, hswap .drifted⟩, ?_⟩
  rw [hlists.isEmpty_iff]
  exact forall_congr' fun name => standing_identical_iff hleft hright hdigest name

theorem mem_forms_iff {c : TypeCatalog} {form : CanonicalType} :
    form ∈ c.forms ↔ form ∈ c.types.entries.map fun e => e.2.canonical := by
  rw [forms, Set.mem_ofPred_eq, List.mem_map]
  simp only [get, Option.map_eq_some_iff, Prod.exists, SortedMap.mem_entries_iff]

/-- A digest that tells two types apart. -/
def boolDigest (c : CanonicalType) : TypeKey := if c = .bool then 1 else 2

/-- `a`, `b` and `c`; `e` failed to resolve. -/
def olderTypes : TypeCatalog :=
  typeCatalogWith boolDigest .strict
    [(['e'], none), (['b'], some .void), (['a'], some .bool), (['c'], some .bool)]

/-- `a`, which is another type now, `b` and `d`. -/
def newerTypes : TypeCatalog :=
  typeCatalogWith boolDigest .strict
    [(['d'], some .bool), (['a'], some .void), (['b'], some .void)]

theorem diff_partitions_drifted :
    ∃ d, olderTypes.diff newerTypes true = some d ∧ d.Partitions olderTypes newerTypes ∧
      d.identical = [['b']] ∧ d.drifted.map Prod.fst = [['a']] ∧ d.onlyLeft = [['c']] ∧
        d.onlyRight = [['d']] := by
  have hdigest : Set.InjOn boolDigest (olderTypes.forms ∪ newerTypes.forms) := by
    have hforms : ∀ c ∈ olderTypes.forms ∪ newerTypes.forms, c = .bool ∨ c = .void := by
      have holder : olderTypes.types.entries.map (fun e => e.2.canonical) =
          [.bool, .void, .bool] := rfl
      have hnewer : newerTypes.types.entries.map (fun e => e.2.canonical) =
          [.void, .void, .bool] := rfl
      intro c hc
      rw [Set.mem_union, mem_forms_iff, mem_forms_iff, holder, hnewer] at hc
      simp only [List.mem_cons, List.not_mem_nil, or_false] at hc
      tauto
    intro c hc c' hc' heq
    rcases hforms c hc with rfl | rfl <;> rcases hforms c' hc' with rfl | rfl <;>
      simp_all [boolDigest]
  have hopts : true = true → olderTypes.opts = newerTypes.opts := fun _ => rfl
  obtain ⟨d, hd, hpartitions, -⟩ := diff_partitions true hopts (typeCatalogWith_keyed .strict _)
    (typeCatalogWith_keyed .strict _) hdigest
  refine ⟨d, hd, hpartitions, ?_⟩
  cases hd
  exact ⟨rfl, rfl, rfl, rfl⟩

end TypeCatalog

end Idakit.Types.Canonical
