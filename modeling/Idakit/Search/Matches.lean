import Idakit.Decompiler.Ctree.Node
import Idakit.Library.Iterator
import Idakit.Search.Pattern

/-!
The occurrences of a signature in a range. The kernel finds the lowest one;
the iterator asks again from one byte behind it, so that occurrences may
overlap, until none is left.
-/

namespace Idakit.Decompiler

/-! ### Addresses -/

def maxEa : UInt64 := badAddr - 1

def saturatingAdd (a b : UInt64) : UInt64 := if a.toNat + b.toNat < 2 ^ 64 then a + b else badAddr

theorem min_maxEa_ne (raw : UInt64) : min raw maxEa ≠ badAddr := by
  rw [← UInt64.toNat_inj.ne, UInt64.toNat_min]
  have hmax : maxEa.toNat = 2 ^ 64 - 2 := rfl
  have hbad : badAddr.toNat = 2 ^ 64 - 1 := rfl
  omega

/-- `Address + bytes`, which saturates below the sentinel. -/
def Address.add (address : Address) (bytes : UInt64) : Address :=
  ⟨min (saturatingAdd address.raw bytes) maxEa, min_maxEa_ne _⟩

theorem Address.raw_inj {a b : Address} (h : a.raw = b.raw) : a = b := by
  cases a
  cases b
  congr

theorem Address.toNat_lt (address : Address) : address.raw.toNat < 2 ^ 64 - 1 := by
  have hlt := address.raw.toNat_lt
  have hne : address.raw.toNat ≠ badAddr.toNat := mt UInt64.toNat_inj.mp address.valid
  have hbad : badAddr.toNat = 2 ^ 64 - 1 := rfl
  omega

/-- The address behind one that is not the last. -/
theorem Address.toNat_add_one {address stop : Address} (h : address.raw.toNat < stop.raw.toNat) :
    (address.add 1).raw.toNat = address.raw.toNat + 1 := by
  have hstop := stop.toNat_lt
  have hone : (1 : UInt64).toNat = 1 := rfl
  have hmax : maxEa.toNat = 2 ^ 64 - 2 := rfl
  rw [Address.add, UInt64.toNat_min, saturatingAdd, if_pos (by omega), UInt64.toNat_add]
  omega

end Idakit.Decompiler

namespace Idakit.Search

open Idakit.Library Idakit.Types Idakit.Decompiler

/-! ### The kernel's search -/

abbrev Image := Address → Option UInt8

def Image.byteAt (image : Image) (n : ℕ) : Option UInt8 :=
  if n < badAddr.toNat then (Address.tryNew (.ofNat n)).bind image else none

def CompiledBinpat.maskAt (pat : CompiledBinpat) (i : ℕ) : UInt8 := pat.mask.getD i 0xFF

def CompiledBinpat.MatchesAt (image : Image) (pat : CompiledBinpat) (n : ℕ) : Prop :=
  ∀ i v, pat.bytes[i]? = some v →
    ∃ b, image.byteAt (n + i) = some b ∧ b &&& pat.maskAt i = v &&& pat.maskAt i

def AnyMatches (image : Image) (pats : List CompiledBinpat) (n : ℕ) : Prop :=
  ∃ pat ∈ pats, pat.MatchesAt image n

abbrev BinSearch := UInt64 → UInt64 → List CompiledBinpat → BinSearchFlags → UInt64

/-- With masks taken bitwise, the lowest match in the range is found, or the
sentinel says that there is none. -/
def FindsLowest (image : Image) (sdk : BinSearch) : Prop :=
  ∀ start stop pats flags, flags.bitmask = true →
    (sdk start stop pats flags = badAddr ∧
      ∀ n, start.toNat ≤ n → n < stop.toNat → ¬ AnyMatches image pats n) ∨
    (start.toNat ≤ (sdk start stop pats flags).toNat ∧
      (sdk start stop pats flags).toNat < stop.toNat ∧
      AnyMatches image pats (sdk start stop pats flags).toNat ∧
      ∀ n, start.toNat ≤ n → n < (sdk start stop pats flags).toNat → ¬ AnyMatches image pats n)

def binSearch (sdk : BinSearch) : BinSearch := fun start stop pat flags =>
  sdk start stop pat { flags with noBreak := true, noShow := true }

/-! ### The iterator -/

structure Matches where
  pat : Pattern
  cur : Option Address
  stop : Address

def searchIn (start stop : Address) (pattern : Pattern) : Matches := ⟨pattern, some start, stop⟩

def Matches.next (sdk : BinSearch) (m : Matches) : Option Address × Matches :=
  match m.cur with
  | none => (none, m)
  | some start =>
      if m.stop.raw ≤ start.raw then (none, { m with cur := none })
      else
        match Address.tryNew (binSearch sdk start.raw m.stop.raw m.pat.handle m.pat.flags) with
        | some address => (some address, { m with cur := some (address.add 1) })
        | none => (none, { m with cur := none })

theorem Matches.cur_of_next_none {sdk : BinSearch} {m : Matches} :
    (m.next sdk).1 = none → (m.next sdk).2.cur = none := by
  fun_cases Matches.next sdk m with
  | case1 hcur => exact fun _ => hcur
  | case2 => exact fun _ => rfl
  | case3 =>
      intro h
      contradiction
  | case4 => exact fun _ => rfl

/-- An iterator that has come to its end stays there. -/
theorem Matches.next_fused {sdk : BinSearch} {m : Matches} (h : (m.next sdk).1 = none) :
    ((m.next sdk).2.next sdk).1 = none := by
  rw [Matches.next, Matches.cur_of_next_none h]

def Stands (pattern : Pattern) (stop : Address) (m : Matches) (here : ℕ) : Prop :=
  m.pat = pattern ∧ m.stop = stop ∧ ∃ c, m.cur = some c ∧ c.raw.toNat = here

theorem searchIn_stands (start stop : Address) (pattern : Pattern) :
    Stands pattern stop (searchIn start stop pattern) start.raw.toNat :=
  ⟨rfl, rfl, start, rfl, rfl⟩

/-- A step finds the lowest occurrence that is left. -/
theorem Matches.next_scans {image : Image} {sdk : BinSearch} (hsdk : FindsLowest image sdk)
    {pattern : Pattern} (hflags : pattern.flags.bitmask = true) (stop : Address) :
    Scans (Matches.next sdk) (fun a => a.raw.toNat) (AnyMatches image pattern.handle)
      stop.raw.toNat (Stands pattern stop) := by
  rintro m here ⟨rfl, rfl, c, hcur, rfl⟩
  fun_cases Matches.next sdk m with
  | case1 hnone =>
      rw [hnone] at hcur
      contradiction
  | case2 start hstart hend =>
      obtain rfl : start = c := Option.some.inj (hstart.symm.trans hcur)
      rw [UInt64.le_iff_toNat_le] at hend
      exact .inl ⟨rfl, by omega⟩
  | case3 start hstart hlt address hhit =>
      obtain rfl : start = c := Option.some.inj (hstart.symm.trans hcur)
      obtain ⟨hne, rfl⟩ := Address.tryNew_eq_some hhit
      obtain ⟨hbad, -⟩ | ⟨hle, hlt, hmatch, hlow⟩ := hsdk start.raw m.stop.raw m.pat.handle
        { m.pat.flags with noBreak := true, noShow := true } hflags
      · exact absurd hbad hne
      · -- The end is an address, so that there is one behind the occurrence.
        refine .inr ⟨_, rfl, hle, hlt, hmatch, hlow, rfl, rfl, _, rfl, ?_⟩
        exact Address.toNat_add_one hlt
  | case4 start hstart hlt hhit =>
      obtain rfl : start = c := Option.some.inj (hstart.symm.trans hcur)
      have hbad := Address.tryNew_eq_none.mp hhit
      obtain ⟨-, hempty⟩ | ⟨-, hlt, -⟩ := hsdk start.raw m.stop.raw m.pat.handle
        { m.pat.flags with noBreak := true, noShow := true } hflags
      · exact .inl ⟨rfl, hempty⟩
      · have hstop := m.stop.toNat_lt
        rw [binSearch] at hbad
        rw [hbad] at hlt
        exact absurd hlt (by simp [badAddr]; omega)

/-! ### Occurrences -/

def OccursAt (image : Image) (toks : List Text) (n : ℕ) : Prop :=
  ∀ i tok, toks[i]? = some tok → ∃ b, image.byteAt (n + i) = some b ∧ TokenMatches tok b

/-- What stands at one place of two related lists. -/
theorem forall₂_getElem? {α β : Type} {r : α → β → Prop} {as : List α} {bs : List β}
    (h : List.Forall₂ r as bs) (i : ℕ) :
    (as[i]? = none ∧ bs[i]? = none) ∨ ∃ a b, as[i]? = some a ∧ bs[i]? = some b ∧ r a b := by
  induction h generalizing i with
  | nil => exact .inl ⟨rfl, rfl⟩
  | cons hab _ ih =>
      match i with
      | 0 => exact .inr ⟨_, _, rfl, rfl, hab⟩
      | i + 1 => exact ih i

/-- What is compiled of tokens matches where they occur. -/
theorem anyMatches_iff {toks : List Text} {parts : List (UInt8 × UInt8)}
    (h : List.Forall₂ (fun tok part => parseHexToken tok = some part) toks parts) (image : Image)
    (n : ℕ) :
    AnyMatches image (binpatFromBytes (parts.map (·.1)) (parts.map (·.2))) n ↔
      OccursAt image toks n := by
  have hone : AnyMatches image (binpatFromBytes (parts.map (·.1)) (parts.map (·.2))) n ↔
      CompiledBinpat.MatchesAt image ⟨parts.map (·.1), parts.map (·.2)⟩ n := by
    simp [AnyMatches, binpatFromBytes]
  rw [hone]
  apply forall_congr'
  intro i
  obtain ⟨htok, hpart⟩ | ⟨tok, ⟨v, m⟩, htok, hpart, hparse⟩ := forall₂_getElem? h i
  · simp [htok, hpart]
  · -- The mask is not empty, so that its entry counts.
    have hmask : CompiledBinpat.maskAt ⟨parts.map (·.1), parts.map (·.2)⟩ i = m := by
      simp [CompiledBinpat.maskAt, hpart]
    simp [htok, hpart, hmask, ← matches_of_parse hparse]

/-! ### The search -/

/-- The texts that can be searched for are the signatures, and a search for
one comes to an end with its occurrences in the range, in order. -/
theorem hex_search_exact {image : Image} {sdk : BinSearch} (hsdk : FindsLowest image sdk)
    (s : Text) :
    ((∃ p, Pattern.hex s = .ok p) ↔ IsSignature s) ∧
    ∀ p toks, Pattern.hex s = .ok p → Spaced toks s → ∀ start stop : Address,
      ∃ hits, Yields (Matches.next sdk) (searchIn start stop p) hits ∧
        hits.Pairwise (fun a b => a.raw < b.raw) ∧
        ∀ a, a ∈ hits ↔
          start.raw ≤ a.raw ∧ a.raw < stop.raw ∧ OccursAt image toks a.raw.toNat := by
  refine ⟨Pattern.hex_accepts_iff s, fun p toks hp hspaced start stop => ?_⟩
  obtain ⟨parts, hparts, -, hhandle, hflags⟩ := Pattern.hex_ok hp
  rw [spaced_iff.mp hspaced] at hparts
  obtain ⟨hits, hyields, hsorted, -, hmem⟩ :=
    (Matches.next_scans hsdk hflags stop).exists_yields (searchIn_stands start stop p)
  refine ⟨hits, hyields, hsorted, fun a => ?_⟩
  rw [UInt64.le_iff_toNat_le, UInt64.lt_iff_toNat_lt, ← anyMatches_iff hparts, ← hhandle,
    ← hmem a.raw.toNat]
  constructor
  · exact fun ha => ⟨a, ha, rfl⟩
  · rintro ⟨b, hb, heq⟩
    obtain rfl : b = a := Address.raw_inj (UInt64.toNat_inj.mp heq)
    exact hb

/-! ### A search by trial -/

theorem CompiledBinpat.matchesAt_iff (image : Image) (pat : CompiledBinpat) (n : ℕ) :
    (∀ i (h : i < pat.bytes.length), ∃ b ∈ image.byteAt (n + i),
      b &&& pat.maskAt i = pat.bytes[i] &&& pat.maskAt i) ↔ pat.MatchesAt image n := by
  constructor
  · intro h i v hv
    obtain ⟨hi, rfl⟩ := List.getElem?_eq_some_iff.mp hv
    exact h i hi
  · intro h i hi
    exact h i _ (List.getElem?_eq_getElem hi)

instance (image : Image) (pat : CompiledBinpat) (n : ℕ) : Decidable (pat.MatchesAt image n) :=
  decidable_of_iff _ (pat.matchesAt_iff image n)

instance (image : Image) (pats : List CompiledBinpat) (n : ℕ) :
    Decidable (AnyMatches image pats n) :=
  inferInstanceAs (Decidable (∃ pat ∈ pats, pat.MatchesAt image n))

/-- Every place of the range is tried, from the first. -/
def scanUpward (image : Image) : BinSearch := fun start stop pats _ =>
  match (List.range' start.toNat (stop.toNat - start.toNat)).find?
      (fun n => AnyMatches image pats n) with
  | some n => .ofNat n
  | none => badAddr

theorem scanUpward_findsLowest (image : Image) : FindsLowest image (scanUpward image) := by
  intro start stop pats flags _
  unfold scanUpward
  split
  · rename_i n hfind
    obtain ⟨hn, hrange, hlow⟩ := List.find?_range'_eq_some.mp hfind
    have hstop := stop.toNat_lt
    rw [List.mem_range'_1] at hrange
    have hraw : (UInt64.ofNat n).toNat = n := UInt64.toNat_ofNat_of_lt' (by rw [UInt64.size]; omega)
    rw [hraw]
    refine .inr ⟨hrange.1, by omega, by simpa using hn, fun m hle hlt => ?_⟩
    simpa using hlow m hle hlt
  · rename_i hfind
    refine .inl ⟨rfl, fun m hle hlt => ?_⟩
    simpa using List.find?_range'_eq_none.mp hfind m hle (by omega)

def twoBytes : Image := fun a =>
  if a.raw = 0x1000 then some 0x48 else if a.raw = 0x1001 then some 0x03 else none

theorem hex_search_exact_twoBytes :
    ∃ p, Pattern.hex "4?  3".toList = .ok p ∧
      ∃ hits, Yields (Matches.next (scanUpward twoBytes))
          (searchIn ⟨0, by decide⟩ ⟨0x1001, by decide⟩ p) hits ∧
        hits.Pairwise (fun a b => a.raw < b.raw) ∧ ⟨0x1000, by decide⟩ ∈ hits := by
  obtain ⟨-, hsearch⟩ := hex_search_exact (scanUpward_findsLowest twoBytes) "4?  3".toList
  obtain ⟨hits, hyields, hsorted, hmem⟩ := hsearch _ ["4?".toList, "3".toList] rfl
    (spaced_iff.mpr (by decide)) ⟨0, by decide⟩ ⟨0x1001, by decide⟩
  refine ⟨_, rfl, hits, hyields, hsorted, (hmem _).mpr ⟨by decide, by decide, ?_⟩⟩
  intro i tok htok
  match i with
  | 0 =>
      obtain rfl : "4?".toList = tok := Option.some.inj htok
      exact ⟨0x48, rfl, .inr rfl, .inl rfl⟩
  | 1 =>
      obtain rfl : "3".toList = tok := Option.some.inj htok
      exact ⟨0x03, rfl, .inr rfl⟩

end Idakit.Search
