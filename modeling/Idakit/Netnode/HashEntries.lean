import Mathlib.Order.Basic
import Mathlib.Data.List.Lex
import Idakit.Library.Iterator
import Idakit.Library.SortedMap
import Idakit.Netnode.Hash

/-!
Going through the hash of a netnode. The kernel keeps it in the order of its
keys' bytes, and has a first key and a next one. The cursor above is the key as
a string, which has U+FFFD for what is not UTF-8; with it the value is looked
up, and the next key asked for.
-/

namespace Idakit.Netnode

open Idakit.Library Idakit.Types

/-! ### The kernel -/

/-- C strings are ordered by their bytes. -/
instance : LinearOrder CString :=
  LinearOrder.lift' (fun k => k.bytes.map UInt8.toNat) fun k k' h => by
    have hbytes : k.bytes = k'.bytes := List.map_injective_iff.mpr (fun _ _ => UInt8.toNat_inj.mp) h
    cases k
    cases k'
    simpa using hbytes

abbrev HashTree := SortedMap CString Stored

def HashTree.hash (tree : HashTree) : Hash := tree.get?

def HashTree.hashfirst (tree : HashTree) : Option CString := tree.first?

/-- The least key greater than a C string; all are greater than the empty one. -/
def HashTree.hashnext (tree : HashTree) (key : Option CString) : Option CString :=
  key.elim tree.first? tree.next?

/-! ### The facade -/

def toRustString (key : CString) : Text := Utf8.lossy key.bytes

def netnodeHashfirst (tree : HashTree) : Option Text := tree.hashfirst.map toRustString

def netnodeHashnext (tree : HashTree) (key : Text) : Option Text :=
  (tree.hashnext (cKey key)).map toRustString

/-! ### The iterator -/

/-- The next pair, and the cursor behind it. -/
def HashEntries.next (tree : HashTree) :
    Option Text → Option (Text × List UInt8) × Option Text
  | none => (none, none)
  | some key =>
      (some (key, (netnodeHashval tree.hash key).getD []), netnodeHashnext tree key)

def HashEntries.Collects (tree : HashTree) (pairs : List (Text × List UInt8)) : Prop :=
  Yields (HashEntries.next tree) (netnodeHashfirst tree) pairs

/-! ### Keys there and back -/

theorem cString_bytes (key : CString) : cString key.bytes = some key := by
  have hwhole : key.bytes.takeWhile (· ≠ 0) = key.bytes := by
    rw [List.takeWhile_eq_self_iff]
    intro b hb
    rw [decide_eq_true_eq]
    rintro rfl
    exact key.noNul hb
  have hne : ¬key.bytes.takeWhile (· ≠ 0) = [] := by
    rw [hwhole]
    exact key.ne_nil
  rw [cString, dif_neg hne]
  congr 1
  cases key
  simpa using hwhole

/-- A key that is UTF-8 comes back as itself. -/
theorem cKey_toRustString {key : CString} (h : (Utf8.decode key.bytes).isSome) :
    cKey (toRustString key) = some key := by
  obtain ⟨text, htext⟩ := Option.isSome_iff_exists.mp h
  have hbytes := Utf8.decode_eq_some_iff.mp htext
  have hback : (toRustString key).asBytes = key.bytes := by
    rw [toRustString, hbytes, Utf8.lossy_encode]
    rfl
  rw [cKey, hback, cString_bytes]

/-- Without zero bytes there is no zero character. -/
theorem toRustString_noNul (key : CString) : 0 ∉ (toRustString key).asBytes := by
  intro hmem
  obtain ⟨c, hc, hzero⟩ := List.mem_flatMap.mp hmem
  have hnul : c = Char.ofNat 0 :=
    Utf8.encodeChar_inj (Utf8.encodeChar_of_mem hzero (by decide))
  subst hnul
  exact key.noNul (Utf8.zero_mem_of_lossy hc)

theorem decode_asBytes (text : Text) : Utf8.decode text.asBytes = some text :=
  Utf8.decode_eq_some_iff.mpr rfl

/-- Any key comes back as one that is UTF-8, and reads the same. -/
theorem exists_cKey_toRustString (key : CString) :
    ∃ back, cKey (toRustString key) = some back ∧ (Utf8.decode back.bytes).isSome ∧
      toRustString back = toRustString key := by
  have hne : (toRustString key).asBytes ≠ [] := by
    obtain ⟨c, text, htext⟩ := List.exists_cons_of_ne_nil (Utf8.lossy_ne_nil key.ne_nil)
    rw [toRustString, htext]
    exact List.append_ne_nil_of_left_ne_nil String.utf8EncodeChar_ne_nil _
  let back : CString := ⟨(toRustString key).asBytes, hne, toRustString_noNul key⟩
  refine ⟨back, cString_bytes back, ?_, ?_⟩
  · show (Utf8.decode (toRustString key).asBytes).isSome = true
    rw [decode_asBytes]
    rfl
  · exact Utf8.lossy_encode _

/-! ### What is collected -/

variable {tree : HashTree}

def HashTree.pairs (tree : HashTree) : List (Text × List UInt8) :=
  tree.entries.map fun e => (toRustString e.1, e.2.bytes)

/-- What is looked up under the key that came back. -/
theorem hashval_eq {key : CString} {text : Text} (h : cKey text = some key) :
    netnodeHashval tree.hash text = (tree.get? key).map (·.bytes) := by
  have hread := tree.hash.hash_eq_readAt text
  rw [readAt, h] at hread
  exact hread

/-- From an entry to the next, as long as the keys are UTF-8. -/
theorem yields_of_split (hutf8 : ∀ key ∈ tree.keys, (Utf8.decode key.bytes).isSome)
    {before after : List (CString × Stored)} (h : tree.entries = before ++ after) :
    Yields (HashEntries.next tree) (after.head?.map fun e => toRustString e.1)
      (after.map fun e => (toRustString e.1, e.2.bytes)) := by
  induction after generalizing before with
  | nil => exact .done rfl
  | cons e after ih =>
      have hkeys : tree.keys = before.map Prod.fst ++ e.1 :: after.map Prod.fst := by
        rw [SortedMap.keys, h, List.map_append, List.map_cons]
      have hback := cKey_toRustString (hutf8 e.1 (by simp [hkeys]))
      have hvalue : tree.get? e.1 = some e.2 := tree.mem_entries_iff.mp (by simp [h])
      have hnext : netnodeHashnext tree (toRustString e.1) =
          after.head?.map fun e => toRustString e.1 := by
        rw [netnodeHashnext, hback, HashTree.hashnext, Option.elim_some,
          SortedMap.next?_of_split tree hkeys, List.head?_map, Option.map_map]
        rfl
      refine .item ?_ ?_
      · show some (_, (netnodeHashval tree.hash (toRustString e.1)).getD []) = _
        rw [hashval_eq hback, hvalue]
        rfl
      · show Yields _ (netnodeHashnext tree (toRustString e.1)) _
        rw [hnext]
        exact ih (show tree.entries = (before ++ [e]) ++ after by simp [h])

theorem collects_pairs (hutf8 : ∀ key ∈ tree.keys, (Utf8.decode key.bytes).isSome) :
    HashEntries.Collects tree tree.pairs := by
  have hfirst : netnodeHashfirst tree = tree.entries.head?.map fun e => toRustString e.1 := by
    rw [netnodeHashfirst, HashTree.hashfirst, SortedMap.first?, SortedMap.keys, List.head?_map,
      Option.map_map]
    rfl
  rw [HashEntries.Collects, hfirst]
  exact yields_of_split hutf8 (show tree.entries = [] ++ tree.entries from rfl)

/-- The cursor is the key of the pair to come. -/
theorem cursor_of_yields {cursor : Option Text} {pair : Text × List UInt8}
    {pairs : List (Text × List UInt8)} (h : Yields (HashEntries.next tree) cursor (pair :: pairs)) :
    cursor = some pair.1 ∧ (netnodeHashval tree.hash pair.1).getD [] = pair.2 := by
  cases h with
  | item hsome rest =>
      cases cursor with
      | none => cases hsome
      | some key =>
          cases hsome
          exact ⟨rfl, rfl⟩

/-- The cursor stands at one place only, so that no two pairs have one key. -/
theorem index_unique {pairs : List (Text × List UInt8)} (h : HashEntries.Collects tree pairs)
    {i j : ℕ} (hi : i < pairs.length) (hj : j < pairs.length) (heq : pairs[i].1 = pairs[j].1) :
    i = j := by
  obtain ⟨s, hs⟩ := h.drop i hi.le
  obtain ⟨t, ht⟩ := h.drop j hj.le
  rw [List.drop_eq_getElem_cons hi] at hs
  rw [List.drop_eq_getElem_cons hj] at ht
  obtain ⟨rfl, -⟩ := cursor_of_yields hs
  obtain ⟨rfl, -⟩ := cursor_of_yields ht
  rw [heq] at hs
  have hlength := congrArg List.length (hs.unique ht)
  simp only [List.length_cons, List.length_drop] at hlength
  omega

/-- If a pair is collected for each entry, every key is UTF-8: what it comes back
as is a key too, with the value of its own pair. -/
theorem utf8_of_collects (h : HashEntries.Collects tree tree.pairs) :
    ∀ key ∈ tree.keys, (Utf8.decode key.bytes).isSome := by
  intro key hkey
  obtain ⟨value, hvalue⟩ := tree.mem_keys_iff.mp hkey
  obtain ⟨i, hi, hentry⟩ := List.getElem_of_mem (tree.mem_entries_iff.mpr hvalue)
  have hi' : i < tree.pairs.length := by simpa [HashTree.pairs] using hi
  have hpair : tree.pairs[i] = (toRustString key, value.bytes) := by
    simp [HashTree.pairs, hentry]
  obtain ⟨back, hback, hutf8, hsame⟩ := exists_cKey_toRustString key
  obtain ⟨s, hs⟩ := h.drop i hi'.le
  rw [List.drop_eq_getElem_cons hi', hpair] at hs
  obtain ⟨-, hread⟩ := cursor_of_yields hs
  rw [hashval_eq hback] at hread
  have hpos := value.pos
  cases hget : tree.get? back with
  | none =>
      rw [hget] at hread
      rw [← show [] = value.bytes from hread] at hpos
      cases hpos
  | some value' =>
      obtain ⟨j, hj, hentry'⟩ := List.getElem_of_mem (tree.mem_entries_iff.mpr hget)
      have hj' : j < tree.pairs.length := by simpa [HashTree.pairs] using hj
      have hkeys : tree.pairs[j].1 = tree.pairs[i].1 := by
        rw [hpair]
        simp [HashTree.pairs, hentry', hsame]
      obtain rfl := index_unique h hj' hi' hkeys
      rw [hentry] at hentry'
      cases hentry'
      exact hutf8

/-- The iterator comes to an end with one pair for each entry, in the order of
the keys and with the entry's value, just if every key is UTF-8; whether the
keys of the pairs are taken as they come back or byte for byte. -/
theorem collects_iff_utf8 (tree : HashTree) :
    (HashEntries.Collects tree tree.pairs ↔ ∀ key ∈ tree.keys, (Utf8.decode key.bytes).isSome) ∧
    ((∃ pairs, HashEntries.Collects tree pairs ∧
        pairs.map (fun p => (p.1.asBytes, p.2)) =
          tree.entries.map fun e => (e.1.bytes, e.2.bytes)) ↔
      ∀ key ∈ tree.keys, (Utf8.decode key.bytes).isSome) := by
  refine ⟨⟨utf8_of_collects, collects_pairs⟩, fun h => ?_, fun hutf8 => ?_⟩
  · obtain ⟨pairs, -, hpairs⟩ := h
    intro key hkey
    obtain ⟨value, hvalue⟩ := tree.mem_keys_iff.mp hkey
    have hmem : (key.bytes, value.bytes) ∈ pairs.map fun p => (p.1.asBytes, p.2) := by
      rw [hpairs]
      exact List.mem_map.mpr ⟨(key, value), tree.mem_entries_iff.mpr hvalue, rfl⟩
    obtain ⟨p, -, hp⟩ := List.mem_map.mp hmem
    rw [← (Prod.mk.inj hp).1, decode_asBytes]
    rfl
  · refine ⟨tree.pairs, collects_pairs hutf8, ?_⟩
    rw [HashTree.pairs, List.map_map]
    refine List.map_congr_left fun e he => ?_
    obtain ⟨text, htext⟩ := Option.isSome_iff_exists.mp
      (hutf8 e.1 (List.mem_map_of_mem he))
    have hbytes := Utf8.decode_eq_some_iff.mp htext
    show ((toRustString e.1).asBytes, _) = _
    rw [toRustString, hbytes, Utf8.lossy_encode]
    rfl

/-- The key of one byte 0xFF, with the value of one byte. -/
def strayKey : HashTree :=
  ⟨[(⟨[0xFF], by decide, by decide⟩, ⟨[1], by decide, by decide⟩)], by simp⟩

/-- The iterator is back at that key after every pair. -/
theorem not_collects_strayKey : ¬∃ pairs, HashEntries.Collects strayKey pairs := by
  have hfirst : netnodeHashfirst strayKey = some [Char.ofNat 0xFFFD] := by decide
  have hnext : netnodeHashnext strayKey [Char.ofNat 0xFFFD] = some [Char.ofNat 0xFFFD] := by
    decide
  rintro ⟨pairs, h⟩
  rw [HashEntries.Collects, hfirst] at h
  induction pairs with
  | nil =>
      cases h with
      | done hnone => cases hnone
  | cons pair pairs ih =>
      cases h with
      | item hsome rest => exact ih (hnext ▸ rest)

end Idakit.Netnode
