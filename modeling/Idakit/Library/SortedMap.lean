import Mathlib.Data.List.Pairwise
import Mathlib.Data.List.Nodup
import Mathlib.Order.Lattice

/-!
Maps kept as the list of their entries in the order of the keys. Each key has
one entry, and to look it up, to go through the entries and to ask for the next
key are three views of the same list.
-/

namespace Idakit.Library

structure SortedMap (κ ν : Type) [LinearOrder κ] where
  entries : List (κ × ν)
  sorted : (entries.map Prod.fst).Pairwise (· < ·)

namespace SortedMap

variable {κ ν : Type} [LinearOrder κ]

def empty : SortedMap κ ν := ⟨[], .nil⟩

def keys (m : SortedMap κ ν) : List κ := m.entries.map Prod.fst

def get? (m : SortedMap κ ν) (key : κ) : Option ν :=
  (m.entries.find? fun e => e.1 = key).map Prod.snd

def containsKey (m : SortedMap κ ν) (key : κ) : Bool := m.keys.contains key

def first? (m : SortedMap κ ν) : Option κ := m.keys.head?

/-- The least key greater than one, which need not be a key itself. -/
def next? (m : SortedMap κ ν) (key : κ) : Option κ := m.keys.find? fun k => key < k

/-- Put an entry where its key belongs, in place of the one with that key. -/
def insertEntry (key : κ) (value : ν) : List (κ × ν) → List (κ × ν)
  | [] => [(key, value)]
  | e :: entries =>
      if key < e.1 then (key, value) :: e :: entries
      else if key = e.1 then (key, value) :: entries
      else e :: insertEntry key value entries

theorem mem_insertEntry_keys {key k : κ} {value : ν} {entries : List (κ × ν)} :
    k ∈ (insertEntry key value entries).map Prod.fst ↔ k = key ∨ k ∈ entries.map Prod.fst := by
  induction entries with
  | nil => simp [insertEntry]
  | cons e entries ih =>
      rw [insertEntry]
      split
      · simp
      · split
        · next heq =>
            subst heq
            simp
        · rw [List.map_cons, List.mem_cons, ih, List.map_cons, List.mem_cons]
          tauto

theorem insertEntry_sorted (key : κ) (value : ν) {entries : List (κ × ν)}
    (h : (entries.map Prod.fst).Pairwise (· < ·)) :
    ((insertEntry key value entries).map Prod.fst).Pairwise (· < ·) := by
  induction entries with
  | nil => simp [insertEntry]
  | cons e entries ih =>
      obtain ⟨hfirst, hrest⟩ := List.pairwise_cons.mp h
      rw [insertEntry]
      split
      · next hlt =>
          refine List.pairwise_cons.mpr ⟨fun k hk => ?_, h⟩
          rcases List.mem_cons.mp hk with rfl | hk
          · exact hlt
          · exact hlt.trans (hfirst k hk)
      · next hge =>
          split
          · next heq => exact List.pairwise_cons.mpr ⟨heq ▸ hfirst, hrest⟩
          · next hne =>
              refine List.pairwise_cons.mpr ⟨fun k hk => ?_, ih hrest⟩
              rcases mem_insertEntry_keys.mp hk with rfl | hk
              · exact lt_of_le_of_ne (not_lt.mp hge) (Ne.symm hne)
              · exact hfirst k hk

def insert (m : SortedMap κ ν) (key : κ) (value : ν) : SortedMap κ ν :=
  ⟨insertEntry key value m.entries, insertEntry_sorted key value m.sorted⟩

variable (m : SortedMap κ ν) {key k : κ} {value : ν}

/-! ### Looking up -/

theorem nodup_keys : m.keys.Nodup := m.sorted.imp ne_of_lt

theorem mem_entries_iff : (key, value) ∈ m.entries ↔ m.get? key = some value := by
  rw [get?, Option.map_eq_some_iff]
  constructor
  · intro hmem
    obtain ⟨e, he⟩ : ∃ e, (m.entries.find? fun e => e.1 = key) = some e :=
      Option.isSome_iff_exists.mp (List.find?_isSome.mpr ⟨(key, value), hmem, by simp⟩)
    have hkey : e.1 = key := by simpa using List.find?_some he
    refine ⟨e, he, ?_⟩
    have heq := List.inj_on_of_nodup_map m.nodup_keys (List.mem_of_find?_eq_some he) hmem hkey
    rw [heq]
  · rintro ⟨e, he, rfl⟩
    have hkey : e.1 = key := by simpa using List.find?_some he
    subst hkey
    exact List.mem_of_find?_eq_some he

theorem mem_keys_iff : key ∈ m.keys ↔ ∃ value, m.get? key = some value := by
  simp only [keys, List.mem_map, ← mem_entries_iff, Prod.exists]
  constructor
  · rintro ⟨_, value, hmem, rfl⟩
    exact ⟨value, hmem⟩
  · rintro ⟨value, hmem⟩
    exact ⟨key, value, hmem, rfl⟩

theorem containsKey_iff : m.containsKey key = true ↔ key ∈ m.keys := List.contains_iff_mem

theorem get?_eq_none_iff : m.get? key = none ↔ key ∉ m.keys := by
  rw [mem_keys_iff, Option.eq_none_iff_forall_ne_some]
  exact not_exists.symm

theorem get?_insert : (m.insert key value).get? k = if key = k then some value else m.get? k := by
  show ((insertEntry key value m.entries).find? fun e => e.1 = k).map Prod.snd = _
  rw [get?]
  induction m.entries with
  | nil => by_cases h : key = k <;> simp [insertEntry, h]
  | cons e entries ih =>
      rw [insertEntry]
      split
      · by_cases h : key = k <;> simp [h, List.find?_cons]
      · split
        · next heq =>
            by_cases h : key = k
            · simp [h]
            · have he : e.1 ≠ k := heq ▸ h
              simp [h, he]
        · next hne =>
            by_cases he : e.1 = k
            · subst he
              simp [hne]
            · rw [List.find?_cons_of_neg (by simpa using he),
                List.find?_cons_of_neg (by simpa using he), ih]

/-! ### Going on to the next key -/

/-- From a key, the next one is the next in the list. -/
theorem next?_of_split {before after : List κ} (h : m.keys = before ++ key :: after) :
    m.next? key = after.head? := by
  have hsorted := m.sorted
  rw [show m.entries.map Prod.fst = before ++ key :: after from h] at hsorted
  obtain ⟨-, hkey, hbefore⟩ := List.pairwise_append.mp hsorted
  obtain ⟨hafter, -⟩ := List.pairwise_cons.mp hkey
  have hnone : before.find? (fun k => key < k) = none := by
    rw [List.find?_eq_none]
    intro k hk
    simpa using (hbefore k hk key List.mem_cons_self).le
  rw [next?, h, List.find?_append, hnone, Option.none_or, List.find?_cons_of_neg (by simp)]
  cases after with
  | nil => rfl
  | cons k after =>
      rw [List.find?_cons_of_pos (by simpa using hafter k List.mem_cons_self)]
      rfl

end SortedMap

end Idakit.Library
