import Mathlib.Data.List.Sort
import Mathlib.Order.Basic

/-!
Stable sorting by a key. A list is put in the order of the keys of its
entries; entries with equal keys keep the order they had. Two facts carry
every use: sorting commutes with whatever leaves the keys alone, and a
list whose keys are distinct has only one sorted arrangement.
-/

namespace Idakit.Library

variable {α β κ : Type*} [LinearOrder κ]

def sortByKey (key : α → κ) (l : List α) : List α :=
  l.insertionSort (fun a b => key a ≤ key b)

def SortedByKey (key : α → κ) (l : List α) : Prop :=
  l.Pairwise (fun a b => key a ≤ key b)

theorem sortByKey_perm (key : α → κ) (l : List α) : (sortByKey key l).Perm l :=
  List.perm_insertionSort _ l

@[simp] theorem mem_sortByKey {key : α → κ} {l : List α} {a : α} :
    a ∈ sortByKey key l ↔ a ∈ l :=
  (sortByKey_perm key l).mem_iff

theorem sortByKey_sorted (key : α → κ) (l : List α) : SortedByKey key (sortByKey key l) := by
  have : Std.Total (fun a b : α => key a ≤ key b) := ⟨fun a b => le_total (key a) (key b)⟩
  have : IsTrans α (fun a b : α => key a ≤ key b) := ⟨fun _ _ _ => le_trans⟩
  exact List.pairwise_insertionSort _ l

/-- Sorting a sorted list changes nothing. -/
theorem SortedByKey.sortByKey_eq {key : α → κ} {l : List α} (h : SortedByKey key l) :
    sortByKey key l = l :=
  List.Pairwise.insertionSort_eq h

/-- Sorting commutes with a map that leaves the keys alone. -/
theorem map_sortByKey {key : α → κ} {key' : β → κ} (f : α → β) (l : List α)
    (hkey : ∀ a ∈ l, key' (f a) = key a) :
    (sortByKey key l).map f = sortByKey key' (l.map f) := by
  apply List.map_insertionSort
  intro a ha b hb
  rw [hkey a ha, hkey b hb]

/-- Lists related entry by entry stay so when both are sorted, if the
relation equates keys. -/
theorem forall₂_sortByKey {R : α → β → Prop} {key : α → κ} {key' : β → κ}
    (hkey : ∀ a b, R a b → key a = key' b) {l : List α} {l' : List β}
    (h : List.Forall₂ R l l') :
    List.Forall₂ R (sortByKey key l) (sortByKey key' l') := by
  have insert {a : α} {b : β} (hab : R a b) {m : List α} {m' : List β}
      (hm : List.Forall₂ R m m') :
      List.Forall₂ R (m.orderedInsert (fun a b => key a ≤ key b) a)
        (m'.orderedInsert (fun a b => key' a ≤ key' b) b) := by
    induction hm with
    | nil => simpa using hab
    | @cons c d m m' hcd hm ih =>
        simp only [List.orderedInsert_cons, hkey a b hab, hkey c d hcd]
        split
        · exact .cons hab (.cons hcd hm)
        · exact .cons hcd ih
  induction h with
  | nil => exact .nil
  | cons hab _ ih => exact insert hab ih

/-- A list with distinct keys has one sorted arrangement. -/
theorem SortedByKey.eq_of_perm {key : α → κ} {l l' : List α} (hperm : l.Perm l')
    (hl : SortedByKey key l) (hl' : SortedByKey key l') (hkey : (l.map key).Nodup) :
    l = l' := by
  refine hperm.eq_of_pairwise (fun a b ha hb hab hba => ?_) hl hl'
  exact List.inj_on_of_nodup_map hkey ha (hperm.mem_iff.mpr hb) (le_antisymm hab hba)

/-- Where entries with equal keys are equal, a list and its rearrangements are
sorted alike. -/
theorem sortByKey_eq_of_perm {key : α → κ} {l l' : List α} (hperm : l.Perm l')
    (hkey : ∀ a ∈ l, ∀ b ∈ l, key a = key b → a = b) : sortByKey key l = sortByKey key l' := by
  have hsorted : (sortByKey key l).Perm (sortByKey key l') :=
    (sortByKey_perm key l).trans (hperm.trans (sortByKey_perm key l').symm)
  refine hsorted.eq_of_pairwise (fun a b ha hb hab hba => ?_) (sortByKey_sorted key l)
    (sortByKey_sorted key l')
  have hb := hperm.mem_iff.mpr (mem_sortByKey.mp hb)
  exact hkey a (mem_sortByKey.mp ha) b hb (le_antisymm hab hba)

/-- Sorting leaves the entries with one key in the order they had. -/
theorem filter_sortByKey {key : α → κ} {k : κ} {p : α → Bool} (hp : ∀ a, p a = true ↔ key a = k)
    (l : List α) : (sortByKey key l).filter p = l.filter p := by
  have : Std.Total (fun a b : α => key a ≤ key b) := ⟨fun a b => le_total (key a) (key b)⟩
  have : IsTrans α (fun a b : α => key a ≤ key b) := ⟨fun _ _ _ => le_trans⟩
  have hpairwise : (l.filter p).Pairwise fun a b => key a ≤ key b := by
    refine List.pairwise_of_forall_mem_list fun a ha b hb => ?_
    have ha := (hp a).mp (List.mem_filter.mp ha).2
    have hb := (hp b).mp (List.mem_filter.mp hb).2
    rw [ha, hb]
  have hsub : List.Sublist (l.filter p) (sortByKey key l) :=
    List.sublist_insertionSort hpairwise List.filter_sublist
  have hsub := hsub.filter p
  rw [List.filter_filter] at hsub
  simp only [Bool.and_self] at hsub
  exact (hsub.eq_of_length ((sortByKey_perm key l).filter _).length_eq.symm).symm

end Idakit.Library
