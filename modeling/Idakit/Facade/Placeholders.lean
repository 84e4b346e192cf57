import Idakit.Facade.WalkCalls
import Mathlib.Data.List.Nodup
import Mathlib.Data.List.Perm.Basic

/-!
The placeholders of a run of callbacks. A callback reserves the handle it is
the first to ask for; where only pending handles are filled, every handle
reserved is filled once or still pending, and every name is given one handle.
-/

namespace Idakit.Types.TypeBuilder

open Idakit.Facade

variable {b b' : TypeBuilder} {c : SinkCall} {handle : Option TypeId}

def reserves (b : TypeBuilder) : SinkCall → Option (Option Text × TypeId)
  | .namedRef name =>
      if b.name2type.lookup name = none then some (some name, b.table.len) else none
  | .anon => some (none, b.table.len)
  | _ => none

def allotted (b : TypeBuilder) : List SinkCall → List (Option Text × TypeId)
  | [] => []
  | c :: cs =>
      match b.call c with
      | some (_, b') => (b.reserves c).toList ++ b'.allotted cs
      | none => []

def allottedNames (b : TypeBuilder) (cs : List SinkCall) : List Text :=
  (b.allotted cs).filterMap Prod.fst

/-- What a callback that shares a value leaves alone. -/
theorem call_of_shares (hc : shares c = true) (hcall : b.call c = some (handle, b')) :
    b'.name2type = b.name2type ∧ b'.pending = b.pending ∧ b.table.len ≤ b'.table.len ∧
      b.reserves c = none ∧ target c = none := by
  have hintern (data : TypeValue) : b.table.len ≤ (b.table.intern data).2.len := by
    rcases b.table.intern_cases data with ⟨id, -, heq⟩ | ⟨dedup, -, heq⟩
    · rw [heq]
    · rw [heq]
      exact (Nat.le_succ _).trans (TypeTable.alloc_len data).ge
  cases c with
  | scalar kind bytes signed size hasSize =>
      simp only [call, scalar, Option.some.injEq, Prod.mk.injEq] at hcall
      obtain ⟨-, rfl⟩ := hcall
      split <;> exact ⟨rfl, rfl, hintern _, rfl, rfl⟩
  | ptr | array | func | opaqueNamed =>
      cases hcall
      exact ⟨rfl, rfl, hintern _, rfl, rfl⟩
  | _ => cases hc

/-- What one callback does to the placeholders: it shares, finds, reserves or
fills. -/
inductive Serves (b : TypeBuilder) (c : SinkCall) (b' : TypeBuilder) : Prop
  | keep (hreserves : b.reserves c = none) (htarget : target c = none)
      (hnames : b'.name2type = b.name2type) (hpending : b'.pending = b.pending)
      (hlen : b.table.len ≤ b'.table.len)
  | reserve {name} (hreserves : b.reserves c = some (name, b.table.len))
      (htarget : target c = none) (hnew : ∀ n ∈ name, b.name2type.lookup n = none)
      (hnames : b'.name2type = (name.map fun n => (n, b.table.len)).toList ++ b.name2type)
      (hpending : b'.pending = (b.table.len, name) :: b.pending.filter fun p => p.1 != b.table.len)
      (hlen : b'.table.len = b.table.len + 1)
  | fill {id data} (hreserves : b.reserves c = none) (htarget : target c = some id)
      (hfills : b.fills c = some (id, data)) (hnames : b'.name2type = b.name2type)
      (hpending : b'.pending = b.pending.filter fun p => p.1 != id)
      (hlen : b'.table.len = b.table.len)

theorem serves_of_call (hcall : b.call c = some (handle, b')) : Serves b c b' := by
  cases c with
  | namedRef name =>
      rcases call_namedRef hcall with ⟨id, hfound, rfl⟩ | ⟨hnew, -, rfl⟩
      · exact .keep (by simp [reserves, hfound]) rfl rfl rfl le_rfl
      · refine .reserve (if_pos hnew) rfl (fun n hn => ?_) rfl rfl (TypeTable.alloc_len _)
        cases hn
        exact hnew
  | anon =>
      cases hcall
      exact .reserve rfl rfl (fun n hn => nomatch hn) rfl rfl (TypeTable.alloc_len _)
  | fillStruct id | fillEnum id | fillTypedef id =>
      obtain ⟨hnames, hpending, hfilled⟩ := call_of_target rfl hcall
      have hstep := step_of_call hcall
      obtain ⟨_, -, heq⟩ := Option.map_eq_some_iff.mp hcall
      cases heq
      cases hstep with
      | fill hfills hfill =>
          obtain rfl := hfilled _ _ hfills
          exact .fill rfl rfl hfills hnames hpending (TypeTable.fill_len hfill)
  | scalar | ptr | array | func | opaqueNamed =>
      obtain ⟨hnames, hpending, hlen, hreserves, htarget⟩ := call_of_shares rfl hcall
      exact .keep hreserves htarget hnames hpending hlen

theorem allotted_cons {cs : List SinkCall} (hcall : b.call c = some (handle, b')) :
    b.allotted (c :: cs) = (b.reserves c).toList ++ b'.allotted cs := by
  rw [allotted, hcall]

variable {last : TypeBuilder} {cs : List SinkCall} {handles : List TypeId}

/-- Handles reserved later are larger. -/
theorem allotted_increases (hrun : b.run cs = some (handles, last)) :
    ((b.allotted cs).map Prod.snd).Pairwise (· < ·) ∧
      ∀ id ∈ (b.allotted cs).map Prod.snd, b.table.len ≤ id := by
  induction cs generalizing b handles with
  | nil => exact ⟨.nil, fun id hid => nomatch hid⟩
  | cons c cs ih =>
      obtain ⟨handle, middle, rest, hcall, hrest, -⟩ := run_cons_eq_some_iff.mp hrun
      obtain ⟨hless, hle⟩ := ih hrest
      rw [allotted_cons hcall]
      cases serves_of_call hcall with
      | keep hreserves _ _ _ hlen | fill hreserves _ _ _ _ hlen =>
          rw [hreserves]
          refine ⟨hless, fun id hid => ?_⟩
          have := hle id hid
          omega
      | reserve hreserves _ _ _ _ hlen =>
          rw [hreserves]
          refine ⟨List.pairwise_cons.mpr ⟨fun id hid => ?_, hless⟩, fun id hid => ?_⟩
          · show b.table.len < id
            have := hle id hid
            omega
          · rcases List.mem_cons.mp hid with rfl | hid
            · exact le_rfl
            · have := hle id hid
              omega

/-- What is reserved or pending before is filled or pending after, each handle
once. -/
theorem perm_fills (hopened : (b.pending.map Prod.fst).Nodup) (hholds : b.HoldsPlaceholders)
    (hpending : b.Along FillsPending cs) (hrun : b.run cs = some (handles, last)) :
    ((b.allotted cs).map Prod.snd ++ b.pending.map Prod.fst).Perm
      (cs.filterMap target ++ last.pending.map Prod.fst) := by
  -- What is reserved and what was pending is filled or still pending, callback by callback.
  induction cs generalizing b handles with
  | nil =>
      cases hrun
      exact .refl _
  | cons c cs ih =>
      obtain ⟨handle, middle, rest, hcall, hrest, -⟩ := run_cons_eq_some_iff.mp hrun
      obtain ⟨hc, hcs⟩ := hpending
      rw [hcall] at hcs
      have hfilter (id : TypeId) : (b.pending.filter fun p => p.1 != id).map Prod.fst =
          (b.pending.map Prod.fst).erase id := by
        rw [hopened.erase_eq_filter, List.filter_map]
        rfl
      have hholds' := holdsPlaceholders_call hholds hcall
      rw [allotted_cons hcall]
      cases serves_of_call hcall with
      | keep hreserves htarget hnames hopen hlen =>
          rw [hreserves, List.filterMap_cons_none htarget]
          rw [← hopen] at hopened ⊢
          exact ih hopened hholds' hcs hrest
      | @reserve name hreserves htarget hnew hnames hopen hlen =>
          have hfresh : b.table.len ∉ b.pending.map Prod.fst := fun hmem =>
            lt_irrefl _ (TypeTable.lt_len_of_get (hholds _ hmem))
          have hmap : middle.pending.map Prod.fst = b.table.len :: b.pending.map Prod.fst := by
            rw [hopen, List.map_cons, hfilter, List.erase_of_not_mem hfresh]
          have hnodup : (middle.pending.map Prod.fst).Nodup :=
            hmap ▸ List.nodup_cons.mpr ⟨hfresh, hopened⟩
          rw [hreserves, List.filterMap_cons_none htarget]
          refine List.Perm.trans ?_ (ih hnodup hholds' hcs hrest)
          rw [hmap]
          exact List.perm_middle.symm
      | @fill id data hreserves htarget hfills hnames hopen hlen =>
          have hmem := hc id data hfills
          have hmap : middle.pending.map Prod.fst = (b.pending.map Prod.fst).erase id := by
            rw [hopen, hfilter]
          have hnodup : (middle.pending.map Prod.fst).Nodup := hmap ▸ hopened.erase id
          rw [hreserves, List.filterMap_cons_some htarget, List.cons_append]
          refine List.Perm.trans ?_ ((ih hnodup hholds' hcs hrest).cons id)
          rw [hmap]
          exact ((List.perm_cons_erase hmem).append_left _).trans List.perm_middle

/-! ### Names -/

/-- The names reserved are those that are new, each once. -/
theorem allottedNames_spec (hrun : b.run cs = some (handles, last)) :
    (b.allottedNames cs).Nodup ∧ (∀ n ∈ b.allottedNames cs, b.name2type.lookup n = none) ∧
      ∀ n, last.name2type.lookup n ≠ none ↔
        n ∈ b.allottedNames cs ∨ b.name2type.lookup n ≠ none := by
  induction cs generalizing b handles with
  | nil =>
      cases hrun
      simp [allottedNames, allotted]
  | cons c cs ih =>
      obtain ⟨handle, middle, rest, hcall, hrest, -⟩ := run_cons_eq_some_iff.mp hrun
      obtain ⟨hnodup, hfresh, hnames⟩ := ih hrest
      have hcons : b.allottedNames (c :: cs) =
          (b.reserves c).toList.filterMap Prod.fst ++ middle.allottedNames cs := by
        rw [allottedNames, allotted_cons hcall, List.filterMap_append]
        rfl
      rw [hcons]
      cases serves_of_call hcall with
      | keep hreserves _ hsame | fill hreserves _ _ hsame =>
          rw [hreserves, ← hsame]
          exact ⟨hnodup, hfresh, hnames⟩
      | @reserve name hreserves htarget hnew hsame hopen hlen =>
          rw [hreserves]
          cases name with
          | none =>
              have hsame : middle.name2type = b.name2type := hsame
              rw [← hsame]
              exact ⟨hnodup, hfresh, hnames⟩
          | some n =>
              have hnone := hnew n rfl
              have hlookup (m : Text) :
                  middle.name2type.lookup m ≠ none ↔ m = n ∨ b.name2type.lookup m ≠ none := by
                rw [hsame]
                show ((n, b.table.len) :: b.name2type).lookup m ≠ none ↔ _
                by_cases heq : m = n
                · simp [heq]
                · rw [List.lookup_cons, beq_eq_false_iff_ne.mpr heq]
                  simp [heq]
              -- A name reserved here is known from now on, and only unknown names are reserved.
              have hnotMem : n ∉ middle.allottedNames cs := fun hmem =>
                (hlookup n).mpr (.inl rfl) (hfresh n hmem)
              refine ⟨List.nodup_cons.mpr ⟨hnotMem, hnodup⟩, fun m hm => ?_, fun m => ?_⟩
              · rcases List.mem_cons.mp hm with rfl | hm
                · exact hnone
                · by_contra hne
                  exact (hlookup m).mpr (.inr hne) (hfresh m hm)
              · rw [hnames m, hlookup m]
                show _ ↔ m ∈ n :: middle.allottedNames cs ∨ _
                rw [List.mem_cons]
                tauto

end Idakit.Types.TypeBuilder
