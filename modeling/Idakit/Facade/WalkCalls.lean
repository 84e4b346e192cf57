import Idakit.Facade.TypeWalk
import Idakit.Library.Stateful
import Idakit.Types.Aliases

/-!
The callbacks of a walk. Whatever the kernel answers, the walk's callbacks
rebuild its table. A walk mints handles and fills only what it minted, each
handle once, so long as different names are decoded differently: the body of
a type is walked only when its name is new, and then its handle is new too.
-/

namespace Idakit.Facade

open Idakit.Library Idakit.Types

variable {τ : Type} {sdk : Sdk τ}

def Sdk.DecodesApart (sdk : Sdk τ) : Prop :=
  ∀ t t' nm nm', sdk.getTypeName t = some nm → sdk.getTypeName t' = some nm' →
    sdk.lossy nm = sdk.lossy nm' → nm = nm'

/-- What the walker knows of the names it has seen, and what is pending. -/
structure Known (sdk : Sdk τ) (w : WalkState) : Prop where
  named : ∀ text id, w.builder.name2type.lookup text = some id →
    ∃ nm ∈ w.defined, sdk.lossy nm = text
  names : ∀ nm ∈ w.defined, ∃ t, sdk.getTypeName t = some nm
  placeholders : w.builder.HoldsPlaceholders

theorem known_start : Known sdk .start where
  named := by simp [WalkState.start, TypeBuilder.new]
  names := by simp [WalkState.start]
  placeholders := TypeBuilder.holdsPlaceholders_new

/-- The walk has gone on from one state to another by some callbacks, which
fill only what they mint, and that once. -/
def Walked (sdk : Sdk τ) (w w' : WalkState) : Prop :=
  ∃ calls handles, w'.calls = w.calls ++ calls ∧
    w.builder.run calls = some (handles, w'.builder) ∧
    (sdk.DecodesApart → Known sdk w →
      Known sdk w' ∧ w.builder.Along TypeBuilder.FillsPending calls ∧
        ∀ id ∈ w.builder.pending.map Prod.fst, id ∈ w'.builder.pending.map Prod.fst)

theorem Walked.refl (w : WalkState) : Walked sdk w w :=
  ⟨[], [], by simp, rfl, fun _ hknown => ⟨hknown, trivial, fun _ hid => hid⟩⟩

theorem Walked.trans (w w' w'' : WalkState) (h : Walked sdk w w') (h' : Walked sdk w' w'') :
    Walked sdk w w'' := by
  obtain ⟨calls, handles, hcalls, hrun, hfills⟩ := h
  obtain ⟨calls', handles', hcalls', hrun', hfills'⟩ := h'
  refine ⟨calls ++ calls', handles ++ handles', ?_, TypeBuilder.run_append hrun hrun', ?_⟩
  · rw [hcalls', hcalls, List.append_assoc]
  · intro hnames hknown
    obtain ⟨hknown', halong, hpending⟩ := hfills hnames hknown
    obtain ⟨hknown'', halong', hpending'⟩ := hfills' hnames hknown'
    refine ⟨hknown'', (TypeBuilder.along_append hrun).mpr ⟨halong, halong'⟩, ?_⟩
    exact fun id hid => hpending' id (hpending id hid)

/-! ### Single callbacks -/

theorem visit_eq_some_iff {c : SinkCall} {w w' : WalkState} {handle : Option TypeId} :
    visit c w = some (handle, w') ↔
      ∃ builder, w.builder.call c = some (handle, builder) ∧
        w' = { w with builder, calls := w.calls ++ [c] } := by
  rw [visit, Option.bind_eq_bind, Option.bind_eq_some_iff]
  constructor
  · rintro ⟨⟨handle', builder⟩, hcall, h⟩
    cases h
    exact ⟨builder, hcall, rfl⟩
  · rintro ⟨builder, hcall, rfl⟩
    exact ⟨(handle, builder), hcall, rfl⟩

theorem mint_eq_some_iff {c : SinkCall} {w w' : WalkState} {id : TypeId} :
    mint c w = some (id, w') ↔ visit c w = some (some id, w') := by
  rw [mint, Option.bind_eq_bind, Option.bind_eq_some_iff]
  constructor
  · rintro ⟨⟨handle, middle⟩, hvisit, h⟩
    obtain ⟨id', hid, h⟩ := Option.bind_eq_some_iff.mp h
    cases h
    rw [hvisit, hid]
  · intro h
    exact ⟨(some id, w'), h, rfl⟩

/-- A state after one callback that does not fill what is not pending. -/
theorem walked_call {c : SinkCall} {handle : Option TypeId} {w w' : WalkState}
    (hcall : w.builder.call c = some (handle, w'.builder)) (hcalls : w'.calls = w.calls ++ [c])
    (h : sdk.DecodesApart → Known sdk w → Known sdk w' ∧ w.builder.FillsPending c ∧
      ∀ id ∈ w.builder.pending.map Prod.fst, id ∈ w'.builder.pending.map Prod.fst) :
    Walked sdk w w' := by
  refine ⟨[c], handle.toList ++ [], hcalls, ?_, fun hnames hknown => ?_⟩
  · exact TypeBuilder.run_cons_eq_some_iff.mpr ⟨handle, w'.builder, [], hcall, rfl, rfl⟩
  · obtain ⟨hknown', hfills, hpending⟩ := h hnames hknown
    refine ⟨hknown', ⟨hfills, ?_⟩, hpending⟩
    rw [hcall]
    trivial

def shares : SinkCall → Bool
  | .scalar .. | .ptr .. | .array .. | .func .. | .opaqueNamed _ => true
  | _ => false

theorem moves_mint {c : SinkCall} (hc : shares c = true) : Moves (Walked sdk) (mint c) := by
  intro w id w' h
  obtain ⟨builder, hcall, rfl⟩ := visit_eq_some_iff.mp (mint_eq_some_iff.mp h)
  have hsame : builder.name2type = w.builder.name2type ∧ builder.pending = w.builder.pending ∧
      w.builder.fills c = none := by
    cases c with
    | scalar kind bytes signed size hasSize =>
        simp only [TypeBuilder.call, TypeBuilder.scalar, Option.some.injEq, Prod.mk.injEq] at hcall
        obtain ⟨-, rfl⟩ := hcall
        split <;> exact ⟨rfl, rfl, rfl⟩
    | ptr | array | func | opaqueNamed =>
        cases hcall
        exact ⟨rfl, rfl, rfl⟩
    | _ => cases hc
  obtain ⟨hnames, hpending, hfills⟩ := hsame
  refine walked_call hcall rfl fun _ hknown => ⟨⟨?_, hknown.names, ?_⟩, ?_, ?_⟩
  · rw [hnames]
    exact hknown.named
  · exact TypeBuilder.holdsPlaceholders_call hknown.placeholders hcall
  · intro id data hfill
    rw [hfills] at hfill
    cases hfill
  · rw [hpending]
    exact fun _ hid => hid

/-! ### Handles minted and filled -/

theorem not_mem_pending (w : WalkState) (hknown : Known sdk w) :
    w.builder.table.len ∉ w.builder.pending.map Prod.fst := by
  intro hmem
  exact lt_irrefl _ (TypeTable.lt_len_of_get (hknown.placeholders _ hmem))

/-- What is pending stays so when another handle is reserved. -/
theorem mem_pending_reserve {w : WalkState} (hknown : Known sdk w) (name : Option Text)
    {id : TypeId} (hid : id ∈ w.builder.pending.map Prod.fst) :
    id ∈ (w.builder.reserve name).2.pending.map Prod.fst := by
  obtain ⟨p, hp, rfl⟩ := List.mem_map.mp hid
  refine List.mem_map_of_mem (List.mem_cons_of_mem _ (List.mem_filter.mpr ⟨hp, ?_⟩))
  refine bne_iff_ne.mpr fun heq => not_mem_pending w hknown ?_
  have heq : p.1 = w.builder.table.len := heq
  exact heq ▸ hid

theorem call_namedRef {b b' : TypeBuilder} {text : Text} {handle : Option TypeId}
    (h : b.call (.namedRef text) = some (handle, b')) :
    (∃ id, b.name2type.lookup text = some id ∧ b' = b) ∨
      b.name2type.lookup text = none ∧ handle = some b.table.len ∧
        b' = { (b.reserve (some text)).2 with
          name2type := (text, b.table.len) :: b.name2type } := by
  rw [TypeBuilder.call, TypeBuilder.namedRef] at h
  cases hfound : b.name2type.lookup text with
  | some id =>
      rw [hfound] at h
      cases h
      exact .inl ⟨id, rfl, rfl⟩
  | none =>
      rw [hfound] at h
      cases h
      exact .inr ⟨rfl, rfl, rfl⟩

/-- Minting a type's handle: on first sight the handle is new and pending. -/
theorem placeholder_walked {t : τ} {w w' : WalkState} {id : TypeId} {first : Bool}
    (h : placeholder sdk t w = some ((id, first), w')) :
    Walked sdk w w' ∧ (first = true → sdk.DecodesApart → Known sdk w →
      id ∈ w'.builder.pending.map Prod.fst ∧ id ∉ w.builder.pending.map Prod.fst) := by
  rw [placeholder] at h
  cases hname : typeName sdk t with
  | none =>
      rw [hname] at h
      obtain ⟨id', middle, hmint, h⟩ := bind_eq_some.mp h
      obtain ⟨heq, rfl⟩ := pure_eq_some.mp h
      obtain ⟨rfl, rfl⟩ := Prod.mk.inj heq
      obtain ⟨builder, hcall, rfl⟩ := visit_eq_some_iff.mp (mint_eq_some_iff.mp hmint)
      have hplaceholders := fun hknown : Known sdk w =>
        TypeBuilder.holdsPlaceholders_call hknown.placeholders hcall
      cases hcall
      constructor
      · refine walked_call rfl rfl fun _ hknown => ⟨?_, ?_, ?_⟩
        · exact ⟨hknown.named, hknown.names, hplaceholders hknown⟩
        · intro id data hfills
          cases hfills
        · exact fun i hi => mem_pending_reserve hknown none hi
      · exact fun _ _ hknown => ⟨List.mem_cons_self, not_mem_pending w hknown⟩
  | some nm =>
      rw [hname] at h
      obtain ⟨id', middle, hmint, h⟩ := bind_eq_some.mp h
      obtain ⟨w₁, w₂, hget, h⟩ := bind_eq_some.mp h
      cases hget
      obtain ⟨u, w₃, hset, h⟩ := bind_eq_some.mp h
      cases hset
      obtain ⟨heq, rfl⟩ := pure_eq_some.mp h
      obtain ⟨rfl, rfl⟩ := Prod.mk.inj heq
      obtain ⟨builder, hcall, rfl⟩ := visit_eq_some_iff.mp (mint_eq_some_iff.mp hmint)
      have hdeclared : sdk.getTypeName t = some nm := (Option.filter_eq_some_iff.mp hname).1
      -- The names seen behind the callback.
      have hmem : ∀ nm', (nm' ∈ if !w.defined.contains nm then nm :: w.defined else w.defined) ↔
          nm' = nm ∨ nm' ∈ w.defined := by
        intro nm'
        by_cases hseen : nm ∈ w.defined
        · simp only [List.contains_iff_mem.mpr hseen, Bool.not_true, Bool.false_eq_true, if_false]
          exact ⟨.inr, fun h => h.elim (fun heq => heq ▸ hseen) id⟩
        · simp [hseen]
      have hplaceholders := fun hknown : Known sdk w =>
        TypeBuilder.holdsPlaceholders_call hknown.placeholders hcall
      constructor
      · refine walked_call hcall rfl fun _ hknown => ⟨⟨?_, ?_, hplaceholders hknown⟩, ?_, ?_⟩
        · intro text i hi
          have hold (hi : w.builder.name2type.lookup text = some i) :
              ∃ nm' ∈ if !w.defined.contains nm then nm :: w.defined else w.defined,
                sdk.lossy nm' = text := by
            obtain ⟨nm', hnm', htext⟩ := hknown.named text i hi
            exact ⟨nm', (hmem nm').mpr (.inr hnm'), htext⟩
          rcases call_namedRef hcall with ⟨_, _, rfl⟩ | ⟨_, _, rfl⟩
          · exact hold hi
          · rw [List.lookup_cons] at hi
            split at hi
            next heq => exact ⟨nm, (hmem nm).mpr (.inl rfl), (beq_iff_eq.mp heq).symm⟩
            next => exact hold hi
        · intro nm' hnm'
          rcases (hmem nm').mp hnm' with rfl | hnm'
          · exact ⟨t, hdeclared⟩
          · exact hknown.names nm' hnm'
        · intro id data hfills
          cases hfills
        · intro i hi
          rcases call_namedRef hcall with ⟨_, _, rfl⟩ | ⟨_, _, rfl⟩
          · exact hi
          · exact mem_pending_reserve hknown _ hi
      · intro hfirst hapart hknown
        have hnew : nm ∉ w.defined := by simpa using hfirst
        rcases call_namedRef hcall with ⟨i, hfound, -⟩ | ⟨-, hid, rfl⟩
        · -- A known name decodes like one that was seen, so it was seen itself.
          obtain ⟨nm', hnm', htext⟩ := hknown.named _ i hfound
          obtain ⟨t', ht'⟩ := hknown.names nm' hnm'
          exact absurd (hapart t' t nm' nm ht' hdeclared htext ▸ hnm') hnew
        · cases hid
          exact ⟨List.mem_cons_self, not_mem_pending w hknown⟩

def target : SinkCall → Option TypeId
  | .fillStruct id .. | .fillEnum id .. | .fillTypedef id _ => some id
  | _ => none

theorem call_of_target {b b' : TypeBuilder} {c : SinkCall} {id : TypeId}
    {handle : Option TypeId} (hc : target c = some id) (h : b.call c = some (handle, b')) :
    b'.name2type = b.name2type ∧ b'.pending = (b.pending.filter fun p => p.1 != id) ∧
      ∀ i data, b.fills c = some (i, data) → i = id := by
  cases c with
  | fillStruct | fillEnum =>
      cases hc
      obtain ⟨b'', h, heq⟩ := Option.map_eq_some_iff.mp h
      obtain ⟨table, -, rfl⟩ := Option.map_eq_some_iff.mp h
      cases heq
      exact ⟨rfl, rfl, fun i data hfills => by cases hfills; rfl⟩
  | fillTypedef id' underlying =>
      cases hc
      obtain ⟨b'', h, heq⟩ := Option.map_eq_some_iff.mp h
      obtain ⟨size, -, h⟩ := Option.bind_eq_some_iff.mp h
      obtain ⟨table, -, rfl⟩ := Option.map_eq_some_iff.mp h
      cases heq
      refine ⟨rfl, rfl, fun i data hfills => ?_⟩
      obtain ⟨size', -, heq⟩ := Option.map_eq_some_iff.mp hfills
      cases heq
      rfl
  | _ => cases hc

/-- A type walked on first sight: the handle minted for it is still pending
when its body has been walked, and is filled then. -/
theorem moves_fillOnce {α : Type} {t : τ} {body : Walk α} {fill : TypeId → α → SinkCall}
    (hbody : Moves (Walked sdk) body) (hfill : ∀ id a, target (fill id a) = some id) :
    Moves (Walked sdk) (fillOnce sdk t body fill) := by
  intro w id w' h
  obtain ⟨⟨id', first⟩, w₁, hplaceholder, h⟩ := bind_eq_some.mp h
  obtain ⟨hminted, hfirst⟩ := placeholder_walked hplaceholder
  cases first with
  | false =>
      obtain ⟨-, rfl⟩ := pure_eq_some.mp h
      exact hminted
  | true =>
      obtain ⟨a, w₂, ha, h⟩ := bind_eq_some.mp h
      obtain ⟨handle, w₃, hvisit, h⟩ := bind_eq_some.mp h
      obtain ⟨-, rfl⟩ := pure_eq_some.mp h
      obtain ⟨builder, hcall, rfl⟩ := visit_eq_some_iff.mp hvisit
      obtain ⟨hnames, hpending, htarget⟩ := call_of_target (hfill id' a) hcall
      have hwalked := hbody w₁ a w₂ ha
      obtain ⟨calls, handles, hcalls, hrun, hkept⟩ := hminted.trans _ _ _ hwalked
      have hfillRun : w₂.builder.run [fill id' a] = some (handle.toList ++ [], builder) :=
        TypeBuilder.run_cons_eq_some_iff.mpr ⟨handle, builder, [], hcall, rfl, rfl⟩
      refine ⟨calls ++ [fill id' a], handles ++ (handle.toList ++ []), ?_,
        TypeBuilder.run_append hrun hfillRun, fun hapart hknown => ?_⟩
      · rw [hcalls, List.append_assoc]
      · obtain ⟨hknown₂, halong, hpending₂⟩ := hkept hapart hknown
        obtain ⟨hnew, hold⟩ := hfirst rfl hapart hknown
        -- The walk of the body fills only what it has reserved itself.
        have hstill : id' ∈ w₂.builder.pending.map Prod.fst := by
          obtain ⟨_, _, _, _, hkeptBody⟩ := hwalked
          obtain ⟨_, _, _, _, hkeptMint⟩ := hminted
          exact (hkeptBody hapart (hkeptMint hapart hknown).1).2.2 id' hnew
        refine ⟨⟨?_, hknown₂.names, ?_⟩, (TypeBuilder.along_append hrun).mpr ⟨halong, ?_⟩, ?_⟩
        · rw [hnames]
          exact hknown₂.named
        · exact TypeBuilder.holdsPlaceholders_call hknown₂.placeholders hcall
        · refine ⟨fun i data hfills => htarget i data hfills ▸ hstill, ?_⟩
          rw [hcall]
          trivial
        · intro i hi
          obtain ⟨p, hp, rfl⟩ := List.mem_map.mp (hpending₂ i hi)
          rw [hpending]
          refine List.mem_map_of_mem (List.mem_filter.mpr ⟨hp, bne_iff_ne.mpr ?_⟩)
          rintro rfl
          exact hold hi

/-! ### The whole walk -/

theorem moves_tyOpaque (t : τ) : Moves (Walked sdk) (tyOpaque sdk t) := by
  unfold tyOpaque
  split
  · exact moves_mint rfl
  · split <;> exact moves_mint rfl

theorem moves_tyBitfield (t : τ) : Moves (Walked sdk) (tyBitfield sdk t) := by
  unfold tyBitfield
  split
  · exact moves_mint rfl
  · exact moves_tyOpaque t

section

variable {recur : τ → Walk TypeId} (hrecur : ∀ t, Moves (Walked sdk) (recur t))
include hrecur

theorem moves_tyUdt (t : τ) (size hasSize : ℕ) :
    Moves (Walked sdk) (tyUdt sdk recur t size hasSize) := by
  refine moves_fillOnce ?_ fun _ _ => rfl
  refine Moves.mapM Walked.refl Walked.trans (fun m => ?_) _
  exact Moves.bind Walked.trans (hrecur m.type) fun ty => Moves.pure Walked.refl _

theorem moves_tyFunc (t : τ) : Moves (Walked sdk) (tyFunc sdk recur t) := by
  unfold tyFunc
  split
  · refine Moves.bind Walked.trans (hrecur _) fun ret => ?_
    refine Moves.bind Walked.trans (Moves.mapM Walked.refl Walked.trans hrecur _) ?_
    exact fun params => moves_mint rfl
  · exact Moves.bind Walked.trans (moves_mint rfl) fun ret => moves_mint rfl

omit hrecur in
theorem moves_tyEnum (t : τ) (size hasSize : ℕ) :
    Moves (Walked sdk) (tyEnum sdk t size hasSize) := by
  unfold tyEnum
  exact moves_fillOnce (moves_mint rfl) fun _ _ => rfl

theorem moves_tyResolved (t : τ) : Moves (Walked sdk) (tyResolved sdk recur t) := by
  rw [tyResolved]
  refine .ite (moves_tyOpaque t) (.ite ?ptr (.ite ?array (.ite (moves_tyFunc hrecur t)
    (.ite (moves_tyUdt hrecur t _ _) (.ite (moves_tyEnum t _ _) ?rest)))))
  case ptr => exact Moves.bind Walked.trans (hrecur _) fun id => moves_mint rfl
  case array => exact Moves.bind Walked.trans (hrecur _) fun id => moves_mint rfl
  case rest =>
    refine .ite (moves_mint rfl) (.ite (moves_mint rfl) (.ite (moves_mint rfl) ?_))
    exact .ite (moves_mint rfl) (.ite (moves_tyBitfield t) (moves_tyOpaque t))

theorem moves_tyWith (t : τ) : Moves (Walked sdk) (tyWith sdk recur t) := by
  unfold tyWith
  split
  · refine moves_fillOnce ?_ fun _ _ => rfl
    split
    · exact hrecur _
    · exact moves_tyResolved hrecur t
  · exact moves_tyResolved hrecur t

end

theorem moves_ty (fuel : ℕ) (t : τ) : Moves (Walked sdk) (ty sdk fuel t) := by
  induction fuel generalizing t with
  | zero => exact moves_none
  | succ fuel ih => exact moves_tyWith ih t

end Idakit.Facade
