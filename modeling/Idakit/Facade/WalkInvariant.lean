import Idakit.Facade.Environment

/-!
What holds of a builder while the types of an environment are walked into it.
A reference stands at a handle when the entries there are final and spell it
out down to the names; a name stands at the handle it was given, filled or
not. Every name that is no longer pending is filled with its definition, save
a typedef of an unnamed struct, union or enum: the body is looked for under the
typedef's own name, and the typedef is filled with itself.
-/

namespace Idakit.Types.TypeBuilder

def opened (b : TypeBuilder) : List TypeId := b.pending.map Prod.fst

/-- What a walk leaves alone: entries that are not pending and the handles of
names. A name seen later has a later handle. -/
structure Grows (b b' : TypeBuilder) : Prop where
  len_le : b.table.len ≤ b'.table.len
  settled : ∀ id value, id ∉ b.opened → b.table.get id = some value →
    id ∉ b'.opened ∧ b'.table.get id = some value
  named : ∀ n id, b.name2type.lookup n = some id → b'.name2type.lookup n = some id
  fresh : ∀ n id, b'.name2type.lookup n = some id →
    b.name2type.lookup n = some id ∨ b.table.len ≤ id

theorem Grows.refl (b : TypeBuilder) : Grows b b :=
  ⟨le_rfl, fun _ _ hid hget => ⟨hid, hget⟩, fun _ _ h => h, fun _ _ h => .inl h⟩

theorem Grows.trans {b b' b'' : TypeBuilder} (h : Grows b b') (h' : Grows b' b'') :
    Grows b b'' where
  len_le := h.len_le.trans h'.len_le
  settled id value hid hget := by
    obtain ⟨hid', hget'⟩ := h.settled id value hid hget
    exact h'.settled id value hid' hget'
  named n id hn := h'.named n id (h.named n id hn)
  fresh n id hn := by
    rcases h'.fresh n id hn with hn | hle
    · exact h.fresh n id hn
    · exact .inr (h.len_le.trans hle)

def reserved (b : TypeBuilder) (name : Option Text) : TypeBuilder :=
  { (b.reserve name).2 with
    name2type := (name.map fun n => (n, b.table.len)).toList ++ b.name2type }

theorem lookup_reserved {b : TypeBuilder} {name : Option Text}
    (hnew : ∀ n ∈ name, b.name2type.lookup n = none) (n : Text) (id : TypeId) :
    (b.reserved name).name2type.lookup n = some id ↔
      n ∈ name ∧ id = b.table.len ∨ b.name2type.lookup n = some id := by
  cases name with
  | none => simp [reserved, reserve]
  | some m =>
      have hnew := hnew m rfl
      show ((m, b.table.len) :: b.name2type).lookup n = some id ↔ _
      rw [List.lookup_cons]
      by_cases heq : n = m
      · subst heq
        simp [hnew, eq_comm]
      · rw [beq_eq_false_iff_ne.mpr heq]
        simp [Ne.symm heq]

theorem pending_reserved {b : TypeBuilder} (name : Option Text)
    (hnew : b.table.len ∉ b.opened) :
    (b.reserved name).pending = (b.table.len, name) :: b.pending := by
  show (b.table.len, name) :: b.pending.filter (fun p => p.1 != b.table.len) = _
  rw [List.filter_eq_self.mpr]
  intro p hp
  refine bne_iff_ne.mpr ?_
  rintro heq
  exact hnew (heq ▸ List.mem_map_of_mem hp)

/-- A fill of a handle in range is carried out. -/
theorem call_of_fills {b : TypeBuilder} {c : SinkCall} {id : TypeId} {data : TypeValue}
    (hfills : b.fills c = some (id, data)) (hid : id < b.table.len) :
    ∃ table, b.table.fill id data = some table ∧
      b.call c = some (none, { b with
        table, pending := b.pending.filter fun p => p.1 != id }) := by
  refine ⟨_, TypeTable.fill_eq_some_iff.mpr ⟨hid, rfl⟩, ?_⟩
  cases c with
  | fillStruct id' isUnion members size hasSize | fillEnum id' underlying consts size hasSize =>
      cases hfills
      simp [call, fillStruct, fillEnum, takeName, fill, TypeTable.fill, hid]
  | fillTypedef id' underlying =>
      obtain ⟨size, hsize, heq⟩ := Option.map_eq_some_iff.mp hfills
      cases heq
      have hsize' : typeSize { b with pending := b.pending.filter fun p => p.1 != id } underlying =
          some size := hsize
      simp [call, fillTypedef, takeName, fill, TypeTable.fill, hid, hsize']
  | _ => cases hfills

end Idakit.Types.TypeBuilder

namespace Idakit.Facade

open Idakit.Library Idakit.Types

namespace Environment

variable {env : Environment} {b b' : TypeBuilder} {t : TypeRef} {id : TypeId} {n : Text}

/-- The environment's references laid out in a table under construction, down
to names only. -/
def inProgress (env : Environment) (b : TypeBuilder) : Presentation TypeRef TypeId where
  children
    | .named _ => []
    | t => env.children t
  holds
    | .named n, id, _ => b.name2type.lookup n = some id
    | t, id, ids => id ∉ b.opened ∧ (env.layout b.table).holds t id ids

def Stands (env : Environment) (b : TypeBuilder) : TypeRef → TypeId → Prop :=
  (env.inProgress b).Unfolds

theorem stands_named_iff : env.Stands b (.named n) id ↔ b.name2type.lookup n = some id := by
  rw [Stands, Presentation.unfolds_iff]
  constructor
  · rintro ⟨ids, hholds, -⟩
    exact hholds
  · exact fun h => ⟨[], h, .nil⟩

theorem stands_iff (ht : ∀ n, t ≠ .named n) :
    env.Stands b t id ↔ id ∉ b.opened ∧ (env.layout b.table).Level (env.Stands b) t id := by
  have hlevel : (env.inProgress b).Level (env.Stands b) t id ↔
      id ∉ b.opened ∧ (env.layout b.table).Level (env.Stands b) t id := by
    cases t with
    | named n => exact absurd rfl (ht n)
    | _ =>
        constructor
        · rintro ⟨ids, ⟨hid, hholds⟩, hall⟩
          exact ⟨hid, ids, hholds, hall⟩
        · rintro ⟨hid, ids, hholds, hall⟩
          exact ⟨ids, ⟨hid, hholds⟩, hall⟩
  exact Presentation.unfolds_iff.trans hlevel

theorem Stands.grows (h : env.Stands b t id) (hgrows : b.Grows b') : env.Stands b' t id := by
  have hholds (t : TypeRef) (id : TypeId) (ids : List TypeId)
      (hholds : (env.inProgress b).holds t id ids) : (env.inProgress b').holds t id ids := by
    cases t with
    | named n => exact hgrows.named n id hholds
    | _ =>
        obtain ⟨hid, value, hget, hshape⟩ := hholds
        obtain ⟨hid', hget'⟩ := hgrows.settled id value hid hget
        exact ⟨hid', value, hget', hshape⟩
  have hchildren : (env.inProgress b').children = (env.inProgress b).children := rfl
  exact Presentation.Unfolds.of_le hchildren hholds h

/-- A reference to a typedef whose target is an unnamed struct, union or
enum. -/
def AliasesBody (env : Environment) (t : TypeRef) : Prop :=
  ∃ n body, t = .named n ∧ env.definition n = some (.typedef (.anonymous body))

/-- The size that the kernel gives for the entry of a reference. A typedef of a
name copies the size that the name's entry has, and one of an unnamed struct,
union or enum its own. -/
inductive EntrySize (env : Environment) : TypeRef → Option ℕ → Prop
  | plain {t size} (ht : ∀ n, t ≠ .named n) (hsize : t.givenSize = size) : EntrySize env t size
  | type {n body size} (hn : env.definition n = some (.type body))
      (hsize : (TypeRef.anonymous body).givenSize = size) : EntrySize env (.named n) size
  | typedef {n t size} (hn : env.definition n = some (.typedef t)) (ht : ∀ m, t ≠ .named m)
      (hbody : ∀ body, t ≠ .anonymous body) (hsize : t.givenSize = size) :
      EntrySize env (.named n) size

theorem not_entrySize_of_named {m : Text} (hn : env.definition n = some (.typedef (.named m)))
    (size : Option ℕ) : ¬env.EntrySize (.named n) size := by
  rintro (⟨ht, -⟩ | ⟨hn', -⟩ | ⟨hn', ht, -, -⟩)
  · exact ht n rfl
  · rw [hn] at hn'
    cases hn'
  · rw [hn] at hn'
    cases hn'
    exact ht m rfl

theorem not_entrySize_of_body {body : Body TypeRef}
    (hn : env.definition n = some (.typedef (.anonymous body))) (size : Option ℕ) :
    ¬env.EntrySize (.named n) size := by
  rintro (⟨ht, -⟩ | ⟨hn', -⟩ | ⟨hn', -, hbody, -⟩)
  · exact ht n rfl
  · rw [hn] at hn'
    cases hn'
  · rw [hn] at hn'
    cases hn'
    exact hbody body rfl

theorem entrySize_of_plain (hn : env.definition n = some (.typedef t)) {size : Option ℕ}
    (hsize : env.EntrySize (.named n) size) : t.givenSize = size := by
  rcases hsize with ⟨ht, -⟩ | ⟨hn', -⟩ | ⟨hn', -, -, hsize⟩
  · exact absurd rfl (ht n)
  · rw [hn] at hn'
    cases hn'
  · rw [hn] at hn'
    cases hn'
    exact hsize

structure Filled (env : Environment) (b : TypeBuilder) (n : Text) (id : TypeId) : Prop where
  aliased : env.AliasesBody (.named n) → ∃ size, b.table.get id = some ⟨.typedef n id, size⟩
  laid : ¬env.AliasesBody (.named n) →
    (env.layout b.table).Level (env.Stands b) (.named n) id
  sized : ∀ size, env.EntrySize (.named n) size →
    ∃ value, b.table.get id = some value ∧ value.size = size

theorem Filled.grows (h : env.Filled b n id) (hid : id ∉ b.opened) (hgrows : b.Grows b') :
    env.Filled b' n id where
  aliased hbody := by
    obtain ⟨size, hget⟩ := h.aliased hbody
    exact ⟨size, (hgrows.settled id _ hid hget).2⟩
  laid hbody := by
    obtain ⟨ids, ⟨value, hget, hshape⟩, hall⟩ := h.laid hbody
    refine ⟨ids, ⟨value, (hgrows.settled id value hid hget).2, hshape⟩, ?_⟩
    exact hall.imp fun t id hstands => Stands.grows hstands hgrows
  sized size hsize := by
    obtain ⟨value, hget, hvalue⟩ := h.sized size hsize
    exact ⟨value, (hgrows.settled id value hid hget).2, hvalue⟩

end Environment

/-! ### The invariant -/

/-- What holds of a walk that meets no references but those in `met`. -/
structure Inv (env : Environment) (met : TypeRef → Prop) (w : WalkState) : Prop where
  seen : ∀ n : Text, n.asBytes ∈ w.defined ↔ ∃ id, w.builder.name2type.lookup n = some id
  reached : ∀ n id, w.builder.name2type.lookup n = some id → met (.named n)
  apart : ∀ n m id, w.builder.name2type.lookup n = some id →
    w.builder.name2type.lookup m = some id → n = m
  named_lt : ∀ n id, w.builder.name2type.lookup n = some id → id < w.builder.table.len
  sound : TypeTable.Sound w.builder.opened w.builder.table
  narrow : w.builder.tooWide = none
  filled : ∀ n id, w.builder.name2type.lookup n = some id → id ∉ w.builder.opened →
    env.Filled w.builder n id

variable {env : Environment} {met : TypeRef → Prop} {t : TypeRef} {w w' : WalkState} {id : TypeId}
  {n : Text}

theorem inv_start : Inv env met .start where
  seen := by simp [WalkState.start, TypeBuilder.new]
  reached := by simp [WalkState.start, TypeBuilder.new]
  apart := by simp [WalkState.start, TypeBuilder.new]
  named_lt := by simp [WalkState.start, TypeBuilder.new]
  sound := TypeTable.sound_new
  narrow := rfl
  filled := by simp [WalkState.start, TypeBuilder.new]

theorem Inv.stands_lt (h : Inv env met w) (hstands : env.Stands w.builder t id) :
    id < w.builder.table.len := by
  by_cases ht : ∃ n, t = .named n
  · obtain ⟨n, rfl⟩ := ht
    exact h.named_lt n id (Environment.stands_named_iff.mp hstands)
  · obtain ⟨-, ids, ⟨value, hget, -⟩, -⟩ :=
      (Environment.stands_iff fun n hn => ht ⟨n, hn⟩).mp hstands
    exact TypeTable.lt_len_of_get hget

theorem Inv.len_notMem_opened (h : Inv env met w) :
    w.builder.table.len ∉ w.builder.opened :=
  fun hmem => lt_irrefl _ (h.sound.opened_lt _ hmem)

/-- The walk goes on and leaves what is pending as it was. -/
structure Onward (w w' : WalkState) : Prop where
  grows : w.builder.Grows w'.builder
  pending_eq : w'.builder.pending = w.builder.pending

theorem Onward.refl (w : WalkState) : Onward w w := ⟨.refl _, rfl⟩

theorem Onward.trans {w w' w'' : WalkState} (h : Onward w w') (h' : Onward w' w'') :
    Onward w w'' :=
  ⟨h.grows.trans h'.grows, h'.pending_eq.trans h.pending_eq⟩

/-! ### Names on the way -/

structure Content (env : Environment) (b : TypeBuilder) (t : TypeRef) (id : TypeId)
    (data : TypeValue) : Prop where
  aliased : env.AliasesBody t → ∃ n, t = .named n ∧ data.shape = .typedef n id
  laid : ¬env.AliasesBody t → ∃ ids, data.shape = env.shape t ids ∧
    List.Forall₂ (env.Stands b) (env.children t) ids
  sized : ∀ size, env.EntrySize t size → data.size = size

def WalkState.filled (w : WalkState) (id : TypeId) (table : TypeTable) (calls : List SinkCall) :
    WalkState :=
  ⟨{ w.builder with table, pending := w.builder.pending.filter fun p => p.1 != id }, w.defined,
    calls⟩

/-- The walk passes over names in this order. A name not seen before is passed
over by minting its handle, passing over the names that its definition
mentions, and filling the handle. -/
inductive Passes (env : Environment) (met : TypeRef → Prop) :
    List Text → WalkState → WalkState → Prop
  | still {w : WalkState} (calls : List SinkCall) : Passes env met [] w { w with calls }
  | share {w : WalkState} {data : TypeValue} (calls : List SinkCall) (hinv : Inv env met w)
      (hdata : data.shape.isTypedef = false) :
      Passes env met [] w
        { w with builder := { w.builder with table := (w.builder.table.intern data).2 }, calls }
  | seen {w : WalkState} {n : Text} {id : TypeId} (calls : List SinkCall)
      (hn : w.builder.name2type.lookup n = some id) : Passes env met [n] w { w with calls }
  | append {ns ms : List Text} {w w' w'' : WalkState} (h : Passes env met ns w w')
      (honward : Onward w w') (h' : Passes env met ms w' w'') : Passes env met (ns ++ ms) w w''
  | named {n : Text} {w w₂ : WalkState} {c : SinkCall} {data : TypeValue} {table : TypeTable}
      (calls calls' : List SinkCall) (hmem : n ∈ env.names) (hinv : Inv env met w)
      (hnew : w.builder.name2type.lookup n = none)
      (hbody : Passes env met (env.nextNames n)
        ⟨w.builder.reserved (some n), n.asBytes :: w.defined, calls⟩ w₂)
      (honward : Onward ⟨w.builder.reserved (some n), n.asBytes :: w.defined, calls⟩ w₂)
      (hinv₂ : Inv env met w₂) (hfills : w₂.builder.fills c = some (w.builder.table.len, data))
      (hcontent : Content env w₂.builder (.named n) w.builder.table.len data)
      (hfill : w₂.builder.table.fill w.builder.table.len data = some table) :
      Passes env met [n] w (w₂.filled w.builder.table.len table calls')
  | unnamed {ns : List Text} {w w₂ : WalkState} {data : TypeValue} {table : TypeTable}
      (calls calls' : List SinkCall) (hinv : Inv env met w)
      (hbody : Passes env met ns ⟨w.builder.reserved none, w.defined, calls⟩ w₂)
      (honward : Onward ⟨w.builder.reserved none, w.defined, calls⟩ w₂)
      (hinv₂ : Inv env met w₂) (hdata : data.shape.isTypedef = false)
      (hfill : w₂.builder.table.fill w.builder.table.len data = some table) :
      Passes env met ns w (w₂.filled w.builder.table.len table calls')

structure Went (env : Environment) (met : TypeRef → Prop) (ns : List Text)
    (w w' : WalkState) : Prop extends Onward w w' where
  passes : Passes env met ns w w'

theorem Went.still (calls : List SinkCall) : Went env met [] w { w with calls } :=
  ⟨⟨.refl _, rfl⟩, .still calls⟩

theorem Went.refl (w : WalkState) : Went env met [] w w := Went.still w.calls

theorem Went.seen (hn : w.builder.name2type.lookup n = some id) (calls : List SinkCall) :
    Went env met [n] w { w with calls } :=
  ⟨⟨.refl _, rfl⟩, .seen calls hn⟩

theorem Went.trans {ns ms : List Text} {w'' : WalkState} (h : Went env met ns w w')
    (h' : Went env met ms w' w'') : Went env met (ns ++ ms) w w'' :=
  ⟨h.toOnward.trans h'.toOnward, .append h.passes h.toOnward h'.passes⟩

/-- The outcome of a walk of `t` over names: the invariant, and a handle that
`t` stands at. -/
structure Stood (env : Environment) (met : TypeRef → Prop) (ns : List Text) (w : WalkState)
    (t : TypeRef) (id : TypeId) (w' : WalkState) : Prop where
  inv : Inv env met w'
  went : Went env met ns w w'
  stands : env.Stands w'.builder t id
  sized : (∀ n, t ≠ .named n) → ∃ value, w'.builder.table.get id = some value ∧
    value.size = t.givenSize

theorem Stood.after {ns : List Text} (h : Went env met ns w w') {w'' : WalkState}
    (h' : Stood env met [] w' t id w'') : Stood env met ns w t id w'' where
  inv := h'.inv
  went := by
    have hwent := h.trans h'.went
    rwa [List.append_nil] at hwent
  stands := h'.stands
  sized := h'.sized

theorem Stood.of_seen {calls : List SinkCall} (h : Inv env met { w with calls })
    (hn : w.builder.name2type.lookup n = some id) :
    Stood env met [n] w (.named n) id { w with calls } where
  inv := h
  went := .seen hn calls
  stands := Environment.stands_named_iff.mpr hn
  sized ht := absurd rfl (ht n)

/-! ### Shared values -/

theorem grows_intern (h : Inv env met w) (data : TypeValue) :
    w.builder.Grows { w.builder with table := (w.builder.table.intern data).2 } := by
  obtain ⟨-, hgrows, -, -⟩ := h.sound.intern data
  refine ⟨hgrows.len_le, fun id value hid hget => ⟨hid, ?_⟩, fun _ _ hn => hn, fun _ _ => .inl⟩
  exact (hgrows.get_eq id (TypeTable.lt_len_of_get hget)).trans hget

theorem Inv.intern (h : Inv env met w) (data : TypeValue) (calls : List SinkCall) :
    Inv env met { w with
      builder := { w.builder with table := (w.builder.table.intern data).2 }, calls } where
  seen := h.seen
  reached := h.reached
  apart := h.apart
  named_lt n id hn := (h.named_lt n id hn).trans_le (grows_intern h data).len_le
  sound := (h.sound.intern data).1
  narrow := h.narrow
  filled n id hn hid := (h.filled n id hn hid).grows hid (grows_intern h data)

/-- Only a name's entry is a typedef. -/
theorem isTypedef_shape (ht : ∀ n, t ≠ .named n) (ids : List TypeId) :
    (env.shape t ids).isTypedef = false := by
  cases t with
  | named n => exact absurd rfl (ht n)
  | anonymous body =>
      cases body with
      | record isUnion members size => cases isUnion <;> rfl
      | enumeration e => rfl
  | _ => rfl

/-- A callback that shares a value of the right shape. -/
theorem completes_share (h : Inv env met w) {c : SinkCall} {data : TypeValue}
    {ids : List TypeId} (ht : ∀ n, t ≠ .named n)
    (hcall : w.builder.call c = some (some (w.builder.table.intern data).1,
      { w.builder with table := (w.builder.table.intern data).2 }))
    (hshape : data.shape = env.shape t ids)
    (hall : List.Forall₂ (env.Stands w.builder) (env.children t) ids) :
    Completes (fun _ => mint c) w fun id w' => Inv env met w' ∧ Went env met [] w w' ∧
      env.Stands w'.builder t id ∧ w'.builder.table.get id = some data := by
  obtain ⟨-, -, hget, hid⟩ := h.sound.intern data
  have hvisit := mint_eq_some_iff.mpr (visit_eq_some_iff.mpr ⟨_, hcall, rfl⟩)
  have hpasses := Passes.share (w.calls ++ [c]) h (hshape ▸ isTypedef_shape ht ids)
  refine Completes.of_eq hvisit ⟨h.intern data _, ⟨⟨grows_intern h data, rfl⟩, hpasses⟩, ?_, hget⟩
  refine (Environment.stands_iff ht).mpr ⟨hid, ids, ⟨data, hget, hshape⟩, ?_⟩
  exact hall.imp fun _ _ hstands => Environment.Stands.grows hstands (grows_intern h data)

/-- So it does where the value has the size that the kernel gives. -/
theorem completes_mint (h : Inv env met w) {c : SinkCall} {data : TypeValue}
    {ids : List TypeId} (ht : ∀ n, t ≠ .named n)
    (hcall : w.builder.call c = some (some (w.builder.table.intern data).1,
      { w.builder with table := (w.builder.table.intern data).2 }))
    (hshape : data.shape = env.shape t ids) (hsize : data.size = t.givenSize)
    (hall : List.Forall₂ (env.Stands w.builder) (env.children t) ids) :
    Completes (fun _ => mint c) w (Stood env met [] w t) := by
  refine (completes_share h ht hcall hshape hall).imp ?_
  rintro id w' ⟨hinv, hwent, hstands, hget⟩
  exact ⟨hinv, hwent, hstands, fun _ => ⟨data, hget, hsize⟩⟩

/-! ### Reserved handles -/

theorem grows_reserved (h : Inv env met w) {tag : Option Text}
    (hnew : ∀ n ∈ tag, w.builder.name2type.lookup n = none) :
    w.builder.Grows (w.builder.reserved tag) where
  len_le := by
    show _ ≤ (w.builder.table.alloc _).2.len
    rw [TypeTable.alloc_len]
    exact Nat.le_succ _
  settled id value hid hget := by
    have hlt := TypeTable.lt_len_of_get hget
    refine ⟨?_, (TypeTable.get_alloc_of_lt _ hlt).trans hget⟩
    rw [TypeBuilder.opened, TypeBuilder.pending_reserved tag h.len_notMem_opened]
    exact List.not_mem_cons_of_ne_of_not_mem hlt.ne hid
  named n id hn := (TypeBuilder.lookup_reserved hnew n id).mpr (.inr hn)
  fresh n id hn := by
    rcases (TypeBuilder.lookup_reserved hnew n id).mp hn with ⟨-, rfl⟩ | hn
    · exact .inr le_rfl
    · exact .inl hn

theorem opened_reserved (h : Inv env met w) (tag : Option Text) :
    (w.builder.reserved tag).opened = w.builder.table.len :: w.builder.opened := by
  rw [TypeBuilder.opened, TypeBuilder.pending_reserved tag h.len_notMem_opened]
  rfl

section

variable {defined : List Name} {calls : List SinkCall} {tag : Option Text} {w₂ : WalkState}
  (honward : Onward ⟨w.builder.reserved tag, defined, calls⟩ w₂) (h : Inv env met w)
include honward h

/-- A handle just reserved stays open while the walk goes on. -/
theorem Onward.mem_opened : w.builder.table.len ∈ w₂.builder.opened := by
  have hopened : w₂.builder.opened = (w.builder.reserved tag).opened :=
    congrArg (List.map Prod.fst) honward.pending_eq
  rw [hopened, opened_reserved h]
  exact List.mem_cons_self

/-- It is the handle of no other name than its own. -/
theorem Onward.lookup_handle_iff (hnew : ∀ n ∈ tag, w.builder.name2type.lookup n = none)
    (n : Text) : w₂.builder.name2type.lookup n = some w.builder.table.len ↔ n ∈ tag := by
  have hlookup := TypeBuilder.lookup_reserved hnew
  constructor
  · intro hn
    rcases honward.grows.fresh n _ hn with hn | hle
    · rcases (hlookup n _).mp hn with ⟨hn, -⟩ | hn
      · exact hn
      · exact absurd (h.named_lt n _ hn) (lt_irrefl _)
    · have hlen : (w.builder.reserved tag).table.len = w.builder.table.len + 1 :=
        TypeTable.alloc_len _
      have hle : (w.builder.reserved tag).table.len ≤ w.builder.table.len := hle
      omega
  · exact fun hn => honward.grows.named n _ ((hlookup n _).mpr (.inl ⟨hn, rfl⟩))

end

theorem Inv.reserved (h : Inv env met w) (hlossy : ∃ lossy, DecodesUtf8 lossy)
    {tag : Option Text} (hnew : ∀ n ∈ tag, w.builder.name2type.lookup n = none)
    (hreach : ∀ n ∈ tag, met (.named n)) (calls : List SinkCall) :
    Inv env met
      ⟨w.builder.reserved tag, (tag.map Text.asBytes).toList ++ w.defined, calls⟩ := by
  obtain ⟨lossy, hlossy⟩ := hlossy
  have hlookup := TypeBuilder.lookup_reserved hnew
  have hgrows := grows_reserved h hnew
  have hpending := TypeBuilder.pending_reserved tag h.len_notMem_opened
  constructor
  case seen =>
    intro n
    have hbytes : n.asBytes ∈ (tag.map Text.asBytes).toList ↔ n ∈ tag := by
      cases tag with
      | none => simp
      | some m => simpa using ⟨fun heq => (hlossy.injective heq).symm, fun heq => heq ▸ rfl⟩
    rw [List.mem_append, hbytes, h.seen n]
    simp only [hlookup, exists_or, exists_and_left, exists_eq, and_true]
  case reached =>
    intro n id hn
    rcases (hlookup n id).mp hn with ⟨hn, -⟩ | hn
    · exact hreach n hn
    · exact h.reached n id hn
  case apart =>
    intro n m id hn hm
    rcases (hlookup n id).mp hn with ⟨htag, rfl⟩ | hn
    · rcases (hlookup m _).mp hm with ⟨htag', -⟩ | hm
      · exact Option.mem_unique htag htag'
      · exact absurd (h.named_lt m _ hm) (lt_irrefl _)
    · rcases (hlookup m _).mp hm with ⟨-, rfl⟩ | hm
      · exact absurd (h.named_lt n _ hn) (lt_irrefl _)
      · exact h.apart n m id hn hm
  case named_lt =>
    intro n id hn
    rcases (hlookup n id).mp hn with ⟨-, rfl⟩ | hn
    · show _ < (w.builder.table.alloc _).2.len
      rw [TypeTable.alloc_len]
      exact Nat.lt_succ_self _
    · exact (h.named_lt n id hn).trans_le hgrows.len_le
  case sound =>
    show TypeTable.Sound (w.builder.reserved tag).opened _
    rw [TypeBuilder.opened, hpending]
    exact h.sound.alloc _
  case narrow => exact h.narrow
  case filled =>
    intro n id hn hid
    rw [TypeBuilder.opened, hpending, List.map_cons, List.mem_cons, not_or] at hid
    rcases (hlookup n id).mp hn with ⟨-, rfl⟩ | hn
    · exact absurd rfl hid.1
    · exact (h.filled n id hn hid.2).grows hid.2 hgrows

/-! ### Filled handles -/

def Fills (env : Environment) (b : TypeBuilder) (c : SinkCall) (t : TypeRef) (id : TypeId) :
    Prop :=
  ∃ data, b.fills c = some (id, data) ∧ Content env b t id data

@[simp] theorem mem_opened_filled {table : TypeTable} {calls : List SinkCall} {i : TypeId} :
    i ∈ (w.filled id table calls).builder.opened ↔ i ∈ w.builder.opened ∧ i ≠ id := by
  simp only [WalkState.filled, TypeBuilder.opened, List.mem_map, List.mem_filter, bne_iff_ne]
  constructor
  · rintro ⟨p, ⟨hp, hne⟩, rfl⟩
    exact ⟨⟨p, hp, rfl⟩, hne⟩
  · rintro ⟨⟨p, hp, rfl⟩, hne⟩
    exact ⟨p, ⟨hp, hne⟩, rfl⟩

theorem grows_filled {data : TypeValue} {table : TypeTable} (hopen : id ∈ w.builder.opened)
    (hfill : w.builder.table.fill id data = some table) (calls : List SinkCall) :
    w.builder.Grows (w.filled id table calls).builder where
  len_le := (TypeTable.fill_len hfill).ge
  settled i value hi hvalue := by
    refine ⟨fun hmem => hi (mem_opened_filled.mp hmem).1, ?_⟩
    refine (TypeTable.get_fill_of_ne hfill ?_).trans hvalue
    rintro rfl
    exact hi hopen
  named _ _ hn := hn
  fresh _ _ := .inl

theorem Inv.fill (h : Inv env met w) {c : SinkCall} {data : TypeValue}
    (hfills : w.builder.fills c = some (id, data)) (hopen : id ∈ w.builder.opened)
    (hname : ∀ n, w.builder.name2type.lookup n = some id →
      Content env w.builder (.named n) id data) :
    ∃ table, w.builder.table.fill id data = some table ∧
      w.builder.call c = some (none, (w.filled id table []).builder) ∧
      ∀ calls, Inv env met (w.filled id table calls) := by
  obtain ⟨table, hfill, hcall⟩ := TypeBuilder.call_of_fills hfills (h.sound.opened_lt id hopen)
  have hget := TypeTable.get_fill_self hfill
  have hgrows := grows_filled hopen hfill []
  refine ⟨table, hfill, hcall, fun calls => ?_⟩
  constructor
  case seen => exact h.seen
  case reached => exact h.reached
  case apart => exact h.apart
  case named_lt => exact fun n i hn => (h.named_lt n i hn).trans_le hgrows.len_le
  case sound => exact (h.sound.fill hopen hfill).mono fun i hi => (mem_opened_filled.mp hi).1
  case narrow => exact h.narrow
  case filled =>
    intro n i hn hi
    -- The entry of a name is the one that is filled, or was filled before and only grows.
    by_cases heq : i = id
    · subst heq
      have hcontent := hname n hn
      constructor
      case aliased =>
        intro halias
        obtain ⟨m, hm, hshape⟩ := hcontent.aliased halias
        cases hm
        obtain ⟨shape, size⟩ := data
        cases hshape
        exact ⟨size, hget⟩
      case laid =>
        intro halias
        obtain ⟨ids, hshape, hall⟩ := hcontent.laid halias
        refine ⟨ids, ⟨_, hget, hshape⟩, ?_⟩
        exact hall.imp fun _ _ hstands => Environment.Stands.grows hstands hgrows
      case sized => exact fun size hsize => ⟨data, hget, hcontent.sized size hsize⟩
    · have hclosed : i ∉ w.builder.opened := fun hopen' => hi (mem_opened_filled.mpr ⟨hopen', heq⟩)
      exact (h.filled n i hn hclosed).grows hclosed hgrows

/-! ### Types walked on first sight -/

section

variable {sdk : Sdk TypeRef} {d : TypeRef} {tag : Option Text}

theorem fillOnce_eq {α : Type} (body : Walk α) (fill : TypeId → α → SinkCall) :
    fillOnce sdk d body fill = placeholder sdk d >>= fun p =>
      if p.2 then body >>= fun a => visit (fill p.1 a) >>= fun _ => pure p.1 else pure p.1 :=
  rfl

theorem placeholder_seen (h : Inv env met w) (hlossy : DecodesUtf8 sdk.lossy)
    (hname : typeName sdk d = some n.asBytes) (hn : w.builder.name2type.lookup n = some id) :
    placeholder sdk d w =
      some ((id, false), { w with calls := w.calls ++ [.namedRef n] }) := by
  have hcall : w.builder.call (.namedRef (sdk.lossy n.asBytes)) = some (some id, w.builder) := by
    rw [hlossy n, TypeBuilder.call, TypeBuilder.namedRef, hn]
  have hdefined : w.defined.contains n.asBytes = true :=
    List.contains_iff_mem.mpr ((h.seen n).mpr ⟨id, hn⟩)
  rw [placeholder, hname]
  show (mint (.namedRef (sdk.lossy n.asBytes)) >>= _) w = _
  rw [bind_of_eq_some (mint_eq_some_iff.mpr (visit_eq_some_iff.mpr ⟨_, hcall, rfl⟩))]
  show some ((id, !w.defined.contains n.asBytes), WalkState.mk _ _ _) = _
  rw [hdefined, hlossy n]
  rfl

theorem placeholder_new (h : Inv env met w) (hlossy : DecodesUtf8 sdk.lossy)
    (hname : typeName sdk d = tag.map Text.asBytes)
    (hnew : ∀ n ∈ tag, w.builder.name2type.lookup n = none) :
    ∃ calls, placeholder sdk d w = some ((w.builder.table.len, true),
      ⟨w.builder.reserved tag, (tag.map Text.asBytes).toList ++ w.defined, calls⟩) := by
  rw [placeholder, hname]
  cases tag with
  | none => exact ⟨_, rfl⟩
  | some n =>
      have hcall : w.builder.call (.namedRef (sdk.lossy n.asBytes)) =
          some (some w.builder.table.len, w.builder.reserved (some n)) := by
        rw [hlossy n, TypeBuilder.call, TypeBuilder.namedRef, hnew n rfl]
        rfl
      have hdefined : w.defined.contains n.asBytes = false := by
        rw [Bool.eq_false_iff]
        intro hmem
        obtain ⟨id, hid⟩ := (h.seen n).mp (List.contains_iff_mem.mp hmem)
        rw [hnew n rfl] at hid
        cases hid
      refine ⟨w.calls ++ [.namedRef (sdk.lossy n.asBytes)], ?_⟩
      show (mint (.namedRef (sdk.lossy n.asBytes)) >>= _) w = _
      rw [bind_of_eq_some (mint_eq_some_iff.mpr (visit_eq_some_iff.mpr ⟨_, hcall, rfl⟩))]
      show some ((_, !w.defined.contains n.asBytes), WalkState.mk _ _ _) = _
      rw [hdefined]
      rfl

/-- A name seen before stands at the handle it has. -/
theorem completes_fillOnce_seen {α : Type} {body : ℕ → Walk α} {fill : TypeId → α → SinkCall}
    (h : Inv env met w) (hlossy : DecodesUtf8 sdk.lossy)
    (hname : typeName sdk d = some n.asBytes) (hn : w.builder.name2type.lookup n = some id) :
    Completes (fun fuel => fillOnce sdk d (body fuel) fill) w
      fun id' w' => Inv env met w' ∧ (∃ calls, w' = { w with calls }) ∧ id' = id := by
  simp only [fillOnce_eq]
  have hplaceholder := placeholder_seen h hlossy hname hn
  have hinv : Inv env met { w with calls := w.calls ++ [.namedRef n] } :=
    ⟨h.seen, h.reached, h.apart, h.named_lt, h.sound, h.narrow, h.filled⟩
  exact Completes.bind_of_eq hplaceholder (Completes.pure ⟨hinv, ⟨_, rfl⟩, rfl⟩)

/-- A type not seen before: its body is walked with the handle open, which
that body's outcome then fills. -/
theorem completes_fillOnce_new {α : Type} {body : ℕ → Walk α} {fill : TypeId → α → SinkCall}
    {ns : List Text} (h : Inv env met w) (hlossy : DecodesUtf8 sdk.lossy)
    (hname : typeName sdk d = tag.map Text.asBytes)
    (hnew : ∀ n ∈ tag, w.builder.name2type.lookup n = none)
    (hreach : ∀ n ∈ tag, met (.named n))
    (hsome : ∀ n ∈ tag, t = .named n ∧ n ∈ env.names ∧ ns = env.nextNames n)
    (hnone : tag = none → ∀ n, t ≠ .named n)
    (hbody : ∀ w₁, Inv env met w₁ → w.builder.Grows w₁.builder →
      w₁.builder.pending = (w.builder.table.len, tag) :: w.builder.pending →
      (∀ n ∈ tag, w₁.builder.name2type.lookup n = some w.builder.table.len) →
      Completes body w₁ fun a w₂ => Inv env met w₂ ∧ Went env met ns w₁ w₂ ∧
        Fills env w₂.builder (fill w.builder.table.len a) t w.builder.table.len) :
    Completes (fun fuel => fillOnce sdk d (body fuel) fill) w
      (Stood env met (tag.elim ns fun n => [n]) w t) := by
  simp only [fillOnce_eq]
  -- Reserve the handle,
  obtain ⟨calls, hplaceholder⟩ := placeholder_new h hlossy hname hnew
  refine Completes.bind_of_eq hplaceholder ?_
  simp only [if_true]
  have hgrows₁ := grows_reserved h hnew
  have hinv₁ := h.reserved ⟨_, hlossy⟩ hnew hreach calls
  have hpending₁ := TypeBuilder.pending_reserved tag h.len_notMem_opened
  have hlookup := TypeBuilder.lookup_reserved hnew
  -- walk the body while the handle is pending,
  refine Completes.bind (hbody _ hinv₁ hgrows₁ hpending₁ fun n hn => ?_) fun a w₂ hw₂ => ?_
  · exact (hlookup n _).mpr (.inl ⟨hn, rfl⟩)
  obtain ⟨hinv₂, hwent, data, hfills, hcontent⟩ := hw₂
  have hpending₂ := hwent.pending_eq.trans hpending₁
  have hopen := hwent.toOnward.mem_opened h
  have htag (n : Text) (hn : w₂.builder.name2type.lookup n = some w.builder.table.len) :
      t = .named n := (hsome n ((hwent.toOnward.lookup_handle_iff h hnew n).mp hn)).1
  -- and fill it.
  obtain ⟨table, hfill, hcall, hinv₃⟩ :=
    hinv₂.fill hfills hopen fun n hn => htag n hn ▸ hcontent
  have hget := TypeTable.get_fill_self hfill
  have hgrows₃ := grows_filled hopen hfill []
  refine Completes.bind_of_eq (visit_eq_some_iff.mpr ⟨_, hcall, rfl⟩) ?_
  have hgrows := (hgrows₁.trans hwent.grows).trans hgrows₃
  have hpending : (w₂.filled w.builder.table.len table []).builder.pending = w.builder.pending := by
    show w₂.builder.pending.filter _ = _
    rw [hpending₂, List.filter_cons_of_neg (by simp), List.filter_eq_self.mpr]
    intro p hp
    refine bne_iff_ne.mpr ?_
    rintro heq
    exact h.len_notMem_opened (heq ▸ List.mem_map_of_mem hp)
  have hsized (ht : ∀ n, t ≠ .named n) : ∃ value, table.get w.builder.table.len = some value ∧
      value.size = t.givenSize := ⟨data, hget, hcontent.sized _ (.plain ht rfl)⟩
  refine Completes.pure ⟨hinv₃ _, ⟨⟨hgrows, hpending⟩, ?_⟩, ?_, hsized⟩
  · cases tag with
    | some n =>
        obtain ⟨rfl, hmem, rfl⟩ := hsome n rfl
        exact .named calls _ hmem h (hnew n rfl) hwent.passes hwent.toOnward hinv₂ hfills hcontent
          hfill
    | none =>
        have ht := hnone rfl
        obtain ⟨ids, hshape, -⟩ := hcontent.laid fun ⟨n, _, hn, _⟩ => ht n hn
        exact .unnamed calls _ h hwent.passes hwent.toOnward hinv₂
          (hshape ▸ isTypedef_shape ht ids) hfill
  · cases tag with
    | some n =>
        obtain ⟨rfl, -⟩ := hsome n rfl
        have hn := (hwent.toOnward.lookup_handle_iff h hnew n).mpr rfl
        exact Environment.stands_named_iff.mpr hn
    | none =>
        have ht := hnone rfl
        obtain ⟨ids, hshape, hall⟩ := hcontent.laid fun ⟨n, _, hn, _⟩ => ht n hn
        refine (Environment.stands_iff ht).mpr ⟨?_, ids, ⟨data, hget, hshape⟩, ?_⟩
        · rw [TypeBuilder.opened, hpending]
          exact h.len_notMem_opened
        · exact hall.imp fun _ _ hstands => Environment.Stands.grows hstands hgrows₃

end

end Idakit.Facade
