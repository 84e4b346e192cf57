import Idakit.Facade.WalkFaithful
import Idakit.Library.DepthFirst

/-!
The sizes of the typedefs in an environment's table. A typedef copies the size
of its target when it is filled. The walk enters names depth first, so whether
that target is itself still to be filled is settled by the environment and the
root: it is, exactly where the typedef is first met inside the definition of the
name it stands for.
-/

namespace Idakit.Facade

open Idakit.Library Idakit.Types

namespace Environment

/-- The names that a walk of a root enters, in this order, each with the names
whose definitions the walk is then inside. -/
def tour (env : Environment) (root : TypeRef) : List (Text × List Text) :=
  visitNodes env.nextNames env.definitions.length [] [] root.names

/-- The size that a name comes to through typedefs of names. -/
inductive EndSize (env : Environment) : Text → ℕ → Prop
  | here {n size} (h : env.EntrySize (.named n) (some size)) : EndSize env n size
  | through {n u size} (hn : env.definition n = some (.typedef (.named u)))
      (h : EndSize env u size) : EndSize env n size

/-- No typedef is first met inside the definition of the name it stands for,
unless that name comes to no size. -/
def TargetsClosed (env : Environment) (root : TypeRef) : Prop :=
  ∀ n opened u, (n, opened) ∈ env.tour root → env.definition n = some (.typedef (.named u)) →
    u ∈ opened → ∀ size, ¬env.EndSize u size

end Environment

/-! ### The invariant -/

/-- What a typedef at a handle takes over from its target, where the names in
`opened` were open when it was met. -/
inductive Adopts (b : TypeBuilder) (opened : List Text) (id : TypeId) :
    TypeRef → TypeId → Option ℕ → Prop
  | opened {u uid} (hu : b.name2type.lookup u = some uid) (hopen : u ∈ opened) :
      Adopts b opened id (.named u) uid none
  | closed {u uid value} (hu : b.name2type.lookup u = some uid) (hclosed : u ∉ opened)
      (huid : uid ∉ b.opened) (hget : b.table.get uid = some value) :
      Adopts b opened id (.named u) uid value.size
  | body {body size} : Adopts b opened id (.anonymous body) id size
  | plain {t uid value} (ht : ∀ n, t ≠ .named n) (hbody : ∀ body, t ≠ .anonymous body)
      (huid : uid ∉ b.opened) (hget : b.table.get uid = some value)
      (hshape : value.shape.isTypedef = false) : Adopts b opened id t uid value.size

variable {env : Environment} {met : TypeRef → Prop} {w w' : WalkState} {b b' : TypeBuilder}
  {t : TypeRef} {n : Text} {id uid : TypeId} {size : Option ℕ} {opened : List Text}
  {entered : List (Text × List Text)} {tag : Option Text} {table : TypeTable} {data : TypeValue}

theorem Adopts.grows (h : Adopts b opened id t uid size) (hgrows : b.Grows b') :
    Adopts b' opened id t uid size := by
  cases h with
  | opened hu hopen => exact .opened (hgrows.named _ _ hu) hopen
  | closed hu hclosed huid hget =>
      obtain ⟨huid', hget'⟩ := hgrows.settled _ _ huid hget
      exact .closed (hgrows.named _ _ hu) hclosed huid' hget'
  | body => exact .body
  | plain ht hbody huid hget hshape =>
      obtain ⟨huid', hget'⟩ := hgrows.settled _ _ huid hget
      exact .plain ht hbody huid' hget' hshape

/-- The walk has entered these names, and is inside the definitions of those
that are open. -/
structure Tracks (env : Environment) (opened : List Text) (entered : List (Text × List Text))
    (b : TypeBuilder) : Prop where
  nodup : (entered.map Prod.fst).Nodup
  named : ∀ n, n ∈ entered.map Prod.fst ↔ ∃ id, b.name2type.lookup n = some id
  pending : ∀ n, n ∈ opened ↔ ∃ id ∈ b.opened, b.name2type.lookup n = some id
  placeholders : b.HoldsPlaceholders
  owned : ∀ id n uid size, b.table.get id = some ⟨.typedef n uid, size⟩ →
    b.name2type.lookup n = some id
  adopts : ∀ n opened id t, (n, opened) ∈ entered → b.name2type.lookup n = some id →
    id ∉ b.opened → env.definition n = some (.typedef t) →
      ∃ uid size, b.table.get id = some ⟨.typedef n uid, size⟩ ∧ Adopts b opened id t uid size

theorem tracks_start : Tracks env [] [] WalkState.start.builder := by
  constructor <;> simp [WalkState.start, TypeBuilder.new, TypeBuilder.opened,
    TypeBuilder.HoldsPlaceholders, TypeTable.get, TypeTable.new]

/-! ### One step -/

theorem Tracks.share (h : Tracks env opened entered w.builder) (hinv : Inv env met w)
    (hdata : data.shape.isTypedef = false) :
    Tracks env opened entered
      { w.builder with table := (w.builder.table.intern data).2 } where
  nodup := h.nodup
  named := h.named
  pending := h.pending
  placeholders id hid := TypeTable.get_intern_of_get data (h.placeholders id hid)
  owned id n uid size hget := by
    rcases TypeTable.get_intern_cases hget with hget | rfl
    · exact h.owned id n uid size hget
    · cases hdata
  adopts n opened' id t hn hlookup hid ht := by
    obtain ⟨uid, size, hget, hadopts⟩ := h.adopts n opened' id t hn hlookup hid ht
    exact ⟨uid, size, TypeTable.get_intern_of_get data hget, hadopts.grows (grows_intern hinv data)⟩

/-- A handle reserved under a name enters the name and opens it. -/
theorem Tracks.reserved (h : Tracks env opened entered w.builder) (hinv : Inv env met w)
    (hnew : ∀ n ∈ tag, w.builder.name2type.lookup n = none) :
    Tracks env (tag.toList ++ opened) (entered ++ (tag.map fun n => (n, opened)).toList)
      (w.builder.reserved tag) := by
  have hlookup := TypeBuilder.lookup_reserved hnew
  have hgrows := grows_reserved hinv hnew
  have hopened := opened_reserved hinv tag
  have hget {id : TypeId} {value : TypeValue}
      (hget : (w.builder.reserved tag).table.get id = some value) :
      w.builder.table.get id = some value ∨ value = ⟨.unknown, none⟩ :=
    TypeTable.get_alloc_cases hget
  have hnames (n : Text) : n ∈ (entered ++ (tag.map fun n => (n, opened)).toList).map Prod.fst ↔
      n ∈ entered.map Prod.fst ∨ n ∈ tag := by
    cases tag <;> simp [eq_comm]
  constructor
  case nodup =>
    cases tag with
    | none => simpa using h.nodup
    | some n =>
        have hfresh : n ∉ entered.map Prod.fst := by
          rw [h.named n, hnew n rfl]
          simp
        rw [Option.map_some, Option.toList_some, List.map_append, List.nodup_append]
        refine ⟨h.nodup, List.nodup_singleton n, ?_⟩
        rintro m hm m' hm' rfl
        obtain rfl : m = n := List.mem_singleton.mp hm'
        exact hfresh hm
  case named =>
    intro n
    rw [hnames n, h.named n]
    simp only [hlookup, exists_or, exists_and_left, exists_eq, and_true]
    exact or_comm
  case pending =>
    intro n
    rw [hopened, List.mem_append, h.pending n, Option.mem_toList]
    constructor
    · rintro (hn | ⟨id, hid, hn⟩)
      · exact ⟨_, List.mem_cons_self, (hlookup n _).mpr (.inl ⟨hn, rfl⟩)⟩
      · exact ⟨id, List.mem_cons_of_mem _ hid, (hlookup n id).mpr (.inr hn)⟩
    · rintro ⟨id, hid, hn⟩
      rcases (hlookup n id).mp hn with ⟨hn, -⟩ | hn
      · exact .inl hn
      · have hne : id ≠ w.builder.table.len := (hinv.named_lt n id hn).ne
        exact .inr ⟨id, (List.mem_cons.mp hid).resolve_left hne, hn⟩
  case placeholders =>
    intro id hid
    have hid : id ∈ (w.builder.reserved tag).opened := hid
    rw [hopened, List.mem_cons] at hid
    rcases hid with rfl | hid
    · exact TypeTable.get_alloc_self _
    · have hold := h.placeholders id hid
      exact (TypeTable.get_alloc_of_lt _ (TypeTable.lt_len_of_get hold)).trans hold
  case owned =>
    intro id n uid size hid
    rcases hget hid with hold | hnone
    · exact hgrows.named n id (h.owned id n uid size hold)
    · cases hnone
  case adopts =>
    intro n opened' id t hn hid hclosed ht
    rw [hopened, List.mem_cons, not_or] at hclosed
    -- What has just been reserved is pending; a typedef that is not was filled before.
    rcases (hlookup n id).mp hid with ⟨-, rfl⟩ | hold
    · exact absurd rfl hclosed.1
    · have hn : (n, opened') ∈ entered := by
        rcases List.mem_append.mp hn with hn | hn
        · exact hn
        · obtain ⟨m, hm, heq⟩ := Option.map_eq_some_iff.mp (Option.mem_toList.mp hn)
          cases heq
          rw [hnew n hm] at hold
          cases hold
      obtain ⟨uid, size, hget, hadopts⟩ := h.adopts n opened' id t hn hold hclosed.2 ht
      exact ⟨uid, size, (hgrows.settled id _ hclosed.2 hget).2, hadopts.grows hgrows⟩

/-- A name whose handle is filled is open no longer. -/
theorem Tracks.filled (tag : Option Text) (h : Tracks env (tag.toList ++ opened) entered w.builder)
    (hopen : id ∈ w.builder.opened) (hfill : w.builder.table.fill id data = some table)
    (htag : ∀ n, w.builder.name2type.lookup n = some id ↔ n ∈ tag) (hfresh : ∀ n ∈ tag, n ∉ opened)
    (howned : ∀ n uid size, data = ⟨.typedef n uid, size⟩ → n ∈ tag)
    (calls : List SinkCall)
    (hadopts : ∀ n ∈ tag, ∀ opened t, (n, opened) ∈ entered →
      env.definition n = some (.typedef t) → ∃ uid size, data = ⟨.typedef n uid, size⟩ ∧
        Adopts (w.filled id table calls).builder opened id t uid size) :
    Tracks env opened entered (w.filled id table calls).builder := by
  have hgrows := grows_filled hopen hfill calls
  constructor
  case nodup => exact h.nodup
  case named => exact h.named
  case pending =>
    intro n
    have hmem := h.pending n
    rw [List.mem_append, Option.mem_toList] at hmem
    constructor
    · intro hn
      obtain ⟨i, hi, hlookup⟩ := hmem.mp (.inr hn)
      refine ⟨i, mem_opened_filled.mpr ⟨hi, ?_⟩, hlookup⟩
      rintro rfl
      exact hfresh n ((htag n).mp hlookup) hn
    · rintro ⟨i, hi, hlookup⟩
      obtain ⟨hi, hne⟩ := mem_opened_filled.mp hi
      refine (hmem.mpr ⟨i, hi, hlookup⟩).resolve_left fun hn => hne ?_
      exact Option.some.inj (hlookup.symm.trans ((htag n).mpr hn))
  case placeholders =>
    intro i hi
    obtain ⟨hi, hne⟩ := mem_opened_filled.mp hi
    exact (TypeTable.get_fill_of_ne hfill hne).trans (h.placeholders i hi)
  case owned =>
    intro i n uid size hget
    by_cases heq : i = id
    · subst heq
      have hdata := (TypeTable.get_fill_self hfill).symm.trans hget
      exact (htag n).mpr (howned n uid size (Option.some.inj hdata))
    · exact h.owned i n uid size ((TypeTable.get_fill_of_ne hfill heq).symm.trans hget)
  case adopts =>
    intro n opened' i t hn hlookup hclosed ht
    by_cases heq : i = id
    · subst heq
      obtain ⟨uid, size, rfl, hadopted⟩ := hadopts n ((htag n).mp hlookup) opened' t hn ht
      exact ⟨uid, size, TypeTable.get_fill_self hfill, hadopted⟩
    · have hclosed : i ∉ w.builder.opened := fun hi => hclosed (mem_opened_filled.mpr ⟨hi, heq⟩)
      obtain ⟨uid, size, hget, hadopts⟩ := h.adopts n opened' i t hn hlookup hclosed ht
      exact ⟨uid, size, (hgrows.settled i _ hclosed hget).2, hadopts.grows hgrows⟩

theorem isTypedef_knownAs (ht : ∀ n, t ≠ .named n) (ids : List TypeId) :
    (env.shape (t.knownAs tag) ids).isTypedef = false :=
  isTypedef_shape (knownAs_ne_named ht) ids

/-- What a typedef's own handle is filled with. -/
theorem Tracks.adopts_of_content (h : Tracks env (n :: opened) entered w.builder) {c : SinkCall}
    (hopen : id ∈ w.builder.opened) (hlookup : w.builder.name2type.lookup n = some id)
    (hfills : w.builder.fills c = some (id, data))
    (hcontent : Content env w.builder (.named n) id data)
    (hfill : w.builder.table.fill id data = some table) (calls : List SinkCall)
    (hn : env.definition n = some (.typedef t)) :
    ∃ uid size, data = ⟨.typedef n uid, size⟩ ∧
      Adopts (w.filled id table calls).builder opened id t uid size := by
  have hgrows := grows_filled hopen hfill calls
  have hfilled := TypeTable.get_fill_self hfill
  obtain ⟨shape, size⟩ := data
  by_cases hbody : ∃ body, t = .anonymous body
  · obtain ⟨body, rfl⟩ := hbody
    obtain ⟨m, hm, rfl⟩ := hcontent.aliased ⟨n, body, rfl, hn⟩
    cases hm
    exact ⟨id, size, rfl, .body⟩
  · have halias : ¬env.AliasesBody (.named n) := by
      rintro ⟨m, body, heq, hm⟩
      cases heq
      rw [hn] at hm
      cases hm
      exact hbody ⟨body, rfl⟩
    obtain ⟨ids, hshape, hall⟩ := hcontent.laid halias
    simp only [Environment.children, Environment.shape, hn] at hshape hall
    obtain ⟨uid, rest, hstands, hrest, rfl⟩ := List.forall₂_cons_left_iff.mp hall
    obtain rfl := List.forall₂_nil_left_iff.mp hrest
    have hshape : shape = .typedef n uid := hshape
    subst hshape
    refine ⟨uid, size, rfl, ?_⟩
    obtain ⟨value, hget, rfl⟩ := TypeBuilder.size_of_fills hfills
    by_cases hnamed : ∃ u, t = .named u
    · obtain ⟨u, rfl⟩ := hnamed
      have hu : w.builder.name2type.lookup u = some uid := Environment.stands_named_iff.mp hstands
      by_cases huopen : u ∈ opened
      · -- The target is a placeholder, which has no size.
        obtain ⟨i, hi, hlookup'⟩ := (h.pending u).mp (List.mem_cons_of_mem _ huopen)
        rw [hu] at hlookup'
        cases hlookup'
        rw [h.placeholders uid hi] at hget
        cases hget
        exact .opened hu huopen
      · by_cases hself : uid = id
        · subst hself
          have hclosed : uid ∉ (w.filled uid table calls).builder.opened := by simp
          show Adopts _ opened uid _ uid (TypeValue.size ⟨.typedef n uid, value.size⟩)
          exact .closed hu huopen hclosed hfilled
        -- The target has been filled, so its size is there for good.
        · have huid : uid ∉ w.builder.opened := by
            intro hmem
            rcases List.mem_cons.mp ((h.pending u).mpr ⟨uid, hmem, hu⟩) with rfl | hopened
            · exact hself (Option.some.inj (hu.symm.trans hlookup))
            · exact huopen hopened
          obtain ⟨huid', hget'⟩ := hgrows.settled uid value huid hget
          exact .closed hu huopen huid' hget'
    · have ht (u : Text) : t ≠ .named u := fun heq => hnamed ⟨u, heq⟩
      obtain ⟨huid, ids, ⟨value', hget', hshape⟩, -⟩ :=
        (Environment.stands_iff (knownAs_ne_named ht)).mp hstands
      rw [hget] at hget'
      cases hget'
      obtain ⟨huid', hget'⟩ := hgrows.settled uid value huid hget
      refine .plain ht (fun body heq => hbody ⟨body, heq⟩) huid' hget' ?_
      rw [hshape]
      exact isTypedef_knownAs ht ids

/-- A name's handle is filled with a typedef of that name, if with any. -/
theorem Content.typedef_name {m : Text}
    (h : Content env b (.named n) id ⟨.typedef m uid, size⟩) : m = n := by
  by_cases halias : env.AliasesBody (.named n)
  · obtain ⟨n', hn, hshape⟩ := h.aliased halias
    cases hn
    cases hshape
    rfl
  · obtain ⟨ids, hshape, -⟩ := h.laid halias
    rw [Environment.shape] at hshape
    cases hn : env.definition n with
    | none =>
        rw [hn] at hshape
        cases hshape
    | some d =>
        rw [hn] at hshape
        cases d with
        | typedef t =>
            cases hshape
            rfl
        | type body =>
            cases body with
            | record isUnion members size => cases isUnion <;> cases hshape
            | enumeration e => cases hshape

/-! ### Whole walks -/

/-- Passing over names visits them, in a search with room for the names not
yet seen. -/
theorem Passes.tracks {ns : List Text} {fuel : ℕ} (h : Passes env met ns w w')
    (hfuel : (unseen env w).card ≤ fuel) (htracks : Tracks env opened entered w.builder) :
    Tracks env opened (visitNodes env.nextNames fuel opened entered ns) w'.builder := by
  -- The tour and the walk go over the names side by side: a name is entered when its handle is
  -- reserved, and left when it is filled.
  induction h generalizing fuel opened entered with
  | still => exact htracks
  | share _ hinv hdata => exact htracks.share hinv hdata
  | seen _ hn =>
      rw [visitNodes_seen ((htracks.named _).mpr ⟨_, hn⟩)]
      exact htracks
  | append _ honward _ ih ih' =>
      rw [visitNodes_append]
      refine ih' (le_trans ?_ hfuel) (ih hfuel htracks)
      exact Finset.card_le_card (unseen_subset honward.grows)
  | @named n w w₂ c data table calls calls' hmem hinv hnew hbody honward hinv₂ hfills hcontent
      hfill ih =>
      have htag (m : Text) (hm : m ∈ some n) : w.builder.name2type.lookup m = none := by
        cases hm
        exact hnew
      have hid := (TypeBuilder.lookup_reserved htag n _).mpr (.inl ⟨rfl, rfl⟩)
      have hlt : (unseen env ⟨w.builder.reserved (some n), n.asBytes :: w.defined, calls⟩).card <
          (unseen env w).card := card_unseen_lt (grows_reserved hinv htag) hmem hnew hid
      -- A name not seen before is one of the environment's, so the tour has fuel for it.
      obtain ⟨fuel, rfl⟩ : ∃ k, fuel = k + 1 := ⟨fuel - 1, by omega⟩
      have hfresh : n ∉ entered.map Prod.fst := by
        rw [htracks.named n, hnew]
        simp
      have hclosed : n ∉ opened := by
        intro hn
        obtain ⟨i, -, hi⟩ := (htracks.pending n).mp hn
        rw [hnew] at hi
        cases hi
      rw [visitNodes_new hfresh]
      have hinner : Tracks env (n :: opened) (visitNodes env.nextNames fuel (n :: opened)
          (entered ++ [(n, opened)]) (env.nextNames n)) w₂.builder :=
        ih (by omega) (htracks.reserved hinv htag)
      have hopen := honward.mem_opened hinv
      have hhandle := honward.lookup_handle_iff hinv htag
      refine Tracks.filled (some n) hinner hopen hfill hhandle ?_ ?_ calls' ?_
      · rintro m hm
        cases hm
        exact hclosed
      · rintro m uid size rfl
        exact congrArg some hcontent.typedef_name.symm
      · rintro m hm opened' t hentered ht
        cases hm
        have hmine : (n, opened) ∈ visitNodes env.nextNames fuel (n :: opened)
            (entered ++ [(n, opened)]) (env.nextNames n) :=
          subset_visitNodes (List.mem_append_right _ (List.mem_singleton_self _))
        cases List.inj_on_of_nodup_map hinner.nodup hentered hmine rfl
        exact hinner.adopts_of_content hopen ((hhandle n).mpr rfl) hfills hcontent hfill calls' ht
  | @unnamed ns w w₂ data table calls calls' hinv hbody honward hinv₂ hdata hfill ih =>
      have htag (m : Text) (hm : m ∈ none) : w.builder.name2type.lookup m = none := by cases hm
      have hreserved : Tracks env opened entered (w.builder.reserved none) := by
        simpa using htracks.reserved hinv htag
      have hle : (unseen env ⟨w.builder.reserved none, w.defined, calls⟩).card ≤
          (unseen env w).card :=
        Finset.card_le_card (unseen_subset (grows_reserved hinv htag))
      refine Tracks.filled none (ih (hle.trans hfuel) hreserved) (honward.mem_opened hinv) hfill
        (honward.lookup_handle_iff hinv htag) ?_ ?_ calls' ?_
      · intro m hm
        cases hm
      · rintro m uid size rfl
        cases hdata
      · intro m hm
        cases hm

/-! ### Sizes in the end -/

theorem Inv.size_of_entrySize (hinv : Inv env met w) (hpending : w.builder.pending = [])
    (hlookup : w.builder.name2type.lookup n = some id) {value : TypeValue}
    (hget : w.builder.table.get id = some value) (hsize : env.EntrySize (.named n) size) :
    value.size = size := by
  have hid : id ∉ w.builder.opened := by simp [TypeBuilder.opened, hpending]
  obtain ⟨value', hget', hvalue⟩ := (hinv.filled n id hlookup hid).sized size hsize
  rw [hget] at hget'
  cases hget'
  exact hvalue

section

variable (htracks : Tracks env [] entered w.builder) (hinv : Inv env met w)
  (hmet : env.Closes met) (hpending : w.builder.pending = [])
include htracks hinv hmet hpending

/-- The entry of a name is what the name is defined to be, or a typedef of
it. -/
theorem Tracks.entry_cases (hlookup : w.builder.name2type.lookup n = some id) :
    (∃ value, w.builder.table.get id = some value ∧ value.shape.isTypedef = false ∧
      env.EntrySize (.named n) value.size) ∨
    ∃ t opened uid size, env.definition n = some (.typedef t) ∧ (n, opened) ∈ entered ∧
      w.builder.table.get id = some ⟨.typedef n uid, size⟩ ∧
        Adopts w.builder opened id t uid size := by
  have hid : id ∉ w.builder.opened := by simp [TypeBuilder.opened, hpending]
  obtain ⟨d, hn⟩ := hmet.definition (hinv.reached n id hlookup)
  cases d with
  | typedef t =>
      obtain ⟨⟨m, opened⟩, hmem, rfl⟩ := List.mem_map.mp ((htracks.named n).mpr ⟨id, hlookup⟩)
      obtain ⟨uid, size, hget, hadopts⟩ := htracks.adopts m opened id t hmem hlookup hid hn
      exact .inr ⟨t, opened, uid, size, hn, hmem, hget, hadopts⟩
  | type body =>
      have hfilled := hinv.filled n id hlookup hid
      obtain ⟨value, hget, hsize⟩ := hfilled.sized _ (.type hn rfl)
      have halias : ¬env.AliasesBody (.named n) := by
        rintro ⟨m, body', heq, hm⟩
        cases heq
        rw [hn] at hm
        cases hm
      obtain ⟨ids, ⟨value', hget', hshape⟩, -⟩ := hfilled.laid halias
      rw [hget] at hget'
      cases hget'
      refine .inl ⟨value, hget, ?_, hsize ▸ .type hn rfl⟩
      rw [hshape, Environment.shape, hn]
      cases body with
      | record isUnion members size => cases isUnion <;> rfl
      | enumeration e => rfl

theorem Tracks.endSize_of_finallyAliases {final : TypeId} {value : TypeValue} {size : ℕ}
    (hlookup : w.builder.name2type.lookup n = some id)
    (hfinal : w.builder.table.FinallyAliases id final)
    (hget : w.builder.table.get final = some value) (hsize : value.size = some size) :
    env.EndSize n size := by
  have hentry {n : Text} {id : TypeId} (hlookup : w.builder.name2type.lookup n = some id) :=
    htracks.entry_cases hinv hmet hpending hlookup
  -- Along the chain of aliases: each one is an entry of a name, or stands for one.
  induction hfinal generalizing n with
  | entry hgetId hshape =>
      rw [hgetId] at hget
      cases hget
      rcases hentry hlookup with ⟨value', hget', -, hentrySize⟩ | ⟨t, _, uid, size', _, _, hget', -⟩
      · rw [hgetId] at hget'
        cases hget'
        exact .here (hsize ▸ hentrySize)
      · rw [hgetId] at hget'
        cases hget'
        cases hshape
  | through hgetId hthrough ih =>
      rcases hentry hlookup with
        ⟨value', hget', hshape, -⟩ | ⟨t, _, uid, size', hn, _, hget', hadopts⟩
      · rw [hgetId] at hget'
        cases hget'
        cases hshape
      · rw [hgetId] at hget'
        cases hget'
        cases hadopts with
        | opened hu _ | closed hu _ _ _ => exact .through hn (ih hu hget)
        | body => exact ih hlookup hget
        | plain ht hbody _ htarget hshape =>
            cases hthrough with
            | through hgetTarget _ =>
                rw [htarget] at hgetTarget
                cases hgetTarget
                cases hshape
            | entry _ _ =>
                rw [htarget] at hget
                cases hget
                have hgiven := hinv.size_of_entrySize hpending hlookup hgetId
                  (.typedef hn ht hbody rfl)
                exact .here (.typedef hn ht hbody (hgiven.symm.trans hsize))

theorem Tracks.exists_finallyAliases {size : ℕ}
    (hlookup : w.builder.name2type.lookup n = some id) (hsize : env.EndSize n size) :
    ∃ final value, w.builder.table.FinallyAliases id final ∧
      w.builder.table.get final = some value ∧ value.size = some size := by
  have hentry {n : Text} {id : TypeId} (hlookup : w.builder.name2type.lookup n = some id) :=
    htracks.entry_cases hinv hmet hpending hlookup
  induction hsize generalizing id with
  | here hentrySize =>
      rcases hentry hlookup with ⟨value, hget, hshape, -⟩ | ⟨t, _, uid, size', hn, _, hget, hadopts⟩
      · exact ⟨id, value, .entry hget hshape, hget,
          hinv.size_of_entrySize hpending hlookup hget hentrySize⟩
      · have hsize := hinv.size_of_entrySize hpending hlookup hget hentrySize
        cases hadopts with
        | opened | closed => exact absurd hentrySize (Environment.not_entrySize_of_named hn _)
        | body => exact absurd hentrySize (Environment.not_entrySize_of_body hn _)
        | plain _ _ _ htarget hshape =>
            exact ⟨uid, _, .through hget (.entry htarget hshape), htarget, hsize⟩
  | through hn _ ih =>
      rcases hentry hlookup with
        ⟨value, _, _, hentrySize⟩ | ⟨t, _, uid, size', hn', _, hget, hadopts⟩
      · exact absurd hentrySize (Environment.not_entrySize_of_named hn _)
      · rw [hn] at hn'
        cases hn'
        cases hadopts with
        | opened hu _ | closed hu _ _ _ =>
            obtain ⟨final, value, hfinal, hvalue⟩ := ih hu
            exact ⟨final, value, .through hget hfinal, hvalue⟩
        | plain ht => exact absurd rfl (ht _)

/-- A typedef first met inside its target's definition keeps no size. -/
theorem Tracks.not_endSize (hsizes : w.builder.table.TypedefSizes) {u : Text} {size : ℕ}
    (hentered : (n, opened) ∈ entered) (hn : env.definition n = some (.typedef (.named u)))
    (hu : u ∈ opened) : ¬env.EndSize u size := by
  intro hend
  obtain ⟨id, hlookup⟩ := (htracks.named n).mp (List.mem_map_of_mem hentered)
  have hid : id ∉ w.builder.opened := by simp [TypeBuilder.opened, hpending]
  obtain ⟨uid, none', hget, hadopts⟩ := htracks.adopts n opened id _ hentered hlookup hid hn
  cases hadopts with
  | opened huid _ =>
      obtain ⟨final, value, hfinal, hvalue, hsize⟩ :=
        htracks.exists_finallyAliases hinv hmet hpending huid hend
      have hnone := hsizes id n uid none final value hget (.through hget hfinal) hvalue
      rw [hsize] at hnone
      cases hnone
  | closed _ hclosed => exact hclosed hu
  | plain ht => exact ht u rfl

/-- Otherwise sizes are handed down every chain of typedefs. -/
theorem Tracks.size_eq {final : TypeId} {value value' : TypeValue}
    (hclosed : ∀ n opened u, (n, opened) ∈ entered →
      env.definition n = some (.typedef (.named u)) → u ∈ opened → ∀ size, ¬env.EndSize u size)
    (hfinal : w.builder.table.FinallyAliases id final)
    (hget : w.builder.table.get id = some value)
    (hget' : w.builder.table.get final = some value') : value.size = value'.size := by
  induction hfinal generalizing value with
  | entry =>
      rw [hget] at hget'
      rw [Option.some.inj hget']
  | through hgetId hthrough ih =>
      rw [hgetId] at hget
      cases hget
      have hlookup := htracks.owned _ _ _ _ hgetId
      rcases htracks.entry_cases hinv hmet hpending hlookup with
        ⟨value, hvalue, hshape, -⟩ | ⟨t, opened, uid, size, hn, hentered, hvalue, hadopts⟩
      · rw [hgetId] at hvalue
        cases hvalue
        cases hshape
      · rw [hgetId] at hvalue
        cases hvalue
        cases hadopts with
        -- A target that was open had no size to take over; by assumption it never comes to one.
        | opened hu hopen =>
            cases hsize : value'.size with
            | none => rfl
            | some size =>
                refine absurd ?_ (hclosed _ _ _ hentered hn hopen size)
                exact htracks.endSize_of_finallyAliases hinv hmet hpending hu hthrough hget' hsize
        | body => exact ih hgetId hget'
        | closed _ _ _ htarget | plain _ _ _ htarget _ =>
            have hsize := ih htarget hget'
            exact hsize

end

/-! ### The walk of a type -/

theorem tracks_of_stood {root : TypeRef} (hstood : Stood env met root.names .start root id w) :
    Tracks env [] (env.tour root) w.builder := by
  refine hstood.went.passes.tracks ?_ tracks_start
  refine (Finset.card_le_card (Finset.filter_subset _ _)).trans ?_
  refine (List.toFinset_card_le _).trans_eq ?_
  rw [Environment.names, List.length_map]

theorem typedefSizes_iff_of_stood {root : TypeRef} (hroot : root.names ⊆ env.names)
    (hstood : Stood env (env.Reaches root) root.names .start root id w) :
    w.builder.table.TypedefSizes ↔ env.TargetsClosed root := by
  have htracks := tracks_of_stood hstood
  have hmet := Environment.closes_reaches hroot
  have hpending : w.builder.pending = [] := hstood.went.pending_eq
  constructor
  · intro hsizes n opened u hentered hn hu size
    exact htracks.not_endSize hstood.inv hmet hpending hsizes hentered hn hu
  · intro hclosed i name underlying size final value hget hfinal hget'
    exact htracks.size_eq hstood.inv hmet hpending hclosed hfinal hget hget'

/-- The walk of a type ends with nothing unfilled, and every typedef has the
size of the entry that it finally aliases exactly where no typedef is first met
inside the definition of the name it stands for, unless that name comes to no
size. -/
theorem completes_typedefSizes_iff (env : Environment) (lossy : Name → Text)
    (hlossy : DecodesUtf8 lossy) (root : TypeRef) (hroot : root.names ⊆ env.names) :
    Completes (fun fuel => ty (env.sdk lossy) fuel root) .start
        (fun _ w => w.builder.unfilled = 0 ∧ w.builder.table.TypedefSizes) ↔
      env.TargetsClosed root := by
  constructor
  · intro h
    obtain ⟨id, w, -, hstood, -, hsizes⟩ := (completes_ty hlossy hroot).and h
    exact (typedefSizes_iff_of_stood hroot hstood).mp hsizes
  · intro hclosed
    refine (completes_ty hlossy hroot).imp fun id w hstood => ?_
    have hpending : w.builder.pending = [] := hstood.went.pending_eq
    refine ⟨?_, (typedefSizes_iff_of_stood hroot hstood).mpr hclosed⟩
    rw [TypeBuilder.unfilled, hpending, List.length_nil]

/-- Walked from `node_t`, the struct is inside the typedef and not the other
way round. -/
theorem completes_typedefSizes_nodeT :
    Completes (fun fuel => ty (nodeEnvironment.sdk decodeUtf8) fuel (.named "node_t".toList))
      .start (fun _ w => w.builder.unfilled = 0 ∧ w.builder.table.TypedefSizes) := by
  refine (completes_typedefSizes_iff nodeEnvironment decodeUtf8 decodesUtf8_decodeUtf8
    (.named "node_t".toList) (by decide)).mpr ?_
  have htour : nodeEnvironment.tour (.named "node_t".toList) =
      [("node_t".toList, []), ("node".toList, ["node_t".toList])] := by decide +kernel
  intro n opened u hentered hn hu
  rw [htour] at hentered
  rcases List.mem_cons.mp hentered with heq | hentered
  · cases heq
    cases hu
  · cases List.mem_singleton.mp hentered
    cases hn

/-- Walked from `node`, the alias is met inside the struct: it has no size, and
the struct has one. -/
theorem not_typedefSizes_node :
    ¬∀ (env : Environment) (lossy : Name → Text), DecodesUtf8 lossy →
      ∀ root : TypeRef, root.names ⊆ env.names → ∀ fuel id w,
        ty (env.sdk lossy) fuel root .start = some (id, w) → w.builder.unfilled = 0 →
          w.builder.table.TypedefSizes := by
  intro h
  have hnames : (TypeRef.named "node".toList).names ⊆ nodeEnvironment.names := by decide
  obtain ⟨id, w, ⟨least, hends⟩, hstood⟩ := completes_ty decodesUtf8_decodeUtf8 hnames
  have hpending : w.builder.pending = [] := hstood.went.pending_eq
  have hsizes := h nodeEnvironment decodeUtf8 decodesUtf8_decodeUtf8 _ hnames least id w
    (hends least le_rfl) (by rw [TypeBuilder.unfilled, hpending, List.length_nil])
  have hclosed := (typedefSizes_iff_of_stood hnames hstood).mp hsizes
  have htour : ("node_t".toList, ["node".toList]) ∈
      nodeEnvironment.tour (.named "node".toList) := by decide +kernel
  exact hclosed _ _ "node".toList htour rfl (List.mem_singleton_self _) 8
    (.here (.type rfl (by decide)))

end Idakit.Facade
