import Idakit.Decompiler.Ctree.Node

/-!
What a write cursor evicts from the decompiler's cache. The cursor remembers
the widest eviction that its writes asked for, and applies it once, at its own
address, when it is dropped.

A write is answered by the kernel, which may change its functions, its
references and its cache while it does. The kernel's `patch_bytes` is behind a
check of the facade, which is part of the model. A location has no prototype
to edit and a function edit no patch; here a cursor may make any write.
-/

namespace Idakit.Decompiler

/-- What the kernel knows: the entry of the function around an address, or
`BADADDR`; the sources of the references to an address; the functions with a
cached decompilation; and the image. -/
structure Database where
  funcStart : Address → UInt64
  xrefsTo : Address → List Address
  cached : Address → Bool
  mapped : UInt64 → Bool
  image : UInt64 → UInt8
  mapped_badAddr : mapped badAddr = false

def Database.markCfuncDirty (db : Database) (entry : Address) : Database :=
  { db with cached := fun f => if f = entry then false else db.cached f }

/-- Evict the function around each source that was not seen before. -/
def Database.evictReferrers (db : Database) (seen : List Address) : List Address → Database
  | [] => db
  | source :: sources =>
      match Address.tryNew (db.funcStart source) with
      | none => db.evictReferrers seen sources
      | some referrer =>
          if referrer ∈ seen then db.evictReferrers seen sources
          else (db.markCfuncDirty referrer).evictReferrers (referrer :: seen) sources

def Database.invalidateDecompilationDependents (hexraysReady : Bool) (db : Database)
    (entry : Address) : Database :=
  if hexraysReady then (db.markCfuncDirty entry).evictReferrers [entry] (db.xrefsTo entry) else db

def Database.invalidateDecompilation (hexraysReady : Bool) (db : Database) (entry : Address) :
    Database :=
  if hexraysReady then db.markCfuncDirty entry else db

inductive PendingInvalidation
  | none | selfOnly | dependents
  deriving DecidableEq

def PendingInvalidation.max : PendingInvalidation → PendingInvalidation → PendingInvalidation
  | .dependents, _ => .dependents
  | _, .dependents => .dependents
  | .selfOnly, _ => .selfOnly
  | _, .selfOnly => .selfOnly
  | .none, .none => .none

inductive Write
  | rename
  | setComment
  | patch (bytes : List UInt8)
  | setType
  | applyType
  | clearType
  | setReturnType
  | setArgType
  | renameArg
  | setCallingConvention
  | prependThis
  deriving DecidableEq

/-- The eviction that a write asks for if it succeeds. Comments are no part of
the pseudocode, and a parameter's name stays inside its function. -/
def Write.level : Write → PendingInvalidation
  | .setComment => .none
  | .renameArg => .selfOnly
  | _ => .dependents

structure LocationMut where
  db : Database
  address : Address
  hexraysReady : Bool
  autoInvalidate : Bool
  pending : PendingInvalidation

def LocationMut.queued (c : LocationMut) (ok : Bool) (level : PendingInvalidation) : LocationMut :=
  if ok then { c with pending := c.pending.max level } else c

/-- The check in front of the kernel's `patch_bytes`. -/
def Database.patchBytes (db : Database) (address : Address) (bytes : List UInt8) : Bool :=
  if bytes = [] then true
  else if address.raw + .ofNat (bytes.length - 1) < address.raw then false
  else (List.range bytes.length).all fun i => db.mapped (address.raw + .ofNat i)

def patched (image : UInt64 → UInt8) (address : Address) (bytes : List UInt8) : UInt64 → UInt8 :=
  fun ea => bytes.getD (ea - address.raw).toNat (image ea)

def changedBytes (image : UInt64 → UInt8) (address : Address) (bytes : List UInt8) : List Address :=
  (bytes.zipIdx.filter fun p => image (address.raw + .ofNat p.2) ≠ p.1).filterMap fun p =>
    Address.tryNew (address.raw + .ofNat p.2)

structure Response where
  accepted : Bool
  after : Database

/-- A cursor, and the addresses whose name, type or bytes its writes changed. -/
structure Session where
  cursor : LocationMut
  changed : List Address

/-- One write. A patch is refused before it reaches the kernel, or made. -/
def Session.write (s : Session) (w : Write) (r : Response) : Session :=
  match w with
  | .patch [] => s
  | .patch bytes =>
      if s.cursor.db.patchBytes s.cursor.address bytes then
        ⟨{ s.cursor with db := { r.after with
            image := patched s.cursor.db.image s.cursor.address bytes } }.queued true w.level,
          changedBytes s.cursor.db.image s.cursor.address bytes ++ s.changed⟩
      else s
  | .setComment => ⟨{ s.cursor with db := r.after }.queued r.accepted w.level, s.changed⟩
  | .renameArg => ⟨{ s.cursor with db := r.after }.queued r.accepted w.level, s.changed⟩
  | w => ⟨{ s.cursor with db := r.after }.queued r.accepted w.level,
      if r.accepted then s.cursor.address :: s.changed else s.changed⟩

def Session.writes (s : Session) (script : List (Write × Response)) : Session :=
  script.foldl (fun s p => s.write p.1 p.2) s

def LocationMut.drop (c : LocationMut) : Database :=
  if c.autoInvalidate then
    match c.pending with
    | .none => c.db
    | .selfOnly => c.db.invalidateDecompilation c.hexraysReady c.address
    | .dependents => c.db.invalidateDecompilationDependents c.hexraysReady c.address
  else c.db

/-- A new cursor evicts by itself. -/
def Database.atMut (db : Database) (hexraysReady : Bool) (address : Address) : Session :=
  ⟨⟨db, address, hexraysReady, true, .none⟩, []⟩

/-- No function that references one of some addresses is cached. -/
def Database.Clean (db : Database) (addresses : List Address) : Prop :=
  ∀ b ∈ addresses, ∀ source ∈ db.xrefsTo b, ∀ f,
    Address.tryNew (db.funcStart source) = some f → db.cached f = false

/-! ### The sweep -/

theorem Database.evictReferrers_spec (db : Database) (seen sources : List Address) :
    (db.evictReferrers seen sources).xrefsTo = db.xrefsTo ∧
      (db.evictReferrers seen sources).funcStart = db.funcStart ∧
      ∀ f, (db.evictReferrers seen sources).cached f = true → db.cached f = true ∧
        ∀ source ∈ sources, Address.tryNew (db.funcStart source) = some f → f ∈ seen := by
  induction sources generalizing db seen with
  | nil => exact ⟨rfl, rfl, fun f h => ⟨h, by simp⟩⟩
  | cons source sources ih =>
      rw [Database.evictReferrers]
      cases hr : Address.tryNew (db.funcStart source) with
      | none =>
          obtain ⟨hx, hs, hc⟩ := ih db seen
          refine ⟨hx, hs, fun f hf => ⟨(hc f hf).1, ?_⟩⟩
          simpa [hr] using (hc f hf).2
      | some referrer =>
          by_cases hseen : referrer ∈ seen
          · obtain ⟨hx, hs, hc⟩ := ih db seen
            simp only [hseen, if_true]
            refine ⟨hx, hs, fun f hf => ⟨(hc f hf).1, ?_⟩⟩
            rw [List.forall_mem_cons]
            refine ⟨fun hrf => ?_, (hc f hf).2⟩
            rw [hr] at hrf
            exact Option.some.inj hrf ▸ hseen
          · obtain ⟨hx, hs, hc⟩ := ih (db.markCfuncDirty referrer) (referrer :: seen)
            simp only [hseen, if_false]
            refine ⟨hx, hs, fun f hf => ?_⟩
            obtain ⟨hcached, hrest⟩ := hc f hf
            -- The referrer was evicted, so that f is another function.
            have hne : f ≠ referrer := by
              rintro rfl
              simp [Database.markCfuncDirty] at hcached
            have hbefore : db.cached f = true := by
              simpa [Database.markCfuncDirty, hne] using hcached
            refine ⟨hbefore, fun b hb hbf => ?_⟩
            rcases List.mem_cons.mp hb with rfl | hb
            · rw [hr] at hbf
              exact absurd (Option.some.inj hbf).symm hne
            · exact (List.mem_cons.mp (hrest b hb hbf)).resolve_left hne

/-- The sweep covers one address: the one that it starts from. -/
theorem Database.clean_invalidateDecompilationDependents (db : Database) (entry : Address)
    (addresses : List Address) (h : ∀ b ∈ addresses, b = entry) :
    (db.invalidateDecompilationDependents true entry).Clean addresses := by
  intro b hb source hsource f hf
  obtain rfl := h b hb
  obtain ⟨hx, hs, hc⟩ :=
    (db.markCfuncDirty b).evictReferrers_spec [b] (db.xrefsTo b)
  rw [Database.invalidateDecompilationDependents, if_pos rfl] at hsource hf ⊢
  rw [hx] at hsource
  rw [hs] at hf
  rw [Bool.eq_false_iff]
  intro hcached
  obtain ⟨hstill, hseen⟩ := hc f hcached
  obtain rfl := List.mem_singleton.mp (hseen source hsource hf)
  simp [Database.markCfuncDirty] at hstill

theorem Database.cached_invalidateDecompilationDependents_of_xrefsTo_eq_nil (db : Database)
    (entry f : Address) (hx : db.xrefsTo entry = []) (hf : f ≠ entry) :
    (db.invalidateDecompilationDependents true entry).cached f = db.cached f := by
  simp [Database.invalidateDecompilationDependents, hx, Database.evictReferrers,
    Database.markCfuncDirty, hf]

/-! ### Writes that change one byte at most -/

/-- A write that is no patch, a patch of one byte at most, or a patch that
reaches the end of the address space, which is refused. -/
def OneByte (address : Address) : Write → Prop
  | .patch bytes =>
      bytes.length ≤ 1 ∨ badAddr.toNat ≤ address.raw.toNat + (bytes.length - 1)
  | _ => True

theorem Database.patchBytes_eq_false (db : Database) (address : Address) (bytes : List UInt8)
    (hb : bytes ≠ []) (h : badAddr.toNat ≤ address.raw.toNat + (bytes.length - 1)) :
    db.patchBytes address bytes = false := by
  have hlen : 0 < bytes.length := List.length_pos_iff.mpr hb
  have hle : address.raw.toNat ≤ badAddr.toNat := by
    have := address.raw.toNat_lt
    have : badAddr.toNat = 2 ^ 64 - 1 := rfl
    omega
  have hend : address.raw + .ofNat (badAddr.toNat - address.raw.toNat) = badAddr := by
    apply UInt64.toNat_inj.mp
    have := badAddr.toNat_lt
    simp only [UInt64.toNat_add, UInt64.toNat_ofNat']
    omega
  rw [Database.patchBytes, if_neg hb]
  split
  · rfl
  · rw [List.all_eq_false]
    refine ⟨badAddr.toNat - address.raw.toNat, by simp; omega, ?_⟩
    rw [hend, db.mapped_badAddr]
    simp

/-- Every address changed so far is the cursor's own, and then the widest
eviction was asked for. -/
structure Session.Covered (s : Session) : Prop where
  ready : s.cursor.hexraysReady = true
  auto : s.cursor.autoInvalidate = true
  own : ∀ b ∈ s.changed, b = s.cursor.address
  asked : s.changed ≠ [] → s.cursor.pending = .dependents

theorem PendingInvalidation.max_dependents (p : PendingInvalidation) :
    p.max .dependents = .dependents := by
  cases p <;> rfl

theorem PendingInvalidation.dependents_max (p : PendingInvalidation) :
    PendingInvalidation.dependents.max p = .dependents := rfl

theorem mem_changedBytes_iff {image : UInt64 → UInt8} {address b : Address} {bytes : List UInt8} :
    b ∈ changedBytes image address bytes ↔
      ∃ i v, bytes[i]? = some v ∧ image b.raw ≠ v ∧ b.raw = address.raw + .ofNat i := by
  have htry (raw : UInt64) : Address.tryNew raw = some b ↔ b.raw = raw := by
    obtain ⟨braw, hvalid⟩ := b
    unfold Address.tryNew
    split
    · simp [eq_comm]
    · simp_all only [ne_eq, not_not, reduceCtorEq]
  simp only [changedBytes, List.mem_filterMap, List.mem_filter, htry, Prod.exists,
    List.mem_zipIdx_iff_getElem?, decide_eq_true_eq]
  constructor
  · rintro ⟨v, i, ⟨hget, hne⟩, hraw⟩
    exact ⟨i, v, hget, hraw ▸ hne, hraw⟩
  · rintro ⟨i, v, hget, hne, hraw⟩
    exact ⟨v, i, ⟨hget, hraw ▸ hne⟩, hraw⟩

/-- What one write does: nothing, a patch, or what the kernel answered; only
a write that asks for the widest eviction changes the cursor's address. -/
theorem Session.write_cases (s : Session) (w : Write) (r : Response) :
    s.write w r = s ∨
    (∃ bytes, w = .patch bytes ∧ bytes ≠ [] ∧
      s.cursor.db.patchBytes s.cursor.address bytes = true ∧
      s.write w r =
        ⟨{ s.cursor with
            db := { r.after with image := patched s.cursor.db.image s.cursor.address bytes }
            pending := s.cursor.pending.max .dependents },
          changedBytes s.cursor.db.image s.cursor.address bytes ++ s.changed⟩) ∨
    ∃ level changed,
      s.write w r = ⟨{ s.cursor with db := r.after }.queued r.accepted level, changed⟩ ∧
      (changed = s.changed ∨
        r.accepted = true ∧ level = .dependents ∧ changed = s.cursor.address :: s.changed) := by
  cases w with
  | patch bytes =>
      cases bytes with
      | nil => exact .inl rfl
      | cons v vs =>
          cases hp : s.cursor.db.patchBytes s.cursor.address (v :: vs) with
          | false => exact .inl (by simp [Session.write, hp])
          | true =>
              refine .inr (.inl ⟨v :: vs, rfl, by simp, hp, ?_⟩)
              simp [Session.write, hp, LocationMut.queued, Write.level]
  | setComment => exact .inr (.inr ⟨_, _, rfl, .inl rfl⟩)
  | renameArg => exact .inr (.inr ⟨_, _, rfl, .inl rfl⟩)
  | rename | setType | applyType | clearType | setReturnType | setArgType |
      setCallingConvention | prependThis =>
      refine .inr (.inr ⟨_, _, rfl, ?_⟩)
      cases hr : r.accepted with
      | false => exact .inl (by simp)
      | true => exact .inr ⟨rfl, rfl, by simp⟩

theorem LocationMut.queued_fields (c : LocationMut) (ok : Bool) (level : PendingInvalidation) :
    (c.queued ok level).db = c.db ∧ (c.queued ok level).address = c.address ∧
      (c.queued ok level).hexraysReady = c.hexraysReady ∧
      (c.queued ok level).autoInvalidate = c.autoInvalidate := by
  unfold LocationMut.queued
  split <;> simp

theorem LocationMut.queued_pending_of_dependents {c : LocationMut} (h : c.pending = .dependents)
    (ok : Bool) (level : PendingInvalidation) : (c.queued ok level).pending = .dependents := by
  unfold LocationMut.queued
  split <;> simp [h, PendingInvalidation.dependents_max]

theorem Session.Covered.write {s : Session} (h : s.Covered) {w : Write}
    (hw : OneByte s.cursor.address w) (r : Response) :
    (s.write w r).Covered ∧ (s.write w r).cursor.address = s.cursor.address := by
  obtain heq | ⟨bytes, rfl, hne, hp, heq⟩ | ⟨level, changed, heq, hchanged⟩ := s.write_cases w r
  · rw [heq]
    exact ⟨h, rfl⟩
  · rw [heq]
    refine ⟨⟨h.ready, h.auto, fun b hb => ?_, fun _ => s.cursor.pending.max_dependents⟩, rfl⟩
    rcases List.mem_append.mp hb with hb | hb
    · obtain ⟨i, v, hget, -, hraw⟩ := mem_changedBytes_iff.mp hb
      -- A patch that was made does not reach the end, so that it has one byte.
      have hone : bytes.length ≤ 1 := hw.resolve_right fun hend => by
        simp [s.cursor.db.patchBytes_eq_false s.cursor.address bytes hne hend] at hp
      have hi := (List.getElem?_eq_some_iff.mp hget).1
      have hzero : i = 0 := by omega
      subst hzero
      obtain ⟨braw, hvalid⟩ := b
      simp only at hraw
      subst hraw
      simp
    · exact h.own b hb
  · obtain ⟨-, haddress, hready, hauto⟩ :=
      LocationMut.queued_fields { s.cursor with db := r.after } r.accepted level
    rw [heq]
    refine ⟨⟨hready.trans h.ready, hauto.trans h.auto, fun b hb => ?_, fun hb => ?_⟩, haddress⟩
    · rcases hchanged with rfl | ⟨-, -, rfl⟩
      · exact (h.own b hb).trans haddress.symm
      · rcases List.mem_cons.mp hb with rfl | hb
        · exact haddress.symm
        · exact (h.own b hb).trans haddress.symm
    · rcases hchanged with rfl | ⟨hacc, rfl, rfl⟩
      · apply LocationMut.queued_pending_of_dependents
        exact h.asked hb
      · simp [LocationMut.queued, hacc, PendingInvalidation.max_dependents]

theorem Session.Covered.writes {s : Session} (h : s.Covered) {script : List (Write × Response)}
    (hw : ∀ p ∈ script, OneByte s.cursor.address p.1) : (s.writes script).Covered := by
  induction script generalizing s with
  | nil => exact h
  | cons p script ih =>
      obtain ⟨hnext, haddress⟩ := h.write (hw p List.mem_cons_self) p.2
      refine ih hnext fun q hq => ?_
      rw [haddress]
      exact hw q (List.mem_cons_of_mem p hq)

theorem Session.Covered.clean_drop {s : Session} (h : s.Covered) :
    s.cursor.drop.Clean s.changed := by
  by_cases hnil : s.changed = []
  · intro b hb
    simp [hnil] at hb
  · rw [LocationMut.drop, h.auto, if_pos rfl, h.asked hnil, h.ready]
    exact s.cursor.db.clean_invalidateDecompilationDependents s.cursor.address s.changed h.own

/-! ### A patch of more bytes -/

/-- A database where a function refers to its own entry, and is cached. -/
def recursive (entry : Address) (v : UInt8) : Database where
  funcStart := fun _ => entry.raw
  xrefsTo := fun b => if b = entry then [entry] else []
  cached := fun f => f = entry
  mapped := fun ea => ea ≠ badAddr
  image := fun _ => v
  mapped_badAddr := by simp

structure Session.Recursive (s : Session) (address entry : Address) : Prop where
  own : s.cursor.address = address
  ready : s.cursor.hexraysReady = true
  kept : ∃ image, s.cursor.db = { recursive entry 0 with image := image }

theorem Session.Recursive.write {s : Session} {address entry : Address}
    (h : s.Recursive address entry) (w : Write) (v : UInt8) :
    (s.write w ⟨false, recursive entry v⟩).Recursive address entry ∧
      s.changed ⊆ (s.write w ⟨false, recursive entry v⟩).changed := by
  obtain heq | ⟨bytes, rfl, hne, hp, heq⟩ | ⟨level, changed, heq, hchanged⟩ :=
    s.write_cases w ⟨false, recursive entry v⟩
  · rw [heq]
    exact ⟨h, List.Subset.refl _⟩
  · rw [heq]
    exact ⟨⟨h.own, h.ready, _, rfl⟩, List.subset_append_right _ _⟩
  · obtain ⟨hdb, haddress, hready, -⟩ := LocationMut.queued_fields
      { s.cursor with db := recursive entry v } false level
    rw [heq]
    refine ⟨⟨haddress.trans h.own, hready.trans h.ready, _, hdb⟩, ?_⟩
    rcases hchanged with rfl | ⟨hacc, -⟩
    · exact List.Subset.refl _
    · exact absurd hacc (by simp)

theorem Session.Recursive.subset_writes {s : Session} {address entry : Address}
    (h : s.Recursive address entry) (ws : List Write) (v : UInt8) :
    (s.writes (ws.map (·, ⟨false, recursive entry v⟩))).Recursive address entry ∧
      s.changed ⊆ (s.writes (ws.map (·, ⟨false, recursive entry v⟩))).changed := by
  induction ws generalizing s with
  | nil => exact ⟨h, List.Subset.refl _⟩
  | cons w ws ih =>
      obtain ⟨hnext, hsub⟩ := h.write w v
      obtain ⟨hlast, hrest⟩ := ih hnext
      exact ⟨hlast, List.Subset.trans hsub hrest⟩

theorem Session.Recursive.image_write {s : Session} {address entry : Address}
    (h : s.Recursive address entry) (hentry : entry.raw = address.raw + 1) {w : Write}
    (hw : OneByte address w) {v : UInt8} (hv : s.cursor.db.image entry.raw = v) :
    (s.write w ⟨false, recursive entry v⟩).cursor.db.image entry.raw = v := by
  obtain heq | ⟨bytes, rfl, hne, hp, heq⟩ | ⟨level, changed, heq, hchanged⟩ :=
    s.write_cases w ⟨false, recursive entry v⟩
  · rw [heq]
    exact hv
  · have hone : bytes.length ≤ 1 := hw.resolve_right fun hend => by
      rw [h.own] at hp
      simp [s.cursor.db.patchBytes_eq_false address bytes hne hend] at hp
    rw [heq]
    show patched s.cursor.db.image s.cursor.address bytes entry.raw = v
    rw [patched, h.own, hentry, UInt64.add_comm, UInt64.add_sub_cancel, UInt64.add_comm, ← hentry, hv]
    simp [List.getElem?_eq_none hone]
  · rw [heq]
    show ((LocationMut.queued _ false level).db).image entry.raw = v
    rw [(LocationMut.queued_fields _ false level).1]
    rfl

theorem Session.Recursive.patchBytes {s : Session} {address entry : Address}
    (h : s.Recursive address entry) {bytes : List UInt8}
    (hlong : ¬ OneByte address (.patch bytes)) :
    s.cursor.db.patchBytes s.cursor.address bytes = true := by
  obtain ⟨image, hdb⟩ := h.kept
  obtain ⟨hlen, hend⟩ : 1 < bytes.length ∧
      address.raw.toNat + (bytes.length - 1) < badAddr.toNat := by
    simpa only [OneByte, not_or, Nat.not_le] using hlong
  have hbad : badAddr.toNat = 2 ^ 64 - 1 := rfl
  have hadd (i : ℕ) (hi : i < bytes.length) :
      (address.raw + .ofNat i).toNat = address.raw.toNat + i := by
    simp only [UInt64.toNat_add, UInt64.toNat_ofNat']
    omega
  have hnowrap : ¬ address.raw + .ofNat (bytes.length - 1) < address.raw := by
    rw [UInt64.lt_iff_toNat_lt, hadd _ (by omega)]
    omega
  rw [Database.patchBytes, h.own, if_neg (by rintro rfl; simp at hlen), if_neg hnowrap, hdb]
  apply List.all_eq_true.mpr
  intro i hi
  have hne : address.raw + .ofNat i ≠ badAddr := by
    intro heq
    have := hadd i (List.mem_range.mp hi)
    rw [heq] at this
    have := List.mem_range.mp hi
    omega
  simpa [recursive] using hne

theorem Session.Recursive.mem_changed_write {s : Session} {address entry : Address}
    (h : s.Recursive address entry) (hentry : entry.raw = address.raw + 1) {bytes : List UInt8}
    (hlong : ¬ OneByte address (.patch bytes)) {b : UInt8} (hb : bytes[1]? = some b)
    (hv : s.cursor.db.image entry.raw ≠ b) (r : Response) :
    entry ∈ (s.write (.patch bytes) r).changed := by
  obtain ⟨first, rest, rfl⟩ : ∃ first rest, bytes = first :: rest := by
    cases bytes with
    | nil => simp at hb
    | cons first rest => exact ⟨first, rest, rfl⟩
  rw [Session.write, if_pos (h.patchBytes hlong)]
  · apply List.mem_append_left
    rw [mem_changedBytes_iff, h.own]
    exact ⟨1, b, hb, hv, hentry⟩
  · simp

/-- Some image makes the first longer patch change the byte behind the cursor. -/
theorem exists_mem_changed {address entry : Address} (hentry : entry.raw = address.raw + 1)
    {ws : List Write} (hws : ∃ w ∈ ws, ¬ OneByte address w) :
    ∃ v, ∀ s : Session, s.Recursive address entry → s.cursor.db.image entry.raw = v →
      entry ∈ (s.writes (ws.map (·, ⟨false, recursive entry v⟩))).changed := by
  induction ws with
  | nil => simp at hws
  | cons w ws ih =>
      by_cases hw : OneByte address w
      · obtain ⟨v, hlater⟩ := ih (by simpa [hw] using hws)
        refine ⟨v, fun s hs hv => ?_⟩
        exact hlater _ (hs.write w v).1 (hs.image_write hentry hw hv)
      · obtain ⟨bytes, rfl⟩ : ∃ bytes, w = .patch bytes := by
          cases w <;> simp [OneByte] at hw ⊢
        have hlen : 1 < bytes.length := by
          by_contra hshort
          exact hw (.inl (Nat.le_of_not_lt hshort))
        -- Any byte but the one that the patch puts there will do.
        refine ⟨bytes[1] + 1, fun s hs hv => ?_⟩
        obtain ⟨hnext, -⟩ := hs.write (.patch bytes) (bytes[1] + 1)
        apply (hnext.subset_writes ws (bytes[1] + 1)).2
        apply hs.mem_changed_write hentry hw (List.getElem?_eq_getElem hlen)
        rw [hv]
        simp

theorem Session.Recursive.cached_drop {s : Session} {address entry : Address}
    (h : s.Recursive address entry) (hne : entry ≠ address) :
    s.cursor.drop.cached entry = true := by
  obtain ⟨image, hdb⟩ := h.kept
  have hbefore : s.cursor.db.cached entry = true := by simp [hdb, recursive]
  have hnone : s.cursor.db.xrefsTo address = [] := by simp [hdb, recursive, hne.symm]
  unfold LocationMut.drop
  rw [h.own, h.ready]
  split
  · split
    · exact hbefore
    · simp [Database.invalidateDecompilation, Database.markCfuncDirty, hne, hbefore]
    · rw [s.cursor.db.cached_invalidateDecompilationDependents_of_xrefsTo_eq_nil _ _ hnone hne,
        hbefore]
  · exact hbefore

/-- Evictions leave the functions and their references alone. -/
theorem LocationMut.drop_graph (c : LocationMut) :
    c.drop.xrefsTo = c.db.xrefsTo ∧ c.drop.funcStart = c.db.funcStart := by
  unfold LocationMut.drop
  split
  · split
    · simp
    · unfold Database.invalidateDecompilation
      split <;> simp [Database.markCfuncDirty]
    · unfold Database.invalidateDecompilationDependents
      split
      · obtain ⟨hx, hs, -⟩ :=
          (c.db.markCfuncDirty c.address).evictReferrers_spec [c.address] (c.db.xrefsTo c.address)
        exact ⟨hx, hs⟩
      · simp
  · simp

theorem Session.Recursive.not_clean_drop {s : Session} {address entry : Address}
    (h : s.Recursive address entry) (hne : entry ≠ address) (hmem : entry ∈ s.changed) :
    ¬ s.cursor.drop.Clean s.changed := by
  intro hclean
  obtain ⟨image, hdb⟩ := h.kept
  obtain ⟨hx, hs⟩ := s.cursor.drop_graph
  have hself : entry ∈ s.cursor.drop.xrefsTo entry := by simp [hx, hdb, recursive]
  have hstart : Address.tryNew (s.cursor.drop.funcStart entry) = some entry := by
    simp [hs, hdb, recursive, Address.tryNew, entry.valid]
  have hgone := hclean entry hmem entry hself entry hstart
  rw [h.cached_drop hne] at hgone
  contradiction

theorem exists_entry_of_not_oneByte {address : Address} {w : Write} (hw : ¬ OneByte address w) :
    ∃ entry : Address, entry.raw = address.raw + 1 ∧ entry ≠ address := by
  obtain ⟨bytes, rfl⟩ : ∃ bytes, w = .patch bytes := by
    cases w <;> simp [OneByte] at hw ⊢
  have hend : address.raw.toNat + 1 < badAddr.toNat := by
    simp only [OneByte, not_or, Nat.not_le] at hw
    omega
  have hbad : badAddr.toNat = 2 ^ 64 - 1 := rfl
  have hnext : (address.raw + 1).toNat = address.raw.toNat + 1 := by
    rw [UInt64.toNat_add, UInt64.toNat_one]
    omega
  refine ⟨⟨address.raw + 1, fun h => ?_⟩, rfl, fun h => ?_⟩
  · rw [h] at hnext
    omega
  · have hraw : (address.raw + 1).toNat = address.raw.toNat := congrArg (·.raw.toNat) h
    omega

/-! ### Stale decompilations -/

/-- A cursor whose writes change one byte at most leaves no function cached
that refers to what they changed, whatever the database and the kernel's
answers; and a cursor with one longer patch can leave one. -/
theorem clean_iff_oneByte (address : Address) (ws : List Write) :
    (∀ (db : Database) (script : List (Write × Response)), script.map Prod.fst = ws →
      ((db.atMut true address).writes script).cursor.drop.Clean
        ((db.atMut true address).writes script).changed) ↔
      ∀ w ∈ ws, OneByte address w := by
  constructor
  · intro hclean
    by_contra hlong
    have hlong : ∃ w ∈ ws, ¬ OneByte address w := by simpa using hlong
    obtain ⟨entry, hentry, hne⟩ := exists_entry_of_not_oneByte hlong.choose_spec.2
    obtain ⟨v, hmem⟩ := exists_mem_changed hentry hlong
    have hstart : ((recursive entry v).atMut true address).Recursive address entry :=
      ⟨rfl, rfl, _, rfl⟩
    apply (hstart.subset_writes ws v).1.not_clean_drop hne (hmem _ hstart rfl)
    apply hclean
    rw [List.map_map]
    exact List.map_id ws
  · rintro hone db script rfl
    have hstart : (db.atMut true address).Covered := ⟨rfl, rfl, by simp [Database.atMut], by
      simp [Database.atMut]⟩
    exact (hstart.writes fun p hp => hone p.1 (List.mem_map_of_mem hp)).clean_drop

/-- A function at `0x2000` reads the second byte of a constant at `0x1000`. -/
def readsConstant : Database where
  funcStart := fun a => if a.raw = 0x2010 then 0x2000 else badAddr
  xrefsTo := fun b => if b.raw = 0x1001 then [⟨0x2010, by decide⟩] else []
  cached := fun f => f.raw = 0x2000
  mapped := fun ea => ea ≠ badAddr
  image := fun _ => 0
  mapped_badAddr := by simp

/-- Behind a patch of both bytes of the constant its reader is still cached. -/
theorem not_clean_readsConstant :
    ¬ ((readsConstant.atMut true ⟨0x1000, by decide⟩).writes
        [(.patch [1, 2], ⟨true, readsConstant⟩)]).cursor.drop.Clean
      ((readsConstant.atMut true ⟨0x1000, by decide⟩).writes
        [(.patch [1, 2], ⟨true, readsConstant⟩)]).changed := by
  intro hclean
  have hgone := hclean ⟨0x1001, by decide⟩ (by decide) ⟨0x2010, by decide⟩ (by decide)
    ⟨0x2000, by decide⟩ (by decide)
  contradiction

end Idakit.Decompiler
