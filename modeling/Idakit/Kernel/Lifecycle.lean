import Idakit.Library.Transition
import Idakit.Types.Table
import Idakit.Decompiler.Ctree.Node

/-!
Sessions with the kernel, one after the other, and what is opened and closed
in them. The flags of a `Database` are the value's own; what they mirror
belongs to the process, and outlives it.

The kernel holds one open database at most: while it does, `open_database`
returns no zero. A closure of `with_open` is what is done until it returns,
fails or panics, and ends with the step `leave`.
-/

namespace Idakit.Kernel

open Idakit.Library Idakit.Types
open Idakit.Decompiler (Address)

inductive Event
  | opened
  | closed
  | released
  deriving DecidableEq

/-- The process-wide state of the library: whether a database is open, whether Hex-Rays was initialised
since that was opened, the functions with a cached decompilation, and what
happened. -/
structure Libida where
  isOpen : Bool
  initSince : Bool
  cfuncs : List Address
  log : List Event

/-- `Some` claim is that of an in-place database. -/
structure Database where
  hexraysReady : Bool
  isOpen : Bool
  claim : Bool

def Database.new : Database := ⟨false, false, false⟩

/-- An in-place database. -/
def Database.owned : Database := ⟨false, false, true⟩

/-- The library, the `Database` of the session if there is one, and how many
closures of `with_open` are running. -/
structure System where
  libida : Libida
  database : Option Database
  scopes : ℕ

def System.start : System := ⟨⟨false, false, [], []⟩, none, 0⟩

/-! ### Calls into the kernel -/

def exitTrapped : ℤ := -0x7FFFFFFF

def Libida.openDatabase (k : Libida) (rc : ℤ) : Libida :=
  if rc = 0 then { k with isOpen := true, initSince := false, log := k.log ++ [.opened] } else k

def Libida.closeDatabase (k : Libida) : Libida :=
  { k with isOpen := false, initSince := false, log := k.log ++ [.closed] }

def Libida.hexraysInit (k : Libida) (ok : Bool) : Libida :=
  if ok then { k with initSince := true } else k

/-! ### Operations of a database -/

/-- A call of `open`: its arguments, and what the kernel's `open_database` and
`auto_wait` return. -/
structure OpenCall where
  path : Text
  runAuto : Bool
  rc : ℤ
  autoWait : ℤ

inductive OpenError
  | interiorNul
  | kernelExit
  | open (rc : ℤ)

def Database.open (db : Database) (k : Libida) (c : OpenCall) :
    Except OpenError Unit × Database × Libida :=
  if Char.ofNat 0 ∈ c.path then (.error .interiorNul, db, k)
  else
    let k := k.openDatabase c.rc
    if c.rc = exitTrapped then (.error .kernelExit, db, k)
    else if c.rc ≠ 0 then (.error (.open c.rc), db, k)
    else
      -- before the analysis: a trap there leaves the database open
      let db := { db with isOpen := true }
      if c.runAuto ∧ c.autoWait = exitTrapped then (.error .kernelExit, db, k) else (.ok (), db, k)

def Database.clearDecompilationCache (db : Database) (k : Libida) : Libida :=
  if db.hexraysReady then { k with cfuncs := [] } else k

def Database.close (db : Database) (k : Libida) : Database × Libida :=
  if db.isOpen then
    ({ db with hexraysReady := false, isOpen := false },
      (db.clearDecompilationCache k).closeDatabase)
  else (db, k)

inductive DecompileError
  | hexRaysInit
  | kernelExit
  | decompile (address : Address)

def Database.decompile (db : Database) (k : Libida) (address : Address) (initOk : Bool)
    (outcome : Except Bool Unit) : Except DecompileError Unit × Database × Libida :=
  let k := if db.hexraysReady then k else k.hexraysInit initOk
  if db.hexraysReady = false ∧ initOk = false then (.error .hexRaysInit, db, k)
  else
    let db := { db with hexraysReady := true }
    match outcome with
    | .ok () => (.ok (), db, { k with cfuncs := address :: k.cfuncs })
    | .error true => (.error .kernelExit, db, k)
    | .error false => (.error (.decompile address), db, k)

/-! ### Runs -/

inductive SessionAction
  /-- Claim the kernel for a database in place. -/
  | here
  /-- Claim the kernel and start its pump. -/
  | run
  | open (c : OpenCall)
  | close
  /-- Enter a closure of `with_open`, if its database is opened. -/
  | withOpen (path : Text) (rc : ℤ)
  /-- The closure returned, failed or panicked. -/
  | leave
  | decompile (address : Address) (initOk : Bool) (outcome : Except Bool Unit)
  /-- Drop a database in place, and with it the claim. -/
  | drop
  /-- The pump ends, and the claim is released. -/
  | pumpEnds

/-- The kernel opens no second database. -/
def Libida.allows (k : Libida) (rc : ℤ) : Bool := !(k.isOpen && rc == 0)

def Libida.release (k : Libida) : Libida := { k with log := k.log ++ [.released] }

def System.step (s : System) : SessionAction → Option System
  | .here =>
      match s.database with
      | none => some { s with database := some .owned }
      | some _ => none
  | .run =>
      match s.database with
      | none => some { s with database := some .new }
      | some _ => none
  | .open c =>
      match s.database with
      | some db =>
          if s.libida.allows c.rc then
            let (_, db, k) := db.open s.libida c
            some { s with libida := k, database := some db }
          else none
      | none => none
  | .close =>
      match s.database with
      | some db =>
          let (db, k) := db.close s.libida
          some { s with libida := k, database := some db }
      | none => none
  | .withOpen path rc =>
      match s.database with
      | some db =>
          if s.libida.allows rc then
            match db.open s.libida ⟨path, false, rc, 0⟩ with
            | (.ok (), db, k) => some ⟨k, some db, s.scopes + 1⟩
            | (.error _, db, k) => some ⟨k, some db, s.scopes⟩
          else none
      | none => none
  | .leave =>
      match s.database, s.scopes with
      | some db, scopes + 1 =>
          let (db, k) := db.close s.libida
          some ⟨k, some db, scopes⟩
      | _, _ => none
  | .decompile address initOk outcome =>
      match s.database with
      | some db =>
          let (_, db, k) := db.decompile s.libida address initOk outcome
          some { s with libida := k, database := some db }
      | none => none
  | .drop =>
      match s.database, s.scopes with
      | some ⟨_, _, true⟩, 0 => some ⟨s.libida.release, none, 0⟩
      | _, _ => none
  | .pumpEnds =>
      match s.database, s.scopes with
      | some ⟨ready, isOpen, false⟩, 0 =>
          some ⟨((⟨ready, isOpen, false⟩ : Database).close s.libida).2.release, none, 0⟩
      | _, _ => none

/-! ### What the flags mirror -/

/-- A database is opened, then closed, before another one is opened or the
claim is released. -/
def discipline : Bool → Event → Option Bool
  | false, .opened => some true
  | true, .closed => some false
  | false, .released => some false
  | _, _ => none

/-- The flags tell what holds of the process, and nothing is left open. -/
structure System.Mirrors (s : System) : Prop where
  isOpen : ∀ db, s.database = some db → (db.isOpen = true ↔ s.libida.isOpen = true)
  ready : ∀ db, s.database = some db → db.hexraysReady = true →
    s.libida.isOpen = true ∧ s.libida.initSince = true
  none : s.database = none → s.libida.isOpen = false
  log : runSteps discipline false s.libida.log = some s.libida.isOpen

/-- The step drops no open database, and initialises no Hex-Rays where none is
open. -/
def System.Careful (s : System) : SessionAction → Prop
  | .drop => ∀ db, s.database = some db → db.isOpen = false
  | .decompile _ initOk _ => ∀ db, s.database = some db → db.hexraysReady = false →
      initOk = true → db.isOpen = true
  | _ => True

structure Mirrored (k : Libida) (db : Database) : Prop where
  isOpen : db.isOpen = k.isOpen
  ready : db.hexraysReady = true → k.isOpen = true ∧ k.initSince = true
  log : runSteps discipline false k.log = some k.isOpen

theorem System.mirrors_iff {s : System} {db : Database} (h : s.database = some db) :
    s.Mirrors ↔ Mirrored s.libida db := by
  constructor
  · intro hm
    refine ⟨?_, hm.ready db h, hm.log⟩
    rw [Bool.eq_iff_iff]
    exact hm.isOpen db h
  · intro hm
    refine ⟨fun db' h' => ?_, fun db' h' => ?_, fun h' => ?_, hm.log⟩
    · obtain rfl := Option.some.inj (h.symm.trans h')
      rw [hm.isOpen]
    · obtain rfl := Option.some.inj (h.symm.trans h')
      exact hm.ready
    · rw [h] at h'
      contradiction

theorem runSteps_discipline_append {log : List Event} {isOpen : Bool}
    (h : runSteps discipline false log = some isOpen) (e : Event) :
    runSteps discipline false (log ++ [e]) = discipline isOpen e := by
  rw [runSteps_append, h]
  cases he : discipline isOpen e <;> simp [runSteps, he]

theorem Mirrored.open {k : Libida} {db : Database} (h : Mirrored k db) {c : OpenCall}
    (hallows : k.allows c.rc = true) : Mirrored (db.open k c).2.2 (db.open k c).2.1 := by
  unfold Database.open
  split
  · exact h
  · by_cases hrc : c.rc = 0
    · -- The kernel had no open database, and so Hex-Rays was not ready.
      have hclosed : k.isOpen = false := by simpa [Libida.allows, hrc] using hallows
      have hready : db.hexraysReady = false := by
        rw [Bool.eq_false_iff]
        intro hr
        have hopen := (h.ready hr).1
        rw [hclosed] at hopen
        contradiction
      have hlog : runSteps discipline false (k.log ++ [.opened]) = some true := by
        rw [runSteps_discipline_append h.log, hclosed]
        rfl
      have hnext : Mirrored (k.openDatabase 0) { db with isOpen := true } :=
        ⟨rfl, fun hr => absurd hr (by simp [hready]), hlog⟩
      simp only [hrc, exitTrapped]
      split
      · contradiction
      · split
        · contradiction
        · split <;> exact hnext
    · have hsame : k.openDatabase c.rc = k := if_neg hrc
      simp only [hsame]
      split
      · exact h
      · exact h

theorem Mirrored.close {k : Libida} {db : Database} (h : Mirrored k db) :
    Mirrored (db.close k).2 (db.close k).1 ∧ (db.close k).2.isOpen = false := by
  unfold Database.close
  split
  · rename_i hopen
    have hlog : runSteps discipline false (k.log ++ [.closed]) = some false := by
      rw [runSteps_discipline_append h.log, ← h.isOpen, hopen]
      rfl
    have hsame : (db.clearDecompilationCache k).log = k.log := by
      unfold Database.clearDecompilationCache
      split <;> rfl
    refine ⟨⟨rfl, fun hr => ?_, ?_⟩, rfl⟩
    · simp at hr
    · show runSteps discipline false ((db.clearDecompilationCache k).log ++ [.closed]) = some false
      rw [hsame, hlog]
  · rename_i hopen
    refine ⟨h, ?_⟩
    rw [← h.isOpen]
    simpa using hopen

/-- Hex-Rays is ready, cannot be initialised, or is initialised. -/
theorem Database.decompile_cases (db : Database) (k : Libida) (address : Address) (initOk : Bool)
    (outcome : Except Bool Unit) :
    (db.hexraysReady = true ∧
      ∃ cfuncs, (db.decompile k address initOk outcome).2 = (db, { k with cfuncs := cfuncs })) ∨
    (db.hexraysReady = false ∧ initOk = false ∧
      (db.decompile k address initOk outcome).2 = (db, k)) ∨
    (db.hexraysReady = false ∧ initOk = true ∧
      ∃ cfuncs, (db.decompile k address initOk outcome).2 =
        ({ db with hexraysReady := true }, { k with initSince := true, cfuncs := cfuncs })) := by
  obtain ⟨ready, isOpen, claim⟩ := db
  unfold Database.decompile
  cases ready with
  | true =>
      refine .inl ⟨rfl, ?_⟩
      simp only [Bool.true_eq_false, false_and, if_false, if_true]
      split <;> exact ⟨_, rfl⟩
  | false =>
      cases initOk with
      | false => exact .inr (.inl ⟨rfl, rfl, rfl⟩)
      | true =>
          refine .inr (.inr ⟨rfl, rfl, ?_⟩)
          simp only [Bool.true_eq_false, and_false, if_false, Bool.false_eq_true]
          split <;> exact ⟨_, rfl⟩

theorem Mirrored.decompile_iff {k : Libida} {db : Database} (h : Mirrored k db) (address : Address)
    (initOk : Bool) (outcome : Except Bool Unit) :
    Mirrored (db.decompile k address initOk outcome).2.2
        (db.decompile k address initOk outcome).2.1 ↔
      (db.hexraysReady = false → initOk = true → db.isOpen = true) := by
  obtain ⟨hr, cfuncs, heq⟩ | ⟨hr, rfl, heq⟩ | ⟨hr, rfl, cfuncs, heq⟩ :=
    db.decompile_cases k address initOk outcome
  · rw [heq]
    refine ⟨fun _ hr' => absurd (hr.symm.trans hr') (by simp), fun _ => ?_⟩
    exact ⟨h.isOpen, h.ready, h.log⟩
  · rw [heq]
    exact ⟨fun _ _ hinit => absurd hinit (by simp), fun _ => h⟩
  · rw [heq]
    refine ⟨fun hm _ _ => ?_, fun hopen => ⟨h.isOpen, fun _ => ⟨?_, rfl⟩, h.log⟩⟩
    · exact h.isOpen.trans (hm.ready rfl).1
    · exact h.isOpen.symm.trans (hopen hr rfl)

/-! ### Steps and runs -/

theorem System.start_mirrors : System.start.Mirrors :=
  ⟨nofun, nofun, fun _ => rfl, rfl⟩

/-- What is left behind a session. -/
theorem mirrors_release_iff {k : Libida} (h : runSteps discipline false k.log = some k.isOpen) :
    System.Mirrors ⟨k.release, none, 0⟩ ↔ k.isOpen = false := by
  constructor
  · intro hm
    exact hm.none rfl
  · intro hclosed
    refine ⟨nofun, nofun, fun _ => hclosed, ?_⟩
    show runSteps discipline false (k.log ++ [.released]) = some k.isOpen
    rw [runSteps_discipline_append h, hclosed]
    rfl

theorem System.Mirrors.mirrored {s : System} {db : Database} (h : s.Mirrors)
    (hdb : s.database = some db) : Mirrored s.libida db := (System.mirrors_iff hdb).mp h

theorem mirrors_session_iff {k : Libida} {db : Database} {scopes : ℕ} :
    System.Mirrors ⟨k, some db, scopes⟩ ↔ Mirrored k db := System.mirrors_iff rfl

/-- From a state that mirrors the process, the careful steps and no others
lead to one. -/
theorem System.mirrors_step_iff (s : System) (a : SessionAction) (s' : System) (h : s.Mirrors)
    (hstep : s.step a = some s') : s'.Mirrors ↔ s.Careful a := by
  revert hstep
  fun_cases System.step s a with
  | case1 hnone =>
      rintro ⟨⟩
      refine iff_of_true (mirrors_session_iff.mpr ?_) trivial
      exact ⟨(h.none hnone).symm, fun hr => absurd hr (by simp [Database.owned]), h.log⟩
  | case3 hnone =>
      rintro ⟨⟩
      refine iff_of_true (mirrors_session_iff.mpr ?_) trivial
      exact ⟨(h.none hnone).symm, fun hr => absurd hr (by simp [Database.new]), h.log⟩
  | case5 c db hdb hallows result db' k hopen =>
      rintro ⟨⟩
      have hm := (h.mirrored hdb).open hallows
      rw [hopen] at hm
      exact iff_of_true (mirrors_session_iff.mpr hm) trivial
  | case8 db hdb db' k hclose =>
      rintro ⟨⟩
      have hm := (h.mirrored hdb).close.1
      rw [hclose] at hm
      exact iff_of_true (mirrors_session_iff.mpr hm) trivial
  | case10 path rc db hdb hallows db' k hopen =>
      rintro ⟨⟩
      have hm := (h.mirrored hdb).open (c := ⟨path, false, rc, 0⟩) hallows
      rw [hopen] at hm
      exact iff_of_true (mirrors_session_iff.mpr hm) trivial
  | case11 path rc db hdb hallows e db' k hopen =>
      rintro ⟨⟩
      have hm := (h.mirrored hdb).open (c := ⟨path, false, rc, 0⟩) hallows
      rw [hopen] at hm
      exact iff_of_true (mirrors_session_iff.mpr hm) trivial
  | case14 db scopes _ hdb db' k hclose =>
      rintro ⟨⟩
      have hm := (h.mirrored hdb).close.1
      rw [hclose] at hm
      exact iff_of_true (mirrors_session_iff.mpr hm) trivial
  -- Only a decompilation and a drop can break the mirror.
  | case16 address initOk outcome db hdb result db' k hdecompile =>
      rintro ⟨⟩
      have hm := (h.mirrored hdb).decompile_iff address initOk outcome
      rw [hdecompile] at hm
      rw [mirrors_session_iff, hm]
      constructor
      · intro hcareful db' hdb'
        obtain rfl := Option.some.inj (hdb.symm.trans hdb')
        exact hcareful
      · intro hcareful
        exact hcareful db hdb
  | case18 ready isOpen _ hdb =>
      rintro ⟨⟩
      have hm := h.mirrored hdb
      rw [mirrors_release_iff hm.log, ← hm.isOpen]
      constructor
      · intro hclosed db hdb'
        obtain rfl := Option.some.inj (hdb.symm.trans hdb')
        exact hclosed
      · intro hcareful
        exact hcareful _ hdb
  | case20 ready isOpen _ hdb =>
      rintro ⟨⟩
      obtain ⟨hm, hclosed⟩ := (h.mirrored hdb).close
      exact iff_of_true ((mirrors_release_iff hm.log).mpr hclosed) trivial
  | _ =>
      intro hstep
      cases hstep

/-- In a run of sessions the flags tell what holds of the process in every
state, and every database opened is closed once before the next or the end of
its session, just if every step is careful. -/
theorem mirrors_iff_careful (actions : List SessionAction) (s : System)
    (hrun : runSteps System.step System.start actions = some s) :
    (∀ as as' t, actions = as ++ as' → runSteps System.step System.start as = some t → t.Mirrors) ↔
      ∀ as a as' t, actions = as ++ a :: as' → runSteps System.step System.start as = some t →
        t.Careful a :=
  forall_good_iff System.mirrors_step_iff System.start_mirrors hrun

def granted : OpenCall := ⟨"a.i64".toList, false, 0, 1⟩

/-- A session that closes its database, opens another one for a closure that
decompiles, is trapped at its second function and panics, and is dropped. -/
def twoDatabases : List SessionAction :=
  [.here, .open granted, .close, .withOpen "b.i64".toList 0,
    .decompile ⟨0x1000, by decide⟩ true (.ok ()), .decompile ⟨0x2000, by decide⟩ true (.error true),
    .leave, .drop]

theorem mirrors_iff_careful_twoDatabases :
    ∃ s, runSteps System.step System.start twoDatabases = some s ∧
      ((∀ as as' t, twoDatabases = as ++ as' →
        runSteps System.step System.start as = some t → t.Mirrors) ↔
      ∀ as a as' t, twoDatabases = as ++ a :: as' →
        runSteps System.step System.start as = some t → t.Careful a) :=
  ⟨_, rfl, mirrors_iff_careful _ _ rfl⟩

/-- A session that drops its database open. -/
theorem not_mirrors_dropped :
    ∃ s, runSteps System.step System.start [.here, .open granted, .drop] = some s ∧
      s.libida.isOpen = true ∧ ¬ s.Mirrors := by
  refine ⟨_, rfl, rfl, fun h => ?_⟩
  have hclosed := h.none rfl
  contradiction

end Idakit.Kernel
