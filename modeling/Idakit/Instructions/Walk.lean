import Idakit.Instructions.Operands
import Idakit.Library.Iterator
import Idakit.Library.Tiling
import Idakit.Search.Matches

/-!
The lazy walks over the code of a database: one over a range, one over the
chunks of a function. Both step from item to item and yield what is code and
decodes. Wherever the items end, each step leads closer to the end of the
range, so that both walks come to an end, and the one over chunks yields what
the other one yields of each.
-/

namespace Idakit.Instructions

open Idakit.Library
open Idakit.Decompiler (Address)

/-! ### The database -/

/-- Addresses are ordered as the numbers they stand for. -/
instance : LinearOrder Address :=
  LinearOrder.lift' (fun address => address.raw.toNat) fun _ _ h =>
    Address.raw_inj (UInt64.toNat_inj.mp h)

theorem address_lt_iff {a b : Address} : a < b ↔ a.raw.toNat < b.raw.toNat := Iff.rfl

def msCls : UInt64 := 0x600
def ffCode : UInt64 := 0x600
def ffData : UInt64 := 0x400
def ffTail : UInt64 := 0x200

inductive ByteClass
  | unknown | tail | data | code
  deriving DecidableEq

def ByteClass.fromFlags (flags : UInt64) : ByteClass :=
  if flags &&& msCls = ffCode then .code
  else if flags &&& msCls = ffData then .data
  else if flags &&& msCls = ffTail then .tail
  else .unknown

/-- What the kernel says of an open database. Its decoder fails at an address
or returns an instruction there. -/
structure Database where
  getItemEnd : Address → UInt64
  getFlags : Address → UInt64
  rangeAllChunks : Address → List (UInt64 × UInt64)
  decode : Address → Outcome DecodeError Instruction
  decode_ne_panic : ∀ address, decode address ≠ .panic
  decode_address : ∀ address instruction, decode address = .ok instruction →
    instruction.address = address

namespace Database

variable (db : Database)

def byteClass (address : Address) : ByteClass := ByteClass.fromFlags (db.getFlags address)

def isCode (address : Address) : Bool := db.byteClass address == .code

/-- One past the item at an address, or the address itself at the top. -/
def itemEnd (address : Address) : Address :=
  (Address.tryNew (db.getItemEnd address)).getD address

def codeAt (address : Address) : Option Instruction :=
  if db.isCode address then
    match db.decode address with
    | .ok instruction => some instruction
    | _ => none
  else none

theorem codeAt_eq_some_iff {address : Address} {instruction : Instruction} :
    db.codeAt address = some instruction ↔
      instruction.address = address ∧ db.isCode address ∧ db.decode address = .ok instruction := by
  unfold codeAt
  constructor
  · intro h
    split at h
    · rename_i hcode
      split at h
      · rename_i i hdecode
        obtain rfl := Option.some.inj h
        exact ⟨db.decode_address _ _ hdecode, hcode, hdecode⟩
      · contradiction
    · contradiction
  · rintro ⟨-, hcode, hdecode⟩
    rw [if_pos hcode, hdecode]

end Database

/-- What is decoded stands at the address that was asked for. -/
theorem address_of_decode (p : Facade.Processor) {address : Address} {instruction : Instruction}
    (h : decode p address = .ok instruction) : instruction.address = address := by
  unfold decode classify at h
  split at h
  · obtain ⟨ops, -, h⟩ := Outcome.bind_eq_ok_iff.mp h
    obtain ⟨mask, -, h⟩ := Outcome.bind_eq_ok_iff.mp h
    obtain ⟨fpControl, -, h⟩ := Outcome.bind_eq_ok_iff.mp h
    rw [← Outcome.ok.inj h]
  · split_ifs at h

/-- A database of a processor whose instructions are decoded without a panic. -/
def Database.ofProcessor (p : Facade.Processor)
    (h : ∀ address, Instructions.decode p address ≠ .panic)
    (getItemEnd getFlags : Address → UInt64)
    (rangeAllChunks : Address → List (UInt64 × UInt64)) : Database where
  getItemEnd := getItemEnd
  getFlags := getFlags
  rangeAllChunks := rangeAllChunks
  decode := Instructions.decode p
  decode_ne_panic := h
  decode_address := fun _ _ => address_of_decode p

/-! ### The walk over a range -/

/-- `InstructionsIn`: the next item to look at, and the end of the range. -/
structure InstructionsIn where
  cursor : Address
  stop : Address

/-- Behind the item at an address, or at the end when it has no width. -/
def stepped (db : Database) (address stop : Address) : Address :=
  if address < db.itemEnd address then db.itemEnd address else stop

theorem lt_stepped (db : Database) {address stop : Address} (h : address < stop) :
    address < stepped db address stop := by
  unfold stepped
  split <;> assumption

/-- Every step leads closer to the end. -/
theorem stepped_gap_lt (db : Database) {address stop : Address} (h : address < stop) :
    stop.raw.toNat - (stepped db address stop).raw.toNat <
      stop.raw.toNat - address.raw.toNat := by
  have hlt := lt_stepped db h
  rw [address_lt_iff] at h hlt
  omega

namespace InstructionsIn

def next (db : Database) (walk : InstructionsIn) : Option Instruction × InstructionsIn :=
  if walk.cursor < walk.stop then
    match db.codeAt walk.cursor with
    | some instruction =>
        (some instruction, { walk with cursor := stepped db walk.cursor walk.stop })
    | none => next db { walk with cursor := stepped db walk.cursor walk.stop }
  else (none, walk)
termination_by walk.stop.raw.toNat - walk.cursor.raw.toNat
decreasing_by exact stepped_gap_lt db (by assumption)

end InstructionsIn

def instructionsIn (start stop : Address) : InstructionsIn := ⟨start, stop⟩

/-! ### The walk over the chunks of a function -/

structure FunctionChunk where
  start : Address
  stop : Address

/-- `FunctionChunks::new`: the chunks whose bounds are addresses. -/
def functionChunks (db : Database) (address : Address) : List FunctionChunk :=
  (db.rangeAllChunks address).filterMap fun r =>
    (Address.tryNew r.1).bind fun start => (Address.tryNew r.2).map fun stop => ⟨start, stop⟩

/-- `Instructions` of a function: the chunks still to come, and the next item
to look at with the end of its chunk. -/
structure FunctionInstructions where
  chunks : List FunctionChunk
  cursor : Option (Address × Address)

namespace FunctionInstructions

def room (walk : FunctionInstructions) : ℕ :=
  match walk.cursor with
  | some (address, stop) => stop.raw.toNat - address.raw.toNat
  | none => 0

def next (db : Database) (walk : FunctionInstructions) :
    Option Instruction × FunctionInstructions :=
  match _hcursor : walk.cursor.filter fun cursor => cursor.1 < cursor.2 with
  | some (address, stop) =>
      match db.codeAt address with
      | some instruction =>
          (some instruction, { walk with cursor := some (stepped db address stop, stop) })
      | none => next db { walk with cursor := some (stepped db address stop, stop) }
  | none =>
      match _hchunks : walk.chunks with
      | [] => (none, walk)
      | chunk :: chunks => next db ⟨chunks, some (chunk.start, chunk.stop)⟩
termination_by (walk.chunks.length, walk.room)
decreasing_by
  · obtain ⟨hcursor, hlt⟩ := Option.filter_eq_some_iff.mp _hcursor
    refine Prod.Lex.right _ ?_
    rw [room, room, hcursor]
    exact stepped_gap_lt db (of_decide_eq_true hlt)
  · refine Prod.Lex.left _ _ ?_
    rw [_hchunks]
    exact Nat.lt_succ_self _

end FunctionInstructions

def instructions (db : Database) (address : Address) : FunctionInstructions :=
  ⟨functionChunks db address, none⟩

/-! ### What the walks yield -/

def instructionsFrom (db : Database) (address stop : Address) : List Instruction :=
  if address < stop then
    (db.codeAt address).toList ++ instructionsFrom db (stepped db address stop) stop
  else []
termination_by stop.raw.toNat - address.raw.toNat
decreasing_by exact stepped_gap_lt db (by assumption)

theorem InstructionsIn.yields (db : Database) (address stop : Address) :
    Yields (next db) ⟨address, stop⟩ (instructionsFrom db address stop) := by
  induction address using instructionsFrom.induct db stop with
  | case1 address hlt ih =>
      rw [instructionsFrom, if_pos hlt]
      cases hcode : db.codeAt address with
      | some instruction =>
          refine .item ?_ ?_
          · rw [next, if_pos hlt, hcode]
          · rw [next, if_pos hlt, hcode]
            exact ih
      | none =>
          refine ih.congr ?_
          rw [next, if_pos hlt, hcode]
  | case2 address hge =>
      rw [instructionsFrom, if_neg hge]
      refine .done ?_
      rw [next, if_neg hge]

namespace FunctionInstructions

variable {db : Database} {chunks : List FunctionChunk}

theorem next_of_lt {address stop : Address} (h : address < stop) :
    next db ⟨chunks, some (address, stop)⟩ =
      match db.codeAt address with
      | some instruction => (some instruction, ⟨chunks, some (stepped db address stop, stop)⟩)
      | none => next db ⟨chunks, some (stepped db address stop, stop)⟩ := by
  have hfilter : (some (address, stop)).filter (fun cursor => cursor.1 < cursor.2) =
      some (address, stop) := by
    simp [h]
  rw [next]
  split
  · rename_i hsome
    rw [hfilter] at hsome
    obtain ⟨rfl, rfl⟩ := Prod.mk.inj (Option.some.inj hsome)
    rfl
  · rename_i hnone
    rw [hfilter] at hnone
    contradiction

/-- A chunk that is used up, or none before the first, gives way to the next. -/
theorem next_of_used {cursor : Option (Address × Address)}
    (h : (cursor.filter fun cursor => cursor.1 < cursor.2) = none) :
    next db ⟨chunks, cursor⟩ =
      match chunks with
      | [] => (none, ⟨[], cursor⟩)
      | chunk :: chunks => next db ⟨chunks, some (chunk.start, chunk.stop)⟩ := by
  rw [next]
  split
  · rename_i hsome
    rw [h] at hsome
    contradiction
  · cases chunks <;> rfl

/-- From within a chunk: the rest of it, then what comes once it is used up. -/
theorem yields_append {rest : List Instruction} {stop : Address}
    (hrest : ∀ address, ¬ address < stop → Yields (next db) ⟨chunks, some (address, stop)⟩ rest)
    (address : Address) :
    Yields (next db) ⟨chunks, some (address, stop)⟩
      (instructionsFrom db address stop ++ rest) := by
  induction address using instructionsFrom.induct db stop with
  | case1 address hlt ih =>
      rw [instructionsFrom, if_pos hlt]
      cases hcode : db.codeAt address with
      | some instruction =>
          refine .item ?_ ?_
          · rw [next_of_lt hlt, hcode]
          · rw [next_of_lt hlt, hcode]
            exact ih
      | none =>
          refine ih.congr ?_
          rw [next_of_lt hlt, hcode]
  | case2 address hge =>
      rw [instructionsFrom, if_neg hge]
      exact hrest address hge

/-- The chunks still to come, one after the other. -/
theorem yields_flatMap (db : Database) (chunks : List FunctionChunk)
    (cursor : Option (Address × Address))
    (h : (cursor.filter fun cursor => cursor.1 < cursor.2) = none) :
    Yields (next db) ⟨chunks, cursor⟩
      (chunks.flatMap fun chunk => instructionsFrom db chunk.start chunk.stop) := by
  induction chunks generalizing cursor with
  | nil =>
      refine .done ?_
      rw [next_of_used h]
  | cons chunk chunks ih =>
      refine (yields_append (fun address hge => ?_) chunk.start).congr (next_of_used h)
      exact ih (some (address, chunk.stop)) (by simp [not_lt.mp hge])

end FunctionInstructions

/-! ### The instructions of a range -/

section

variable {db : Database} {address stop : Address} {instruction : Instruction}

/-- They stand in the range, and on code that decodes to them. -/
theorem mem_instructionsFrom (h : instruction ∈ instructionsFrom db address stop) :
    address ≤ instruction.address ∧ instruction.address < stop ∧
      db.codeAt instruction.address = some instruction := by
  induction address using instructionsFrom.induct db stop with
  | case1 address hlt ih =>
      rw [instructionsFrom, if_pos hlt, List.mem_append, Option.mem_toList] at h
      obtain hcode | hbehind := h
      · obtain ⟨rfl, -, -⟩ := db.codeAt_eq_some_iff.mp hcode
        exact ⟨le_refl _, hlt, hcode⟩
      · obtain ⟨hle, hrest⟩ := ih hbehind
        exact ⟨le_trans (le_of_lt (lt_stepped db hlt)) hle, hrest⟩
  | case2 address hge =>
      rw [instructionsFrom, if_neg hge] at h
      contradiction

theorem instructionsFrom_pairwise (db : Database) (address stop : Address) :
    (instructionsFrom db address stop).Pairwise fun a b => a.address < b.address := by
  induction address using instructionsFrom.induct db stop with
  | case1 address hlt ih =>
      rw [instructionsFrom, if_pos hlt]
      cases hcode : db.codeAt address with
      | some instruction =>
          refine List.pairwise_cons.mpr ⟨fun b hb => ?_, ih⟩
          obtain ⟨rfl, -, -⟩ := db.codeAt_eq_some_iff.mp hcode
          exact lt_of_lt_of_le (lt_stepped db hlt) (mem_instructionsFrom hb).1
      | none => exact ih
  | case2 address hge =>
      rw [instructionsFrom, if_neg hge]
      exact .nil

section

variable {heads : Set Address} {start : Address}

theorem stepped_of_tiles (htiles : Tiles heads db.itemEnd start stop) (h : address ∈ heads) :
    stepped db address stop = db.itemEnd address := by
  rw [stepped, if_pos (htiles.wide address h)]

theorem stepped_mem (htiles : Tiles heads db.itemEnd start stop) (h : address ∈ heads) :
    stepped db address stop < stop → stepped db address stop ∈ heads := by
  rw [stepped_of_tiles htiles h]
  exact htiles.finish_mem h

/-- Where items tile the range, the walk stands at heads only. -/
theorem head_mem_of_mem (htiles : Tiles heads db.itemEnd start stop)
    (haddress : address < stop → address ∈ heads)
    (h : instruction ∈ instructionsFrom db address stop) : instruction.address ∈ heads := by
  induction address using instructionsFrom.induct db stop with
  | case1 address hlt ih =>
      rw [instructionsFrom, if_pos hlt, List.mem_append, Option.mem_toList] at h
      obtain hcode | hbehind := h
      · obtain ⟨heq, -, -⟩ := db.codeAt_eq_some_iff.mp hcode
        rw [heq]
        exact haddress hlt
      · exact ih (stepped_mem htiles (haddress hlt)) hbehind
  | case2 address hge =>
      rw [instructionsFrom, if_neg hge] at h
      contradiction

/-- And it stands at each of them. -/
theorem mem_of_head_mem (htiles : Tiles heads db.itemEnd start stop)
    (haddress : address < stop → address ∈ heads)
    (hhead : instruction.address ∈ heads) (hle : address ≤ instruction.address)
    (hcode : db.codeAt instruction.address = some instruction) :
    instruction ∈ instructionsFrom db address stop := by
  have hstop : instruction.address < stop :=
    lt_of_lt_of_le (htiles.wide _ hhead) (htiles.within _ hhead).2
  induction address using instructionsFrom.induct db stop with
  | case1 address hlt ih =>
      have hmem := haddress hlt
      rw [instructionsFrom, if_pos hlt, List.mem_append, Option.mem_toList]
      by_cases hbehind : db.itemEnd address ≤ instruction.address
      · refine .inr (ih (stepped_mem htiles hmem) ?_)
        rwa [stepped_of_tiles htiles hmem]
      · -- The head lies in the tile that the walk stands at.
        rw [← htiles.eq_of_mem hmem hhead hle (not_le.mp hbehind)]
        exact .inl hcode
  | case2 address hge => exact absurd (lt_of_le_of_lt hle hstop) hge

end

end

structure WalksChunk (db : Database) (chunk : FunctionChunk) (part : List Instruction) : Prop where
  ascending : part.Pairwise fun a b => a.address < b.address
  inside : ∀ instruction ∈ part,
    chunk.start ≤ instruction.address ∧ instruction.address < chunk.stop
  /-- Where items tile the chunk, the heads of code that decode. -/
  complete : ∀ heads, Tiles heads db.itemEnd chunk.start chunk.stop → ∀ instruction,
    instruction ∈ part ↔ instruction.address ∈ heads ∧ db.isCode instruction.address ∧
      db.decode instruction.address = .ok instruction

theorem instructionsFrom_walksChunk (db : Database) (chunk : FunctionChunk) :
    WalksChunk db chunk (instructionsFrom db chunk.start chunk.stop) where
  ascending := instructionsFrom_pairwise db chunk.start chunk.stop
  inside := fun instruction h =>
    ⟨(mem_instructionsFrom h).1, (mem_instructionsFrom h).2.1⟩
  complete := by
    intro heads htiles instruction
    constructor
    · intro h
      obtain ⟨-, -, hcode⟩ := mem_instructionsFrom h
      obtain ⟨-, hyes, hdecode⟩ := db.codeAt_eq_some_iff.mp hcode
      exact ⟨head_mem_of_mem htiles htiles.start_mem h, hyes, hdecode⟩
    · rintro ⟨hhead, hyes, hdecode⟩
      exact mem_of_head_mem htiles htiles.start_mem hhead (htiles.within _ hhead).1
        (db.codeAt_eq_some_iff.mpr ⟨rfl, hyes, hdecode⟩)

/-- The walk over a function yields what the walks over its chunks yield, one
after the other. -/
theorem instructions_yields (db : Database) (address : Address) :
    ∃ parts, List.Forall₂
        (fun chunk part => WalksChunk db chunk part ∧
          Yields (InstructionsIn.next db) (instructionsIn chunk.start chunk.stop) part)
        (functionChunks db address) parts ∧
      Yields (FunctionInstructions.next db) (instructions db address) parts.flatten := by
  refine ⟨(functionChunks db address).map fun chunk =>
    instructionsFrom db chunk.start chunk.stop, ?_, ?_⟩
  · rw [List.forall₂_map_right_iff, List.forall₂_same]
    intro chunk _
    exact ⟨instructionsFrom_walksChunk db chunk, InstructionsIn.yields db chunk.start chunk.stop⟩
  · rw [← List.flatMap_def]
    exact FunctionInstructions.yields_flatMap db (functionChunks db address) none rfl

theorem decode_maskedProcessor_ne_panic (address : Address) :
    decode maskedProcessor address ≠ .panic := by
  refine (decodesSafely_of_covered fun insn hback => ?_).total
  cases hback.2
  exact .inl (by decide)

/-- One function of two masked instructions. -/
def maskedDatabase : Database :=
  .ofProcessor maskedProcessor decode_maskedProcessor_ne_panic
    (fun address => address.raw + 6) (fun _ => 0x600) fun _ => [(0x1000, 0x100c)]

theorem instructions_yields_masked :
    ∃ parts, List.Forall₂
        (fun chunk part => WalksChunk maskedDatabase chunk part ∧
          Yields (InstructionsIn.next maskedDatabase)
            (instructionsIn chunk.start chunk.stop) part)
        [⟨⟨0x1000, by decide⟩, ⟨0x100c, by decide⟩⟩] parts ∧
      Yields (FunctionInstructions.next maskedDatabase)
        (instructions maskedDatabase ⟨0x1000, by decide⟩) parts.flatten :=
  instructions_yields maskedDatabase ⟨0x1000, by decide⟩

end Idakit.Instructions
