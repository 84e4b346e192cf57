import Idakit.Library.KeyedMap
import Idakit.Library.LittleEndian
import Idakit.Library.Utf8
import Idakit.Types.Expr
import Mathlib.Data.List.TakeWhile

/-!
The hash of a netnode, from the typed store down to the kernel. A key is a
string of its own length above and ends at its first zero byte below; a value
is checked against the sizes that the kernel can keep, which reads a length of
zero as one to be measured and cuts what is too long.

The kernel's hash is a map from C strings that are not empty to values of one
byte to `MAXSPECSIZE`; what it answers to a write is part of the call.
-/

namespace Idakit.Netnode

open Idakit.Library Idakit.Types

/-! ### The kernel -/

def maxSpecSize : ℕ := 1024

/-- A C string that is not empty, without the zero behind it. -/
structure CString where
  bytes : List UInt8
  ne_nil : bytes ≠ []
  noNul : 0 ∉ bytes
  deriving DecidableEq

structure Stored where
  bytes : List UInt8
  pos : 1 ≤ bytes.length
  le_maxSpecSize : bytes.length ≤ maxSpecSize

abbrev Hash := CString → Option Stored

/-- What the kernel makes of a write: whether it grants it, and what it finds
behind the pointer of an empty value. -/
structure Answer where
  granted : Bool
  measured : List UInt8

def cString (bytes : List UInt8) : Option CString :=
  if h : bytes.takeWhile (· ≠ 0) = [] then none
  else some ⟨bytes.takeWhile (· ≠ 0), h, fun hmem => by simpa using List.mem_takeWhile_imp hmem⟩

def stored (answer : Answer) (data : List UInt8) : Option Stored :=
  let bytes := (if data = [] then answer.measured else data).take maxSpecSize
  if h : 1 ≤ bytes.length then some ⟨bytes, h, List.length_take_le _ _⟩ else none

def Hash.hashset (hash : Hash) (answer : Answer) (key : Option CString) (data : List UInt8) :
    Bool × Hash :=
  match key, stored answer data with
  | some k, some value =>
      if answer.granted then (true, Function.update hash k (some value)) else (false, hash)
  | _, _ => (false, hash)

/-- The kernel's `hashval`: the size of what is kept, and what fits a buffer. -/
def Hash.hashval (hash : Hash) (key : Option CString) (cap : ℕ) : Option (ℕ × List UInt8) :=
  (key.bind hash).map fun value => (value.bytes.length, value.bytes.take cap)

/-- The kernel's `hashdel`: whether something was there. -/
def Hash.hashdel (hash : Hash) (key : Option CString) : Bool × Hash :=
  match key with
  | some k => ((hash k).isSome, Function.update hash k none)
  | none => (false, hash)

/-! ### The facade -/

def cKey (key : Text) : Option CString := cString key.asBytes

def netnodeHashset (hash : Hash) (answer : Answer) (key : Text) (value : List UInt8) :
    Bool × Hash :=
  if value = [] then (false, hash)
  else if value.length > maxSpecSize then (false, hash)
  else hash.hashset answer (cKey key) value

/-- The integer is kept as its eight bytes. -/
def netnodeHashsetLong (hash : Hash) (answer : Answer) (key : Text) (value : UInt64) :
    Bool × Hash :=
  hash.hashset answer (cKey key) (toLeBytes 8 value.toNat)

/-- The bytes of the buffer, as far as the reported size goes. -/
def netnodeHashval (hash : Hash) (key : Text) : Option (List UInt8) :=
  (hash.hashval (cKey key) maxSpecSize).map fun (size, buf) =>
    buf.take (if size < maxSpecSize then size else maxSpecSize)

def netnodeHashdel (hash : Hash) (key : Text) : Bool × Hash := hash.hashdel (cKey key)

/-! ### Values -/

inductive NetnodeBytesError
  | empty
  | tooLarge (len cap : ℕ)
  deriving DecidableEq

def validate (value : List UInt8) : Except NetnodeBytesError (List UInt8) :=
  match value.length with
  | 0 => .error .empty
  | len => if len > maxSpecSize then .error (.tooLarge len maxSpecSize) else .ok value

class Persist (α : Type) where
  toNetnodeBytes : α → List UInt8
  fromNetnodeBytes : List UInt8 → Option α

/-- A native integer: its bytes, of which there must be as many again. -/
@[reducible] def persistLe {α : Type} (width : ℕ) (toNat : α → ℕ) (ofNat : ℕ → α) : Persist α where
  toNetnodeBytes a := toLeBytes width (toNat a)
  fromNetnodeBytes bytes := if bytes.length = width then some (ofNat (ofLeBytes bytes)) else none

instance : Persist UInt8 := persistLe 1 UInt8.toNat UInt8.ofNat
instance : Persist UInt16 := persistLe 2 UInt16.toNat UInt16.ofNat
instance : Persist UInt32 := persistLe 4 UInt32.toNat UInt32.ofNat
instance : Persist UInt64 := persistLe 8 UInt64.toNat UInt64.ofNat
instance : Persist Int8 := persistLe 1 (·.toUInt8.toNat) fun n => (UInt8.ofNat n).toInt8
instance : Persist Int16 := persistLe 2 (·.toUInt16.toNat) fun n => (UInt16.ofNat n).toInt16
instance : Persist Int32 := persistLe 4 (·.toUInt32.toNat) fun n => (UInt32.ofNat n).toInt32
instance : Persist Int64 := persistLe 8 (·.toUInt64.toNat) fun n => (UInt64.ofNat n).toInt64

instance : Persist Bool where
  toNetnodeBytes b := [if b then 1 else 0]
  fromNetnodeBytes
    | [b] => some (b != 0)
    | _ => none

instance : Persist Text where
  toNetnodeBytes s := s.asBytes
  fromNetnodeBytes := Utf8.decode

instance : Persist (List UInt8) where
  toNetnodeBytes bytes := bytes
  fromNetnodeBytes := some

/-! ### The node -/

inductive WriteError
  | invalidNetnodeBytes (source : NetnodeBytesError)
  | writeRejected (op : String) (address : UInt64)
  deriving DecidableEq

def checked (id : UInt64) (ok : Bool) (op : String) : Except WriteError Unit :=
  if ok then .ok () else .error (.writeRejected op id)

/-- What the caller asks of a node. The written type of `put` is its own. -/
inductive Call : Type 1
  | setHash (key : Text) (value : List UInt8) (answer : Answer)
  | put (α : Type) (persist : Persist α) (key : Text) (value : α) (answer : Answer)
  | setHashInteger (key : Text) (value : UInt64) (answer : Answer)
  | remove (key : Text)
  | clearHash (was : Bool)

inductive Result
  | written (result : Except WriteError Unit)
  | removed (was : Bool)

def Hash.setHash (h : Hash) (id : UInt64) (key : Text) (value : List UInt8) (answer : Answer) :
    Except WriteError Unit × Hash :=
  match validate value with
  | .error e => (.error (.invalidNetnodeBytes e), h)
  | .ok bytes =>
      let (ok, h) := netnodeHashset h answer key bytes
      (checked id ok "set_hash", h)

def Hash.put {α : Type} [Persist α] (h : Hash) (id : UInt64) (key : Text) (value : α)
    (answer : Answer) : Except WriteError Unit × Hash :=
  h.setHash id key (Persist.toNetnodeBytes value) answer

def Hash.setHashInteger (h : Hash) (id : UInt64) (key : Text) (value : UInt64) (answer : Answer) :
    Except WriteError Unit × Hash :=
  let (ok, h) := netnodeHashsetLong h answer key value
  (checked id ok "set_hash_integer", h)

def Hash.remove (h : Hash) (key : Text) : Bool × Hash := netnodeHashdel h key

/-- Delete all; whether any were set is for the kernel to say. -/
def Hash.clearHash (_ : Hash) (was : Bool) : Bool × Hash := (was, fun _ => none)

def Hash.hash (h : Hash) (key : Text) : Option (List UInt8) := netnodeHashval h key

def Hash.get (α : Type) [Persist α] (h : Hash) (key : Text) : Option α :=
  (h.hash key).bind Persist.fromNetnodeBytes

def Hash.contains (h : Hash) (key : Text) : Bool := (h.hash key).isSome

def Call.run (id : UInt64) (h : Hash) : Call → Result × Hash
  | .setHash key value answer =>
      let (result, h) := h.setHash id key value answer
      (.written result, h)
  | .put _ _ key value answer =>
      let (result, h) := h.put id key value answer
      (.written result, h)
  | .setHashInteger key value answer =>
      let (result, h) := h.setHashInteger id key value answer
      (.written result, h)
  | .remove key =>
      let (was, h) := h.remove key
      (.removed was, h)
  | .clearHash was =>
      let (was, h) := h.clearHash was
      (.removed was, h)

/-- What a call says it did to the map of its caller, by its result. -/
def Call.edit : Call → Result → Option (MapEdit Text (List UInt8))
  | .setHash key value _, .written (.ok ()) => some (.put key value)
  | .put _ _ key value _, .written (.ok ()) => some (.put key (Persist.toNetnodeBytes value))
  | .setHashInteger key value _, .written (.ok ()) => some (.put key (toLeBytes 8 value.toNat))
  | .remove key, _ => some (.remove key)
  | .clearHash _, _ => some .clear
  | _, _ => none

def Call.keys : Call → List Text
  | .setHash key _ _ => [key]
  | .put _ _ key _ _ => [key]
  | .setHashInteger key _ _ => [key]
  | .remove key => [key]
  | .clearHash _ => []

/-- A node's hash, and what its calls said they did, the last first. -/
structure Node where
  hash : Hash
  edits : List (MapEdit Text (List UInt8))

def Node.empty : Node := ⟨fun _ => none, []⟩

def Node.call (id : UInt64) (n : Node) (c : Call) : Node :=
  let (result, h) := c.run id n.hash
  ⟨h, (c.edit result).toList ++ n.edits⟩

def Node.after (id : UInt64) (calls : List Call) : Node := calls.foldl (Node.call id) .empty

/-! ### What reaches the kernel -/

def Hash.bytes (h : Hash) : CString → Option (List UInt8) := fun k => (h k).map (·.bytes)

theorem Hash.bytes_update (h : Hash) (k : CString) (value : Option Stored) :
    Hash.bytes (Function.update h k value) =
      Function.update h.bytes k (value.map (·.bytes)) := by
  funext k'
  by_cases hk : k' = k
  · subst hk
    simp [Hash.bytes]
  · simp [Hash.bytes, Function.update_of_ne hk]

/-- The buffer holds all that can be kept. -/
theorem Hash.hash_eq_readAt (h : Hash) (key : Text) :
    h.hash key = readAt cKey h.bytes key := by
  unfold Hash.hash netnodeHashval Hash.hashval readAt Hash.bytes
  cases cKey key with
  | none => rfl
  | some k =>
      cases hk : h k with
      | none => simp [hk]
      | some value =>
          have hle := value.le_maxSpecSize
          simp only [hk, Option.bind_some, Option.map_some]
          congr 1
          rw [List.take_of_length_le hle]
          apply List.take_of_length_le
          split <;> omega

/-- A value of a size that can be kept is kept as it is. -/
theorem stored_eq_some {answer : Answer} {data : List UInt8} (hpos : 1 ≤ data.length)
    (hle : data.length ≤ maxSpecSize) : ∃ value, stored answer data = some value ∧
      value.bytes = data := by
  have hne : data ≠ [] := by
    rintro rfl
    simp at hpos
  have htake : data.take maxSpecSize = data := List.take_of_length_le hle
  refine ⟨⟨data, hpos, hle⟩, ?_, rfl⟩
  simp [stored, hne, htake, hpos]

/-- A write of such a value is kept under its key, or refused. -/
theorem Hash.hashset_cases (h : Hash) (answer : Answer) (key : Option CString) {data : List UInt8}
    (hpos : 1 ≤ data.length) (hle : data.length ≤ maxSpecSize) :
    h.hashset answer key data = (false, h) ∨
    ∃ k h', key = some k ∧ h.hashset answer key data = (true, h') ∧
      h'.bytes = Function.update h.bytes k (some data) := by
  obtain ⟨value, hvalue, hbytes⟩ : ∃ value, stored answer data = some value ∧ value.bytes = data :=
    stored_eq_some hpos hle
  cases key with
  | none => exact .inl rfl
  | some k =>
      simp only [Hash.hashset, hvalue]
      by_cases hgranted : answer.granted
      · refine .inr ⟨k, _, rfl, if_pos hgranted, ?_⟩
        rw [Hash.bytes_update, Option.map_some, hbytes]
      · exact .inl (if_neg hgranted)

/-- A setter is refused and changes nothing, or keeps the bytes under the key. -/
def Kept (h : Hash) (key : Text) (value : List UInt8)
    (outcome : Except WriteError Unit × Hash) : Prop :=
  (∃ e, outcome = (.error e, h)) ∨
    ∃ k h', cKey key = some k ∧ outcome = (.ok (), h') ∧
      h'.bytes = Function.update h.bytes k (some value)

theorem kept_of_hashset {h : Hash} {id : UInt64} {key : Text} {value : List UInt8}
    {answer : Answer} {op : String} (hpos : 1 ≤ value.length) (hle : value.length ≤ maxSpecSize) :
    Kept h key value (checked id (h.hashset answer (cKey key) value).1 op,
      (h.hashset answer (cKey key) value).2) := by
  obtain heq | ⟨k, h', hk, heq, hbytes⟩ := h.hashset_cases answer (cKey key) hpos hle
  · rw [heq]
    exact .inl ⟨_, rfl⟩
  · rw [heq]
    exact .inr ⟨k, h', hk, rfl, hbytes⟩

theorem Hash.setHash_kept (h : Hash) (id : UInt64) (key : Text) (value : List UInt8)
    (answer : Answer) : Kept h key value (h.setHash id key value answer) := by
  unfold Hash.setHash validate
  split
  · rename_i e he
    exact .inl ⟨_, rfl⟩
  · rename_i bytes hbytes
    split at hbytes
    · contradiction
    · rename_i len hlen
      split at hbytes
      · contradiction
      · rename_i hle
        obtain rfl := Except.ok.inj hbytes
        have hne : value ≠ [] := by
          rintro rfl
          exact hlen rfl
        have hpos : 1 ≤ value.length := List.length_pos_iff.mpr hne
        simp only [netnodeHashset, if_neg hne, if_neg hle]
        exact kept_of_hashset hpos (Nat.le_of_not_lt hle)

theorem Hash.setHashInteger_kept (h : Hash) (id : UInt64) (key : Text) (value : UInt64)
    (answer : Answer) :
    Kept h key (toLeBytes 8 value.toNat) (h.setHashInteger id key value answer) :=
  kept_of_hashset (by simp) (by simp [maxSpecSize])

/-- What a call did is what its result says. -/
theorem Call.run_cases (id : UInt64) (h : Hash) (c : Call) :
    (c.edit (c.run id h).1 = none ∧ (c.run id h).2 = h) ∨
    ∃ edit, c.edit (c.run id h).1 = some edit ∧ (c.run id h).2.bytes = edit.apply cKey h.bytes ∧
      ∀ keys : Set Text, (∀ key ∈ c.keys, key ∈ keys) → edit.Within cKey keys := by
  cases c with
  | setHash key value answer =>
      obtain ⟨e, heq⟩ | ⟨k, h', hk, heq, hbytes⟩ := h.setHash_kept id key value answer
      · exact .inl (by simp [Call.run, heq, Call.edit])
      · refine .inr ⟨.put key value, by simp [Call.run, heq, Call.edit], ?_, ?_⟩
        · simp [Call.run, heq, hbytes, MapEdit.apply, hk]
        · exact fun keys hkeys => ⟨hkeys key (by simp [Call.keys]), by simp [hk]⟩
  | put α persist key value answer =>
      obtain ⟨e, heq⟩ | ⟨k, h', hk, heq, hbytes⟩ :=
        h.setHash_kept id key (persist.toNetnodeBytes value) answer
      · exact .inl (by simp [Call.run, Hash.put, heq, Call.edit])
      · refine .inr ⟨.put key (persist.toNetnodeBytes value),
          by simp [Call.run, Hash.put, heq, Call.edit], ?_, ?_⟩
        · simp [Call.run, Hash.put, heq, hbytes, MapEdit.apply, hk]
        · exact fun keys hkeys => ⟨hkeys key (by simp [Call.keys]), by simp [hk]⟩
  | setHashInteger key value answer =>
      obtain ⟨e, heq⟩ | ⟨k, h', hk, heq, hbytes⟩ := h.setHashInteger_kept id key value answer
      · exact .inl (by simp [Call.run, heq, Call.edit])
      · refine .inr ⟨.put key (toLeBytes 8 value.toNat), by simp [Call.run, heq, Call.edit], ?_, ?_⟩
        · simp [Call.run, heq, hbytes, MapEdit.apply, hk]
        · exact fun keys hkeys => ⟨hkeys key (by simp [Call.keys]), by simp [hk]⟩
  | remove key =>
      refine .inr ⟨.remove key, rfl, ?_, fun keys hkeys => hkeys key (by simp [Call.keys])⟩
      simp only [Call.run, Hash.remove, netnodeHashdel, Hash.hashdel, MapEdit.apply]
      cases cKey key with
      | none => rfl
      | some k => exact Hash.bytes_update h k none
  | clearHash was => exact .inr ⟨.clear, rfl, rfl, fun _ _ => trivial⟩

/-- A call that returns an error changes nothing. -/
theorem Call.run_of_error {id : UInt64} {h : Hash} {c : Call} {e : WriteError}
    (he : (c.run id h).1 = .written (.error e)) : (c.run id h).2 = h := by
  obtain ⟨-, hsame⟩ | ⟨edit, hedit, -⟩ := c.run_cases id h
  · exact hsame
  · rw [he] at hedit
    cases c with
    | remove key => simp [Call.run] at he
    | clearHash was => simp [Call.run] at he
    | _ => simp [Call.edit] at hedit

/-! ### Histories -/

def Node.Reads (n : Node) (keys : Set Text) : Prop :=
  ∀ key ∈ keys, n.hash.hash key = lastWritten key n.edits

theorem Node.Reads.call {n : Node} {keys : Set Text} (h : n.Reads keys)
    (hsep : Separates cKey keys) (id : UInt64) {c : Call} (hc : ∀ key ∈ c.keys, key ∈ keys) :
    (n.call id c).Reads keys := by
  obtain ⟨hnone, hsame⟩ | ⟨edit, hedit, hbytes, hwithin⟩ := c.run_cases id n.hash
  · have heq : n.call id c = n := by
      simp [Node.call, hnone, hsame]
    rw [heq]
    exact h
  · have heq : n.call id c = ⟨(c.run id n.hash).2, edit :: n.edits⟩ := by
      simp [Node.call, hedit]
    intro key hkey
    rw [heq, Hash.hash_eq_readAt, hbytes]
    refine readAt_apply hsep (hwithin keys hc) (fun key' hkey' => ?_) key hkey
    rw [← Hash.hash_eq_readAt]
    exact h key' hkey'

theorem Node.Reads.calls {n : Node} {keys : Set Text} (h : n.Reads keys)
    (hsep : Separates cKey keys) (id : UInt64) {calls : List Call}
    (hcalls : ∀ c ∈ calls, ∀ key ∈ c.keys, key ∈ keys) :
    (calls.foldl (Node.call id) n).Reads keys := by
  induction calls generalizing n with
  | nil => exact h
  | cons c calls ih =>
      apply ih (h.call hsep id (hcalls c List.mem_cons_self))
      exact fun c' hc' => hcalls c' (List.mem_cons_of_mem c hc')

theorem Node.empty_reads (keys : Set Text) : Node.empty.Reads keys := by
  intro key _
  rw [Hash.hash_eq_readAt, readAt]
  cases cKey key <;> rfl

/-- A granted write of one byte. -/
theorem after_setHash {id : UInt64} {key : Text} {k : CString} (hk : cKey key = some k) :
    (Node.after id [.setHash key [0] ⟨true, []⟩]).edits = [.put key [0]] := by
  obtain ⟨value, hvalue, -⟩ : ∃ value, stored ⟨true, []⟩ [0] = some value ∧ value.bytes = [0] :=
    stored_eq_some (by simp) (by simp [maxSpecSize])
  have hset : (Node.empty.hash.hashset ⟨true, []⟩ (some k) [0]).1 = true := by
    simp [Hash.hashset, hvalue]
  have hwritten : (Node.empty.hash.setHash id key [0] ⟨true, []⟩).1 = .ok () := by
    simp [Hash.setHash, validate, netnodeHashset, hk, maxSpecSize, hset, checked]
  show ((Call.setHash key [0] ⟨true, []⟩).edit
    (.written (Node.empty.hash.setHash id key [0] ⟨true, []⟩).1)).toList ++ [] = _
  rw [hwritten]
  rfl

theorem bytes_of_cKey {key : Text} {k : CString} (h : cKey key = some k) :
    k.bytes = key.asBytes.takeWhile (· ≠ 0) := by
  unfold cKey cString at h
  split at h
  · contradiction
  · rw [← Option.some.inj h]

/-- Keys without a zero are told apart. -/
theorem separates_of_noNul {keys : Set Text} (h : ∀ key ∈ keys, Char.ofNat 0 ∉ key) :
    Separates cKey keys := by
  have hwhole {key : Text} (hkey : key ∈ keys) : key.asBytes.takeWhile (· ≠ 0) = key.asBytes := by
    rw [List.takeWhile_eq_self_iff]
    intro b hb
    rw [decide_eq_true_eq]
    rintro rfl
    obtain ⟨c, hc, hzero⟩ := List.mem_flatMap.mp hb
    have hc' : String.utf8EncodeChar c = String.utf8EncodeChar (Char.ofNat 0) :=
      Utf8.encodeChar_of_mem hzero (by decide)
    exact h key hkey (Utf8.encodeChar_inj hc' ▸ hc)
  intro key hkey key' hkey' hsome heq
  obtain ⟨k, hk⟩ := Option.isSome_iff_exists.mp hsome
  have hbytes : key.asBytes = key'.asBytes := by
    rw [← hwhole hkey, ← hwhole hkey', ← bytes_of_cKey hk, bytes_of_cKey (heq ▸ hk)]
  have hlossy := congrArg Utf8.lossy hbytes
  rwa [Text.asBytes, Text.asBytes, Utf8.lossy_encode, Utf8.lossy_encode] at hlossy

/-- A node's hash is the map of its caller, in every history with the keys of
a set, just where no two keys of the set have one and the same string up to
the first zero, if that is not empty. -/
theorem reads_iff_separates (id : UInt64) (keys : Set Text) :
    (∀ calls : List Call, (∀ c ∈ calls, ∀ key ∈ c.keys, key ∈ keys) →
      (Node.after id calls).Reads keys ∧
      ∀ (c : Call) (e : WriteError),
        (c.run id (Node.after id calls).hash).1 = .written (.error e) →
        (c.run id (Node.after id calls).hash).2 = (Node.after id calls).hash) ↔
      Separates cKey keys := by
  constructor
  · intro h key hkey key' hkey' hsome heq
    by_contra hne
    obtain ⟨k, hk⟩ := Option.isSome_iff_exists.mp hsome
    obtain ⟨hreads, -⟩ := h [.setHash key [0] ⟨true, []⟩] (by simp [Call.keys, hkey])
    have hone := hreads key hkey
    have hother := hreads key' hkey'
    rw [Hash.hash_eq_readAt, after_setHash hk] at hone hother
    simp only [readAt, ← heq] at hone hother
    rw [hone] at hother
    simp [lastWritten, hne] at hother
  · intro hsep calls hcalls
    exact ⟨(Node.empty_reads keys).calls hsep id hcalls, fun c e => Call.run_of_error⟩

/-- A write to the key `a`, zero, `b`, and to no other. -/
def nulKey : List Call := [.setHash ['a', Char.ofNat 0, 'b'] [7] ⟨true, []⟩]

/-- What was written there is read under `a`. -/
theorem not_reads_nulKey :
    (Node.after 1 nulKey).hash.hash ['a'] = some [7] ∧ ¬ (Node.after 1 nulKey).Reads Set.univ := by
  have hread : (Node.after 1 nulKey).hash.hash ['a'] = some [7] := by decide
  refine ⟨hread, fun h => ?_⟩
  have hnone : lastWritten ['a'] (Node.after 1 nulKey).edits = none := by decide
  have heq := h ['a'] trivial
  rw [hread, hnone] at heq
  contradiction

/-! ### Typed values -/

/-- What is put is got, if the type reads its own bytes. -/
theorem Hash.get_put {α : Type} [Persist α] {h : Hash} {id : UInt64} {key : Text} {value : α}
    {answer : Answer}
    (hround : Persist.fromNetnodeBytes (Persist.toNetnodeBytes value) = some value)
    (hok : (h.put id key value answer).1 = .ok ()) :
    (h.put id key value answer).2.get α key = some value := by
  obtain ⟨e, heq⟩ | ⟨k, h', hk, heq, hbytes⟩ :=
    h.setHash_kept id key (Persist.toNetnodeBytes value) answer
  · rw [Hash.put, heq] at hok
    contradiction
  · rw [Hash.put, heq, Hash.get, Hash.hash_eq_readAt, readAt, hk, Option.bind_some, hbytes,
      Function.update_self, Option.bind_some, hround]

/-- The bytes of a native integer are as many as they should be, and those of
its value. -/
theorem persistLe_roundTrip {α : Type} {width : ℕ} {toNat : α → ℕ} {ofNat : ℕ → α}
    (hlt : ∀ a, toNat a < 256 ^ width) (hof : ∀ a, ofNat (toNat a) = a) (a : α) :
    (persistLe width toNat ofNat).fromNetnodeBytes
      ((persistLe width toNat ofNat).toNetnodeBytes a) = some a := by
  show (if (toLeBytes width (toNat a)).length = width then
    some (ofNat (ofLeBytes (toLeBytes width (toNat a)))) else none) = some a
  rw [toLeBytes_length, if_pos rfl, ofLeBytes_toLeBytes (hlt a), hof a]

theorem text_roundTrip (s : Text) :
    Persist.fromNetnodeBytes (Persist.toNetnodeBytes s) = some s :=
  Utf8.decode_eq_some_iff.mpr rfl

theorem bool_roundTrip (b : Bool) :
    Persist.fromNetnodeBytes (Persist.toNetnodeBytes b) = some b := by
  cases b <;> rfl

end Idakit.Netnode
