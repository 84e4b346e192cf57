import Idakit.Types.Interning

/-!
The builder that a type walk streams its callbacks into. A named type
reserves its handle before its body arrives, so a member can point back at
it; `pending` keeps the handles whose bodies are still owed. A walk is
accepted on what the builder recorded: no scalar too wide, nothing pending.

A callback that fills or reads a handle past the arena panics, here `none`.
The hash maps are lists of pairs, read from the front.
-/

namespace Idakit.Types

inductive ExtractError
  | unknownExpressionTag (tag : ℕ)
  | badAddress
  | scalarTooWide (bytes : ℕ)
  | unfilledType (count : ℕ)
  deriving DecidableEq

structure MemberInfo where
  name : Text
  bitOffset : ℕ
  ty : TypeId
  /-- Zero for an ordinary field. -/
  bitfieldWidth : ℕ
  reprVtype : ℕ
  reprSigned : Bool
  reprLeadingZeros : Bool

structure EnumConstInfo where
  name : Text
  value : ℕ

inductive SinkCall
  | scalar (kind bytes signed size hasSize : ℕ)
  | ptr (target : TypeId) (size hasSize : ℕ)
  | array (elem : TypeId) (nelems size hasSize : ℕ)
  | func (ret : TypeId) (params : List TypeId) (vararg : ℕ)
  | opaqueNamed (name : Text)
  | namedRef (name : Text)
  | anon
  | fillStruct (id : TypeId) (isUnion : Bool) (members : List MemberInfo)
      (size hasSize : ℕ)
  | fillEnum (id underlying : TypeId) (consts : List EnumConstInfo) (size hasSize : ℕ)
      (isBitmask : Bool) (reprVtype : ℕ) (reprSigned reprLeadingZeros : Bool)
  | fillTypedef (id underlying : TypeId)

def SinkCall.handles : SinkCall → List TypeId
  | .scalar .. | .opaqueNamed _ | .namedRef _ | .anon => []
  | .ptr target _ _ => [target]
  | .array elem _ _ _ => [elem]
  | .func ret params _ => ret :: params
  | .fillStruct id _ members _ _ => id :: members.map MemberInfo.ty
  | .fillEnum id underlying .. => [id, underlying]
  | .fillTypedef id underlying => [id, underlying]

/-! ### Values -/

def optSize (size hasSize : ℕ) : Option ℕ :=
  if hasSize ≠ 0 then some size else none

def valueRepr (vtype : ℕ) (signed leadingZeros : Bool) : Option ValueRepr :=
  (NumberFormat.tryFrom vtype).map fun format => ⟨format, signed, leadingZeros⟩

def MemberInfo.toMember (m : MemberInfo) : TypeMember where
  name := m.name
  bitOffset := m.bitOffset
  ty := m.ty
  bitfieldWidth := if m.bitfieldWidth ≠ 0 then some m.bitfieldWidth else none
  repr := valueRepr m.reprVtype m.reprSigned m.reprLeadingZeros

def EnumConstInfo.toMember (c : EnumConstInfo) : EnumMember where
  name := c.name
  value := c.value

/-- The shape of a scalar kind; the kinds are void, bool, int and float. -/
def scalarShape (kind width signed : ℕ) : TypeShape :=
  match kind with
  | 1 => .void
  | 2 => .bool
  | 3 => .int width (signed != 0)
  | 4 => .float width
  | _ => .unknown

/-! ### The builder -/

structure TypeBuilder where
  table : TypeTable
  /-- Named types to their handles. -/
  name2type : List (Text × TypeId)
  /-- The placeholders still to be filled, with their names. -/
  pending : List (TypeId × Option Text)
  /-- The first scalar width that does not fit a `u8`. -/
  tooWide : Option ℕ

namespace TypeBuilder

def new : TypeBuilder := ⟨.new, [], [], none⟩

def intern (b : TypeBuilder) (data : TypeValue) : TypeId × TypeBuilder :=
  let (id, table) := b.table.intern data
  (id, { b with table })

def fill (b : TypeBuilder) (id : TypeId) (data : TypeValue) : Option TypeBuilder :=
  (b.table.fill id data).map fun table => { b with table }

def typeSize (b : TypeBuilder) (id : TypeId) : Option (Option ℕ) :=
  (b.table.get id).map TypeValue.size

def scalar (b : TypeBuilder) (kind bytes signed size hasSize : ℕ) : TypeId × TypeBuilder :=
  let (width, tooWide) :=
    if bytes < 256 then (bytes, b.tooWide) else (0, b.tooWide.or (some bytes))
  { b with tooWide }.intern ⟨scalarShape kind width signed, optSize size hasSize⟩

def reserve (b : TypeBuilder) (name : Option Text) : TypeId × TypeBuilder :=
  let (id, table) := b.table.allocPlaceholder
  (id, { b with table, pending := (id, name) :: b.pending.filter fun p => p.1 != id })

/-- Reserve a named type's handle once for all references to it. -/
def namedRef (b : TypeBuilder) (name : Text) : TypeId × TypeBuilder :=
  match b.name2type.lookup name with
  | some id => (id, b)
  | none =>
      let (id, b) := b.reserve (some name)
      (id, { b with name2type := (name, id) :: b.name2type })

def anon (b : TypeBuilder) : TypeId × TypeBuilder := b.reserve none

def takeName (b : TypeBuilder) (id : TypeId) : Option Text × TypeBuilder :=
  ((b.pending.lookup id).join, { b with pending := b.pending.filter fun p => p.1 != id })

def fillStruct (b : TypeBuilder) (id : TypeId) (isUnion : Bool) (members : List TypeMember)
    (size hasSize : ℕ) : Option TypeBuilder :=
  let (name, b) := b.takeName id
  let shape := if isUnion then .union name members else .struct name members
  b.fill id ⟨shape, optSize size hasSize⟩

def fillEnum (b : TypeBuilder) (id underlying : TypeId) (members : List EnumMember)
    (size hasSize : ℕ) (isBitmask : Bool) (reprVtype : ℕ)
    (reprSigned reprLeadingZeros : Bool) : Option TypeBuilder :=
  let (name, b) := b.takeName id
  let repr := valueRepr reprVtype reprSigned reprLeadingZeros
  b.fill id ⟨.enum name underlying members isBitmask repr, optSize size hasSize⟩

/-- A typedef adopts its target's size. -/
def fillTypedef (b : TypeBuilder) (id underlying : TypeId) : Option TypeBuilder := do
  let (name, b) := b.takeName id
  let size ← b.typeSize underlying
  b.fill id ⟨.typedef (name.getD []) underlying, size⟩

def unfilled (b : TypeBuilder) : ℕ := b.pending.length

/-- One callback: the handle it returns, if it returns one, and the builder
after it. -/
def call (b : TypeBuilder) : SinkCall → Option (Option TypeId × TypeBuilder)
  | .scalar kind bytes signed size hasSize =>
      let (id, b) := b.scalar kind bytes signed size hasSize
      some (some id, b)
  | .ptr target size hasSize =>
      let (id, b) := b.intern ⟨.ptr target, optSize size hasSize⟩
      some (some id, b)
  | .array elem nelems size hasSize =>
      let (id, b) := b.intern ⟨.array elem nelems, optSize size hasSize⟩
      some (some id, b)
  | .func ret params vararg =>
      let (id, b) := b.intern ⟨.function ret params (vararg != 0), none⟩
      some (some id, b)
  | .opaqueNamed name =>
      let (id, b) := b.intern ⟨.opaqueNamed name, none⟩
      some (some id, b)
  | .namedRef name =>
      let (id, b) := b.namedRef name
      some (some id, b)
  | .anon =>
      let (id, b) := b.anon
      some (some id, b)
  | .fillStruct id isUnion members size hasSize =>
      (b.fillStruct id isUnion (members.map MemberInfo.toMember) size hasSize).map (none, ·)
  | .fillEnum id underlying consts size hasSize isBitmask reprVtype signed leadingZeros =>
      (b.fillEnum id underlying (consts.map EnumConstInfo.toMember) size hasSize isBitmask
        reprVtype signed leadingZeros).map (none, ·)
  | .fillTypedef id underlying => (b.fillTypedef id underlying).map (none, ·)

def run (b : TypeBuilder) : List SinkCall → Option (List TypeId × TypeBuilder)
  | [] => some ([], b)
  | c :: cs => do
      let (handle, b) ← b.call c
      let (handles, b) ← b.run cs
      return (handle.toList ++ handles, b)

end TypeBuilder

namespace TypeBuilder

/-- What is asked of every callback and of the builder it is made on holds
along a sequence of them. -/
def Along (p : TypeBuilder → SinkCall → Prop) (b : TypeBuilder) : List SinkCall → Prop
  | [] => True
  | c :: cs =>
      p b c ∧
        match b.call c with
        | some (_, b) => b.Along p cs
        | none => True

theorem run_cons_eq_some_iff {b b' : TypeBuilder} {c : SinkCall} {cs : List SinkCall}
    {handles : List TypeId} :
    b.run (c :: cs) = some (handles, b') ↔
      ∃ handle middle rest, b.call c = some (handle, middle) ∧
        middle.run cs = some (rest, b') ∧ handles = handle.toList ++ rest := by
  rw [run]
  constructor
  · intro h
    obtain ⟨⟨handle, middle⟩, hcall, h⟩ := Option.bind_eq_some_iff.mp h
    obtain ⟨⟨rest, last⟩, hrest, heq⟩ := Option.bind_eq_some_iff.mp h
    cases heq
    exact ⟨handle, middle, rest, hcall, hrest, rfl⟩
  · rintro ⟨handle, middle, rest, hcall, hrest, rfl⟩
    simp [hcall, hrest]

theorem run_append {b b' last : TypeBuilder} {cs ds : List SinkCall}
    {handles handles' : List TypeId} (hcs : b.run cs = some (handles, b'))
    (hds : b'.run ds = some (handles', last)) :
    b.run (cs ++ ds) = some (handles ++ handles', last) := by
  induction cs generalizing b handles with
  | nil =>
      cases hcs
      exact hds
  | cons c cs ih =>
      obtain ⟨handle, middle, rest, hcall, hrest, rfl⟩ := run_cons_eq_some_iff.mp hcs
      rw [List.cons_append, List.append_assoc]
      exact run_cons_eq_some_iff.mpr ⟨handle, middle, _, hcall, ih hrest, rfl⟩

theorem along_append {p : TypeBuilder → SinkCall → Prop} {b b' : TypeBuilder}
    {cs ds : List SinkCall} {handles : List TypeId} (hrun : b.run cs = some (handles, b')) :
    b.Along p (cs ++ ds) ↔ b.Along p cs ∧ b'.Along p ds := by
  induction cs generalizing b handles with
  | nil =>
      cases hrun
      simp [Along]
  | cons c cs ih =>
      obtain ⟨handle, middle, rest, hcall, hrest, rfl⟩ := run_cons_eq_some_iff.mp hrun
      simp only [List.cons_append, Along, hcall, ih hrest, and_assoc]

end TypeBuilder

/-! ### What a callback does -/

def SinkCall.knownScalar : SinkCall → Bool
  | .scalar kind .. => decide (1 ≤ kind) && decide (kind ≤ 4)
  | _ => true

def TypeShape.isTypedef : TypeShape → Bool
  | .typedef _ _ => true
  | _ => false

namespace TypeBuilder

def fills (b : TypeBuilder) : SinkCall → Option (TypeId × TypeValue)
  | .fillStruct id isUnion members size hasSize =>
      let name := (b.pending.lookup id).join
      let members := members.map MemberInfo.toMember
      some (id, ⟨if isUnion then .union name members else .struct name members,
        optSize size hasSize⟩)
  | .fillEnum id underlying consts size hasSize isBitmask reprVtype signed leadingZeros =>
      let name := (b.pending.lookup id).join
      some (id, ⟨.enum name underlying (consts.map EnumConstInfo.toMember) isBitmask
        (valueRepr reprVtype signed leadingZeros), optSize size hasSize⟩)
  | .fillTypedef id underlying =>
      (b.typeSize underlying).map fun size =>
        (id, ⟨.typedef ((b.pending.lookup id).join.getD []) underlying, size⟩)
  | _ => none

/-- The four things a callback can do: share a value, find a named type's
handle again, reserve a handle, or fill one. -/
inductive Step (b : TypeBuilder) (c : SinkCall) : Option TypeId → TypeBuilder → Prop
  | share {data tooWide} (hchildren : ∀ child ∈ data.shape.children, child ∈ c.handles)
      (halias : data.shape.isTypedef = false)
      (hknown : c.knownScalar = true → data.shape ≠ .unknown) :
      Step b c (some (b.table.intern data).1)
        { b with table := (b.table.intern data).2, tooWide }
  | find {name id} (hfound : b.name2type.lookup name = some id) : Step b c (some id) b
  | reserve {name names} (hnames : ∀ p ∈ names, p ∈ b.name2type ∨ p.2 = b.table.len) :
      Step b c (some b.table.len) { (b.reserve name).2 with name2type := names }
  | fill {id data table} (hfills : b.fills c = some (id, data))
      (hfill : b.table.fill id data = some table) :
      Step b c none { b with table, pending := b.pending.filter fun p => p.1 != id }

theorem step_of_call {b b' : TypeBuilder} {c : SinkCall} {handle : Option TypeId}
    (h : b.call c = some (handle, b')) : Step b c handle b' := by
  cases c with
  | scalar kind bytes signed size hasSize =>
      have hknown : (SinkCall.scalar kind bytes signed size hasSize).knownScalar = true →
          ∀ width, scalarShape kind width signed ≠ .unknown := by
        intro hkind width
        have hrange : 1 ≤ kind ∧ kind ≤ 4 := by simpa [SinkCall.knownScalar] using hkind
        obtain rfl | rfl | rfl | rfl : kind = 1 ∨ kind = 2 ∨ kind = 3 ∨ kind = 4 := by omega
        all_goals exact fun h => nomatch h
      have hleaf (width : ℕ) : (scalarShape kind width signed).children = [] ∧
          (scalarShape kind width signed).isTypedef = false := by
        unfold scalarShape
        split <;> exact ⟨rfl, rfl⟩
      simp only [call, scalar, Option.some.injEq, Prod.mk.injEq] at h
      obtain ⟨rfl, rfl⟩ := h
      split
      · exact .share (by simp [(hleaf _).1]) (hleaf _).2 fun hkind => hknown hkind _
      · exact .share (by simp [(hleaf _).1]) (hleaf _).2 fun hkind => hknown hkind _
  | ptr target size hasSize | array elem nelems size hasSize | func ret params vararg
  | opaqueNamed name =>
      cases h
      exact .share (fun child hchild => hchild) rfl fun _ hshape => nomatch hshape
  | namedRef name =>
      simp only [call, namedRef] at h
      cases hfound : b.name2type.lookup name with
      | some id =>
          rw [hfound] at h
          cases h
          exact .find hfound
      | none =>
          rw [hfound] at h
          cases h
          refine .reserve fun p hp => ?_
          rcases List.mem_cons.mp hp with rfl | hp
          · exact .inr rfl
          · exact .inl hp
  | anon =>
      cases h
      exact .reserve fun p hp => .inl hp
  | fillStruct id isUnion members size hasSize =>
      obtain ⟨b'', h, hb'⟩ := Option.map_eq_some_iff.mp h
      obtain ⟨table, hfill, rfl⟩ := Option.map_eq_some_iff.mp h
      cases hb'
      exact .fill rfl hfill
  | fillEnum id underlying consts size hasSize isBitmask reprVtype signed leadingZeros =>
      obtain ⟨b'', h, hb'⟩ := Option.map_eq_some_iff.mp h
      obtain ⟨table, hfill, rfl⟩ := Option.map_eq_some_iff.mp h
      cases hb'
      exact .fill rfl hfill
  -- The size is the target's at this moment.
  | fillTypedef id underlying =>
      obtain ⟨b'', h, hb'⟩ := Option.map_eq_some_iff.mp h
      obtain ⟨size, hsize, h⟩ := Option.bind_eq_some_iff.mp h
      obtain ⟨table, hfill, rfl⟩ := Option.map_eq_some_iff.mp h
      cases hb'
      have hsize : b.typeSize underlying = some size := hsize
      exact .fill (by rw [fills, hsize]; rfl) hfill

/-- A callback fills a handle it passes, with children it passes, and never
with a placeholder. -/
theorem of_fills {b : TypeBuilder} {c : SinkCall} {id : TypeId} {data : TypeValue}
    (h : b.fills c = some (id, data)) :
    id ∈ c.handles ∧ (∀ child ∈ data.shape.children, child ∈ c.handles) ∧
      data.shape ≠ .unknown := by
  cases c with
  | fillStruct id' isUnion members size hasSize =>
      cases h
      have hmap : (members.map MemberInfo.toMember).map TypeMember.ty =
          members.map MemberInfo.ty := by
        rw [List.map_map]
        rfl
      refine ⟨List.mem_cons_self, fun child hchild => List.mem_cons_of_mem _ ?_, ?_⟩
      · rw [← hmap]
        cases isUnion <;> exact hchild
      · cases isUnion <;> exact fun h => nomatch h
  | fillEnum id' underlying =>
      cases h
      exact ⟨List.mem_cons_self, fun child hchild => List.mem_cons_of_mem _ hchild,
        fun h => nomatch h⟩
  | fillTypedef id' underlying =>
      obtain ⟨size, -, heq⟩ := Option.map_eq_some_iff.mp h
      cases heq
      exact ⟨List.mem_cons_self, fun child hchild => List.mem_cons_of_mem _ hchild,
        fun h => nomatch h⟩
  | _ => cases h

end TypeBuilder

end Idakit.Types
