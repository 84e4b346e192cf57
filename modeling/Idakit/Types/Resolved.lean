import Idakit.Types.Builder

/-!
Resolving a type: a driver walks it into a fresh builder, and the table is
accepted when the builder has no scalar too wide and nothing pending. That
leaves no placeholder behind. An unknown entry can still come from a scalar
of an unknown kind, which is shared like any other value and owed by no one.
-/

namespace Idakit.Types

/-- What a walk driver does: the callbacks it makes and the root it reports,
if the type exists. -/
structure Driver where
  calls : List SinkCall
  root : Option TypeId

structure ResolvedType where
  types : TypeTable
  root : TypeId
  deriving DecidableEq

/-- Drive a walk into a resolved type; `ok none` when there is no such type. -/
def walkType (driver : Driver) : Option (Except ExtractError (Option ResolvedType)) := do
  let (_, b) ← TypeBuilder.new.run driver.calls
  match driver.root with
  | none => return .ok none
  | some root =>
      match b.tooWide with
      | some bytes => return .error (.scalarTooWide bytes)
      | none =>
          if b.unfilled ≠ 0 then return .error (.unfilledType b.unfilled)
          else return .ok (some ⟨b.table, root⟩)

/-- The root and all that it reaches are in range, and nothing there is
unknown. -/
def ResolvedType.WellFormed (t : ResolvedType) : Prop :=
  ∀ id, t.types.Reachable t.root id →
    id < t.types.len ∧ ∀ value, t.types.get id = some value → value.shape ≠ .unknown

/-! ### Honest drivers -/

/-- Every callback passes only handles of `handles` and those that earlier
callbacks returned. -/
def TypeBuilder.PassesReturned (b : TypeBuilder) (handles : List TypeId) :
    List SinkCall → Prop
  | [] => True
  | c :: cs =>
      (∀ h ∈ c.handles, h ∈ handles) ∧
        match b.call c with
        | some (handle, b) => b.PassesReturned (handle.toList ++ handles) cs
        | none => True

instance decidablePassesReturned (b : TypeBuilder) (handles : List TypeId) :
    (calls : List SinkCall) → Decidable (b.PassesReturned handles calls)
  | [] => .isTrue trivial
  | c :: cs =>
      have : Decidable (match b.call c with
          | some (handle, b) => b.PassesReturned (handle.toList ++ handles) cs
          | none => True) :=
        match b.call c with
        | some (handle, b) => decidablePassesReturned b (handle.toList ++ handles) cs
        | none => .isTrue trivial
      inferInstanceAs (Decidable (_ ∧ _))

/-- A driver passes, and reports, only handles that callbacks returned. -/
structure Driver.Honest (driver : Driver) : Prop where
  passes : TypeBuilder.new.PassesReturned [] driver.calls
  reports : ∀ root ∈ driver.root, ∀ handles b,
    TypeBuilder.new.run driver.calls = some (handles, b) → root ∈ handles

/-! ### What a walk keeps -/

namespace TypeTable

variable {table : TypeTable} {data : TypeValue}

theorem handlesInRange_new : new.HandlesInRange := by
  rw [handlesInRange_iff]
  simp [new]

theorem handlesInRange_alloc (h : table.HandlesInRange)
    (hdata : ∀ child ∈ data.shape.children, child < table.len) :
    (table.alloc data).2.HandlesInRange := by
  rw [handlesInRange_iff] at h ⊢
  rw [alloc_len]
  intro value hvalue child hchild
  rcases List.mem_append.mp hvalue with hvalue | hvalue
  · exact Nat.lt_succ_of_lt (h value hvalue child hchild)
  · rw [List.mem_singleton.mp hvalue] at hchild
    exact Nat.lt_succ_of_lt (hdata child hchild)

theorem handlesInRange_fill {later : TypeTable} {id : TypeId} (h : table.HandlesInRange)
    (hdata : ∀ child ∈ data.shape.children, child < table.len)
    (hfill : table.fill id data = some later) : later.HandlesInRange := by
  have hlen := fill_len hfill
  obtain ⟨-, rfl⟩ := fill_eq_some_iff.mp hfill
  rw [handlesInRange_iff] at h ⊢
  rw [hlen]
  intro value hvalue child hchild
  rcases List.mem_or_eq_of_mem_set hvalue with hvalue | rfl
  · exact h value hvalue child hchild
  · exact hdata child hchild

end TypeTable

/-- Every handle the builder holds or has handed out is in range, and every
unknown entry is pending. -/
structure TypeBuilder.Accounted (handles : List TypeId) (b : TypeBuilder) : Prop where
  inRange : b.table.HandlesInRange
  handles_lt : ∀ h ∈ handles, h < b.table.len
  names_lt : ∀ p ∈ b.name2type, p.2 < b.table.len
  shared_lt : ∀ value id, b.table.dedup.lookup value = some id → id < b.table.len
  unknown : ∀ id size, b.table.get id = some ⟨.unknown, size⟩ → id ∈ b.pending.map Prod.fst

namespace TypeBuilder

theorem accounted_new : Accounted [] new where
  inRange := TypeTable.handlesInRange_new
  handles_lt := by simp
  names_lt := by simp [new]
  shared_lt := by simp [new, TypeTable.new]
  unknown := by simp [new, TypeTable.new, TypeTable.get]

variable {handles : List TypeId} {b b' : TypeBuilder}

/-- Sharing a value that is not unknown. -/
theorem Accounted.share (h : Accounted handles b) {data : TypeValue} (tooWide : Option ℕ)
    (hdata : ∀ child ∈ data.shape.children, child < b.table.len)
    (hknown : data.shape ≠ .unknown) :
    Accounted ((b.table.intern data).1 :: handles)
      { b with table := (b.table.intern data).2, tooWide } := by
  -- The value is there already, or is a new entry at the end.
  rcases b.table.intern_cases data with ⟨id, hfound, heq⟩ | ⟨dedup, hdedup, heq⟩
  · rw [heq]
    refine { h with handles_lt := fun i hi => ?_ }
    rcases List.mem_cons.mp hi with rfl | hi
    · exact h.shared_lt data i hfound
    · exact h.handles_lt i hi
  · rw [heq]
    have hlen : (b.table.alloc data).2.len = b.table.len + 1 := TypeTable.alloc_len data
    constructor
    · exact TypeTable.handlesInRange_alloc h.inRange hdata
    · intro i hi
      refine lt_of_lt_of_eq ?_ hlen.symm
      rcases List.mem_cons.mp hi with rfl | hi
      · exact Nat.lt_succ_self _
      · exact Nat.lt_succ_of_lt (h.handles_lt i hi)
    · exact fun p hp => lt_of_lt_of_eq (Nat.lt_succ_of_lt (h.names_lt p hp)) hlen.symm
    · intro value i hi
      refine lt_of_lt_of_eq ?_ hlen.symm
      rcases hdedup value i hi with hold | rfl
      · exact Nat.lt_succ_of_lt (h.shared_lt value i hold)
      · exact Nat.lt_succ_self _
    · intro i size hget
      change (b.table.alloc data).2.get i = some ⟨.unknown, size⟩ at hget
      have hi : i < b.table.len + 1 := hlen ▸ TypeTable.lt_len_of_get hget
      rcases Nat.lt_succ_iff_lt_or_eq.mp hi with hi | rfl
      · rw [TypeTable.get_alloc_of_lt data hi] at hget
        exact h.unknown i size hget
      · rw [TypeTable.get_alloc_self] at hget
        exact absurd (congrArg TypeValue.shape (Option.some.inj hget)) hknown

/-- Reserving a handle, whatever names come to lead to it. -/
theorem Accounted.reserve (h : Accounted handles b) {name : Option Text}
    {names : List (Text × TypeId)} (hnames : ∀ p ∈ names, p ∈ b.name2type ∨ p.2 = b.table.len) :
    Accounted (b.table.len :: handles) { (b.reserve name).2 with name2type := names } := by
  have hlen : (b.table.alloc ⟨.unknown, none⟩).2.len = b.table.len + 1 := TypeTable.alloc_len _
  constructor
  · exact TypeTable.handlesInRange_alloc h.inRange (by simp [TypeShape.children])
  · intro i hi
    refine lt_of_lt_of_eq ?_ hlen.symm
    rcases List.mem_cons.mp hi with rfl | hi
    · exact Nat.lt_succ_self _
    · exact Nat.lt_succ_of_lt (h.handles_lt i hi)
  · intro p hp
    refine lt_of_lt_of_eq ?_ hlen.symm
    rcases hnames p hp with hold | hnew
    · exact Nat.lt_succ_of_lt (h.names_lt p hold)
    · exact hnew ▸ Nat.lt_succ_self _
  · exact fun value i hi => lt_of_lt_of_eq (Nat.lt_succ_of_lt (h.shared_lt value i hi)) hlen.symm
  · intro i size hget
    change (b.table.alloc ⟨.unknown, none⟩).2.get i = some ⟨.unknown, size⟩ at hget
    have hi : i < b.table.len + 1 := hlen ▸ TypeTable.lt_len_of_get hget
    rw [TypeBuilder.reserve, List.map_cons, List.mem_cons]
    rcases Nat.lt_succ_iff_lt_or_eq.mp hi with hi | rfl
    · rw [TypeTable.get_alloc_of_lt _ hi] at hget
      obtain ⟨p, hp, rfl⟩ := List.mem_map.mp (h.unknown i size hget)
      exact .inr (List.mem_map_of_mem (List.mem_filter.mpr ⟨hp, bne_iff_ne.mpr hi.ne⟩))
    · exact .inl rfl

/-- Filling a handle with a value that is not unknown. -/
theorem Accounted.fill (h : Accounted handles b) {id : TypeId} {data : TypeValue}
    {table : TypeTable} (hdata : ∀ child ∈ data.shape.children, child < b.table.len)
    (hknown : data.shape ≠ .unknown) (hfill : b.table.fill id data = some table) :
    Accounted handles { b with table, pending := b.pending.filter fun p => p.1 != id } := by
  have hlen := TypeTable.fill_len hfill
  constructor
  · exact TypeTable.handlesInRange_fill h.inRange hdata hfill
  · exact fun i hi => hlen ▸ h.handles_lt i hi
  · exact fun p hp => hlen ▸ h.names_lt p hp
  · intro value i hi
    have hold : b.table.dedup.lookup value = some i := by
      obtain ⟨-, rfl⟩ := TypeTable.fill_eq_some_iff.mp hfill
      exact hi
    exact hlen ▸ h.shared_lt value i hold
  · intro i size hget
    by_cases hi : i = id
    · subst hi
      rw [TypeTable.get_fill_self hfill] at hget
      exact absurd (congrArg TypeValue.shape (Option.some.inj hget)) hknown
    · rw [TypeTable.get_fill_of_ne hfill hi] at hget
      obtain ⟨p, hp, rfl⟩ := List.mem_map.mp (h.unknown i size hget)
      refine List.mem_map_of_mem (List.mem_filter.mpr ⟨hp, ?_⟩)
      simpa using hi

/-- A callback that passes handed-out handles, and no scalar of an unknown
kind, keeps the account. -/
theorem Accounted.call (h : Accounted handles b) {c : SinkCall} {handle : Option TypeId}
    (hpasses : ∀ i ∈ c.handles, i ∈ handles) (hkind : c.knownScalar = true)
    (hcall : b.call c = some (handle, b')) : Accounted (handle.toList ++ handles) b' := by
  have hlt : ∀ i ∈ c.handles, i < b.table.len := fun i hi => h.handles_lt i (hpasses i hi)
  cases step_of_call hcall with
  | share hchildren halias hknown =>
      exact h.share _ (fun child hchild => hlt child (hchildren child hchild)) (hknown hkind)
  | @find name id hfound =>
      refine { h with handles_lt := fun i hi => ?_ }
      rcases List.mem_cons.mp hi with rfl | hi
      · obtain ⟨A, B, heq, -⟩ := List.lookup_eq_some_iff.mp hfound
        exact h.names_lt (name, i) (by simp [heq])
      · exact h.handles_lt i hi
  | reserve hnames => exact h.reserve hnames
  | fill hfills hfill =>
      obtain ⟨-, hchildren, hknown⟩ := of_fills hfills
      exact h.fill (fun child hchild => hlt child (hchildren child hchild)) hknown hfill

/-- A whole walk keeps the account. -/
theorem Accounted.run (h : Accounted handles b) {calls : List SinkCall}
    {returned : List TypeId} (hpasses : b.PassesReturned handles calls)
    (hkinds : ∀ c ∈ calls, c.knownScalar = true)
    (hrun : b.run calls = some (returned, b')) : Accounted (returned ++ handles) b' := by
  induction calls generalizing b handles returned with
  | nil =>
      cases hrun
      exact h
  | cons c cs ih =>
      obtain ⟨handle, middle, rest, hcall, hrest, rfl⟩ :=
        TypeBuilder.run_cons_eq_some_iff.mp hrun
      obtain ⟨hc, hcs⟩ := hpasses
      rw [hcall] at hcs
      have hstep := h.call hc (hkinds c List.mem_cons_self) hcall
      have hall := ih hstep hcs (fun d hd => hkinds d (List.mem_cons_of_mem c hd)) hrest
      have hmem : ∀ i ∈ handle.toList ++ rest ++ handles, i ∈ rest ++ (handle.toList ++ handles) := by
        intro i hi
        simp only [List.mem_append] at hi ⊢
        tauto
      exact { hall with handles_lt := fun i hi => hall.handles_lt i (hmem i hi) }

end TypeBuilder

/-! ### Accepted walks -/

theorem walkType_eq_ok_some_iff {driver : Driver} {t : ResolvedType} :
    walkType driver = some (.ok (some t)) ↔
      ∃ handles b, TypeBuilder.new.run driver.calls = some (handles, b) ∧
        driver.root = some t.root ∧ b.tooWide = none ∧ b.unfilled = 0 ∧ b.table = t.types := by
  obtain ⟨types, root⟩ := t
  rw [walkType, Option.bind_eq_bind, Option.bind_eq_some_iff]
  constructor
  · rintro ⟨⟨handles, b⟩, hrun, h⟩
    refine ⟨handles, b, hrun, ?_⟩
    dsimp only at h
    revert h
    cases driver.root <;> cases b.tooWide <;> by_cases hunfilled : b.unfilled = 0 <;>
      simp [hunfilled, and_comm]
  · rintro ⟨handles, b, hrun, hroot, hwide, hunfilled, rfl⟩
    refine ⟨(handles, b), hrun, ?_⟩
    simp [hroot, hwide, hunfilled]

/-- Where every scalar has one of the four kinds, an accepted walk gives a
type whose root and all that it reaches are in range and known. -/
theorem walkType_wellFormed (driver : Driver) (hhonest : driver.Honest)
    (hkinds : ∀ c ∈ driver.calls, c.knownScalar = true) (t : ResolvedType)
    (h : walkType driver = some (.ok (some t))) : t.WellFormed := by
  obtain ⟨handles, b, hrun, hroot, -, hunfilled, htable⟩ := walkType_eq_ok_some_iff.mp h
  have haccount := TypeBuilder.accounted_new.run hhonest.passes hkinds hrun
  rw [List.append_nil] at haccount
  have hpending : b.pending = [] := List.length_eq_zero_iff.mp hunfilled
  have hmem : t.root ∈ handles := hhonest.reports t.root hroot handles b hrun
  rw [ResolvedType.WellFormed, ← htable]
  intro id hreach
  constructor
  · induction hreach with
    | refl => exact haccount.handles_lt _ hmem
    | tail _ hedge _ =>
        obtain ⟨value, hget, hchild⟩ := hedge
        exact haccount.inRange _ value hget _ hchild
  · rintro ⟨shape, size⟩ hget hshape
    cases hshape
    have hin := haccount.unknown id size hget
    rw [hpending] at hin
    cases hin

def scalarFunction (kind : ℕ) : Driver where
  calls := [.scalar kind 0 0 0 0, .func 0 [] 0]
  root := some 1

theorem honest_voidFunction : (scalarFunction 1).Honest := by
  refine ⟨by decide, fun root hroot handles b hrun => ?_⟩
  cases hroot
  cases hrun
  decide

theorem walkType_wellFormed_voidFunction :
    (ResolvedType.mk ⟨[⟨.void, none⟩, ⟨.function 0 [] false, none⟩],
      [(⟨.function 0 [] false, none⟩, 1), (⟨.void, none⟩, 0)]⟩ 1).WellFormed :=
  walkType_wellFormed (scalarFunction 1) honest_voidFunction (by decide) _ rfl

theorem honest_unknownFunction : (scalarFunction 0).Honest := by
  refine ⟨by decide, fun root hroot handles b hrun => ?_⟩
  cases hroot
  cases hrun
  decide

/-- The walker's stand-in for a return type that the kernel cannot report is a
scalar of kind zero: the walk is accepted with an unknown return type. -/
theorem walkType_not_wellFormed :
    ¬∀ (driver : Driver) (t : ResolvedType), driver.Honest →
      walkType driver = some (.ok (some t)) → t.WellFormed := by
  intro h
  have hwell := h (scalarFunction 0) _ honest_unknownFunction rfl
  refine (hwell 0 (.single ⟨_, rfl, ?_⟩)).2 _ rfl rfl
  exact List.mem_cons_self

end Idakit.Types
