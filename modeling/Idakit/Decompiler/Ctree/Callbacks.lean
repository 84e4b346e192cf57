import Idakit.Library.Stateful
import Idakit.Decompiler.Ctree.Extract
import Mathlib.Algebra.GroupWithZero.Nat

/-!
What a sequence of callbacks comes to. A callback makes one node, whose kind
and failure can be read off its arguments; so a sequence makes a builder, or
panics, and which of the two can be read off the sequence.
-/

namespace Idakit.Decompiler

open Idakit.Types
open Idakit.Library
open Arenas

/-! ### What a callback makes -/

inductive MadeNode
  | expression (ty : TypeId) (kind : ExpressionKind ExpressionId)
  | statement (kind : StatementKind ExpressionId StatementId)

namespace MadeNode

def children : MadeNode → List NodeRef
  | .expression _ kind => kind.children.map .expression
  | .statement kind => kind.children

def alloc (b : CtreeBuilder) (address : Option Address) : MadeNode → ℕ × CtreeBuilder
  | .expression ty kind => b.expression ty kind address
  | .statement kind => b.statement kind address

def HasRoom (b : CtreeBuilder) : MadeNode → Prop
  | .expression _ _ => b.expressions.length < 2 ^ 32
  | .statement _ => b.statements.length < 2 ^ 32

instance (b : CtreeBuilder) (m : MadeNode) : Decidable (m.HasRoom b) := by
  cases m <;> exact Nat.decLt _ _

end MadeNode

def splitCases : List UInt64 → List (ℕ × ℕ) → List (Case StatementId)
  | _, [] => []
  | values, (body, n) :: rest => ⟨values.take n, body⟩ :: splitCases (values.drop n) rest

namespace NodeCall

def ea : NodeCall → UInt64
  | .eNum ea .. | .eFnum ea .. | .eObj ea .. | .eVar ea .. | .eStr ea .. | .eHelper ea ..
  | .eCall ea .. | .eMemref ea .. | .eMemptr ea .. | .eDeref ea .. | .eOp ea .. | .sBlock ea ..
  | .sExpr ea .. | .sIf ea .. | .sFor ea .. | .sWhile ea .. | .sDo ea .. | .sSwitch ea ..
  | .sBreak ea | .sContinue ea | .sReturn ea .. | .sGoto ea .. | .sAsm ea .. | .sTry ea ..
  | .sThrow ea .. | .sEmpty ea => ea

def made : NodeCall → MadeNode
  | .eNum _ value ty => .expression ty (.num value)
  | .eFnum _ bits ty => .expression ty (.fnum bits)
  | .eObj _ target name ty =>
      .expression ty (match Address.tryNew target with
        | some address => .obj address (if name ≠ [] then some name else none)
        | none => .empty)
  | .eVar _ idx ty => .expression ty (.var idx)
  | .eStr _ text ty => .expression ty (.str text)
  | .eHelper _ name ty => .expression ty (.helper name)
  | .eCall _ callee args ty => .expression ty (.call callee args)
  | .eMemref _ obj offset ty => .expression ty (.memberRef obj offset)
  | .eMemptr _ obj offset ty => .expression ty (.memberPtr obj offset)
  | .eDeref _ x size ty => .expression ty (.deref x size)
  | .eOp _ ctype x y z ty => .expression ty ((classify ctype x y z).getD .internal)
  | .sBlock _ kids => .statement (.block kids)
  | .sExpr _ e => .statement (.expression e)
  | .sIf _ cond then_ else_ => .statement (.if_ cond then_ (optHandle else_))
  | .sFor _ init cond step body =>
      .statement (.for_ (optHandle init) (optHandle cond) (optHandle step) body)
  | .sWhile _ cond body => .statement (.while_ cond body)
  | .sDo _ body cond => .statement (.do_ body cond)
  | .sSwitch _ expr bodies valueCounts values =>
      .statement (.switch expr (splitCases values (bodies.zip valueCounts)))
  | .sBreak _ => .statement .break_
  | .sContinue _ => .statement .continue_
  | .sReturn _ e => .statement (.return_ (optHandle e))
  | .sGoto _ label => .statement (.goto label)
  | .sAsm _ addrs => .statement (.asm (addrs.filterMap Address.tryNew))
  | .sTry _ body catches => .statement (.try_ body catches)
  | .sThrow _ e => .statement (.throw (optHandle e))
  | .sEmpty _ => .statement .empty

def error : NodeCall → Option ExtractError
  | .eObj _ target _ _ => if target = badAddr then some .badAddress else none
  | .eOp _ ctype x y z _ =>
      if (classify ctype x y z).isNone then some (.unknownExpressionTag ctype) else none
  | .sAsm _ addrs => if badAddr ∈ addrs then some .badAddress else none
  | _ => none

/-- The counts of a switch stay within its values. -/
def Sliced : NodeCall → Prop
  | .sSwitch _ _ bodies valueCounts values =>
      ((bodies.zip valueCounts).map Prod.snd).sum ≤ values.length
  | _ => True

instance (c : NodeCall) : Decidable c.Sliced := by
  cases c
  case sSwitch => exact Nat.decLe _ _
  all_goals exact inferInstanceAs (Decidable True)

end NodeCall

theorem sliceCases_eq (values : List UInt64) {pos : ℕ} (cases : List (ℕ × ℕ))
    (hpos : pos ≤ values.length) :
    sliceCases values pos cases =
      if pos + (cases.map Prod.snd).sum ≤ values.length then
        some (splitCases (values.drop pos) cases)
      else none := by
  induction cases generalizing pos with
  | nil => simp [sliceCases, splitCases, hpos]
  | cons c rest ih =>
      obtain ⟨body, n⟩ := c
      rw [sliceCases, List.map_cons, List.sum_cons]
      by_cases hslice : pos + n ≤ values.length
      · rw [if_pos hslice, ih hslice, splitCases, List.drop_drop, Nat.add_assoc]
        split <;> rfl
      · rw [if_neg hslice, if_neg (by omega)]

namespace CallbackBuilder

theorem asmAddrs_eq (addrs : List UInt64) (cb : CallbackBuilder) :
    asmAddrs addrs cb = some (addrs.filterMap Address.tryNew,
      { cb with error := cb.error.or (if badAddr ∈ addrs then some .badAddress else none) }) := by
  induction addrs generalizing cb with
  | nil =>
      show some ([], cb) = _
      simp
  | cons a addrs ih =>
      rw [asmAddrs]
      cases ha : Address.tryNew a with
      | none =>
          obtain rfl := Address.tryNew_eq_none.mp ha
          show asmAddrs addrs { cb with error := cb.error.or (some .badAddress) } = _
          rw [ih, List.filterMap_cons_none ha]
          simp only [List.mem_cons, true_or, if_true, Option.or_assoc]
          split <;> rfl
      | some e =>
          have hne : badAddr ≠ a := by
            rintro rfl
            rw [Address.tryNew_eq_none.mpr rfl] at ha
            cases ha
          show (asmAddrs addrs cb).bind (fun p => some (e :: p.1, p.2)) = _
          rw [ih, List.filterMap_cons_some ha]
          simp [hne]

/-- A node callback panics where it slices past its values or has no handle
left; otherwise it makes its node and records its failure. -/
theorem node_eq (c : NodeCall) (cb : CallbackBuilder) :
    node c cb =
      if c.Sliced ∧ c.made.HasRoom cb.b then
        some ((c.made.alloc cb.b (Address.tryNew c.ea)).1,
          ⟨(c.made.alloc cb.b (Address.tryNew c.ea)).2, cb.error.or c.error⟩)
      else none := by
  cases c with
  | eObj ea target name ty =>
      simp only [node, obj, NodeCall.Sliced, true_and, NodeCall.made, NodeCall.error, NodeCall.ea]
      cases htarget : Address.tryNew target with
      | none =>
          obtain rfl := Address.tryNew_eq_none.mp htarget
          rfl
      | some address =>
          have hne : target ≠ badAddr := by
            rintro rfl
            rw [Address.tryNew_eq_none.mpr rfl] at htarget
            cases htarget
          rw [if_neg hne, Option.or_none]
          rfl
  | eOp ea ctype x y z ty =>
      simp only [node, op, NodeCall.Sliced, true_and, NodeCall.made, NodeCall.error, NodeCall.ea]
      cases classify ctype x y z with
      | none => rfl
      | some kind =>
          rw [Option.isNone_some, if_neg Bool.false_ne_true, Option.or_none]
          rfl
  | sAsm ea addrs =>
      show (asmAddrs addrs cb).bind (fun p => pushStatement ea (.asm p.1) p.2) = _
      rw [asmAddrs_eq]
      simp only [Option.bind_some, NodeCall.Sliced, true_and]
      rfl
  | sSwitch ea expr bodies valueCounts values =>
      have hslice := sliceCases_eq values (bodies.zip valueCounts) (Nat.zero_le _)
      rw [Nat.zero_add, List.drop_zero] at hslice
      simp only [NodeCall.Sliced, NodeCall.error, Option.or_none]
      show (StateT.lift (sliceCases values 0 (bodies.zip valueCounts)) >>= fun cases =>
        pushStatement ea (.switch expr cases)) cb = _
      rw [hslice]
      by_cases hsliced : ((bodies.zip valueCounts).map Prod.snd).sum ≤ values.length
      · rw [if_pos hsliced]
        simp only [hsliced, true_and]
        rfl
      · rw [if_neg hsliced, if_neg fun h => hsliced h.1]
        rfl
  | _ =>
      simp only [NodeCall.Sliced, true_and, NodeCall.error, Option.or_none]
      rfl

end CallbackBuilder

/-! ### Locals -/

/-- No location is static at the invalid address. -/
def Lvar.Placed (l : Lvar) : Prop :=
  (l.atype = 6 → l.sval.toUInt64 ≠ badAddr) ∧
    ∀ p ∈ l.pieces, p.atype = 6 → p.sval.toUInt64 ≠ badAddr

theorem LocalLocation.fromArgloc_isSome_iff (atype reg1 reg2 : UInt32) (sval : Int64)
    (pieces : List (LocationPiece LocalLocation)) :
    (fromArgloc atype reg1 reg2 sval pieces).isSome ↔ (atype = 6 → sval.toUInt64 ≠ badAddr) := by
  by_cases hatype : atype = 6
  · subst hatype
    show ((Address.newConst sval.toUInt64).map LocalLocation.static).isSome ↔ _
    simp [Address.newConst, Address.tryNew]
  · have hne : atype.toNat ≠ 6 := fun h => hatype (UInt32.toNat_inj.mp h)
    simp only [hatype, false_implies, iff_true]
    unfold fromArgloc
    split <;> simp_all

theorem isSome_mapM_iff {α β : Type} (f : α → Option β) (l : List α) :
    (l.mapM f).isSome ↔ ∀ x ∈ l, (f x).isSome := by
  induction l with
  | nil => simp
  | cons x l ih =>
      rw [List.mapM_cons, List.forall_mem_cons, ← ih]
      cases f x with
      | none => simp
      | some y => cases l.mapM f <;> simp

theorem Lvar.toLocal_isSome_iff (l : Lvar) : l.toLocal.isSome ↔ l.Placed := by
  have hpieces : (l.pieces.mapM LocPiece.toPiece).isSome ↔
      ∀ p ∈ l.pieces, p.atype = 6 → p.sval.toUInt64 ≠ badAddr := by
    simp only [isSome_mapM_iff, LocPiece.toPiece, Option.isSome_map,
      LocalLocation.fromArgloc_isSome_iff]
  rw [Placed, ← hpieces, toLocal]
  cases l.pieces.mapM LocPiece.toPiece with
  | none => simp
  | some pieces =>
      rw [← LocalLocation.fromArgloc_isSome_iff l.atype l.reg1 l.reg2 l.sval pieces]
      cases h : LocalLocation.fromArgloc l.atype l.reg1 l.reg2 l.sval pieces <;> simp [h]

/-! ### Sequences of callbacks -/

/-- A callback that makes a node or adds a local; or the types that a walk of
types in between leaves behind. -/
inductive Event
  | node (c : NodeCall)
  | lvar (l : Lvar)
  | types (t : TypeBuilder)

namespace Event

def apply (b : CtreeBuilder) : Event → CtreeBuilder
  | .node c => (c.made.alloc b (Address.tryNew c.ea)).2
  | .lvar l =>
      match l.toLocal with
      | some v => (b.pushLocal v).2
      | none => b
  | .types t => { b with types := t }

def error : Event → Option ExtractError
  | .node c => c.error
  | .lvar _ | .types _ => none

def Decodes : Event → Prop
  | .node c => c.Sliced
  | .lvar l => l.Placed
  | .types _ => True

end Event

def builtBy (events : List Event) : CtreeBuilder := events.foldl Event.apply .new

namespace CallbackBuilder

def step : Event → Extraction Unit
  | .node c => do
      let _ ← node c
  | .lvar l => lvar l
  | .types t => modify fun cb => { cb with b := { cb.b with types := t } }

def run : List Event → Extraction Unit
  | [] => pure ()
  | e :: events => do
      step e
      run events

end CallbackBuilder

/-! ### When a sequence runs -/

theorem MadeNode.alloc_lengths (b : CtreeBuilder) (address : Option Address) (m : MadeNode) :
    b.expressions.length ≤ (m.alloc b address).2.expressions.length ∧
      b.statements.length ≤ (m.alloc b address).2.statements.length ∧
      (m.alloc b address).2.locals = b.locals := by
  cases m with
  | expression ty kind => simp [MadeNode.alloc, CtreeBuilder.expression]
  | statement kind => simp [MadeNode.alloc, CtreeBuilder.statement]

/-- Everything has a 32-bit handle. -/
structure Addressable (b : CtreeBuilder) : Prop where
  expressions : b.expressions.length ≤ 2 ^ 32
  statements : b.statements.length ≤ 2 ^ 32
  locals : b.locals.length ≤ 2 ^ 32

/-- What was allocated stays. -/
theorem Addressable.of_apply {b : CtreeBuilder} {e : Event} (h : Addressable (e.apply b)) :
    Addressable b := by
  cases e with
  | node c =>
      obtain ⟨hexpressions, hstatements, hlocals⟩ :=
        c.made.alloc_lengths b (Address.tryNew c.ea)
      exact ⟨Nat.le_trans hexpressions h.expressions, Nat.le_trans hstatements h.statements,
        hlocals ▸ h.locals⟩
  | lvar l =>
      rw [Event.apply] at h
      split at h
      · have hlocals := h.locals
        simp only [CtreeBuilder.pushLocal, List.length_append] at hlocals
        exact ⟨h.expressions, h.statements, Nat.le_of_add_right_le hlocals⟩
      · exact h
  | types t => exact ⟨h.expressions, h.statements, h.locals⟩

theorem Addressable.of_foldl {b : CtreeBuilder} {events : List Event}
    (h : Addressable (events.foldl Event.apply b)) : Addressable b := by
  induction events generalizing b with
  | nil => exact h
  | cons e events ih => exact (ih h).of_apply

namespace CallbackBuilder

theorem hasRoom_iff {b : CtreeBuilder} (hb : Addressable b)
    (address : Option Address) (m : MadeNode) :
    m.HasRoom b ↔ Addressable (m.alloc b address).2 := by
  cases m with
  | expression ty kind =>
      have hlength : ((MadeNode.expression ty kind).alloc b address).2.expressions.length =
          b.expressions.length + 1 := by simp [MadeNode.alloc, CtreeBuilder.expression]
      constructor
      · intro h
        exact ⟨hlength ▸ h, hb.statements, hb.locals⟩
      · intro h
        exact (hlength ▸ h.expressions : b.expressions.length + 1 ≤ 2 ^ 32)
  | statement kind =>
      have hlength : ((MadeNode.statement kind).alloc b address).2.statements.length =
          b.statements.length + 1 := by simp [MadeNode.alloc, CtreeBuilder.statement]
      constructor
      · intro h
        exact ⟨hb.expressions, hlength ▸ h, hb.locals⟩
      · intro h
        exact (hlength ▸ h.statements : b.statements.length + 1 ≤ 2 ^ 32)

/-- One callback: it panics where its payload does not decode or there is no
handle left. -/
theorem step_eq_some_iff {e : Event} {cb : CallbackBuilder} (hcb : Addressable cb.b)
    (after : CallbackBuilder) :
    step e cb = some ((), after) ↔
      e.Decodes ∧ Addressable (e.apply cb.b) ∧ after = ⟨e.apply cb.b, cb.error.or e.error⟩ := by
  cases e with
  | node c =>
      rw [step, bind_eq_some, node_eq]
      -- A node needs a payload that can be taken apart and a 32-bit handle.
      have hroom := hasRoom_iff hcb (Address.tryNew c.ea) c.made
      simp only [Event.Decodes, Event.apply, Event.error]
      constructor
      · rintro ⟨id, middle, hnode, hpure⟩
        obtain ⟨-, rfl⟩ := pure_eq_some.mp hpure
        split at hnode
        · next h =>
            cases hnode
            exact ⟨h.1, hroom.mp h.2, rfl⟩
        · cases hnode
      · rintro ⟨hsliced, haddressable, rfl⟩
        exact ⟨_, _, if_pos ⟨hsliced, hroom.mpr haddressable⟩, rfl⟩
  | lvar l =>
      simp only [step, lvar, Event.Decodes, Event.apply, Event.error, Option.or_none,
        ← l.toLocal_isSome_iff]
      cases l.toLocal with
      | none => simp
      | some v =>
          have hlength : ((cb.b.pushLocal v).2).locals.length = cb.b.locals.length + 1 := by
            simp [CtreeBuilder.pushLocal]
          have hroom : cb.b.locals.length < 2 ^ 32 ↔ Addressable (cb.b.pushLocal v).2 :=
            ⟨fun h => ⟨hcb.expressions, hcb.statements, hlength ▸ h⟩,
              fun h => (hlength ▸ h.locals : cb.b.locals.length + 1 ≤ 2 ^ 32)⟩
          simp only [Option.bind_eq_bind, Option.bind_some, Option.isSome_some, true_and]
          split
          · next h => simp [hroom.mp h, eq_comm]
          · next h =>
              have hfull := mt hroom.mpr h
              simp [hfull]
  | types t =>
      have hadd : Addressable { cb.b with types := t } :=
        ⟨hcb.expressions, hcb.statements, hcb.locals⟩
      show some ((), _) = _ ↔ _
      simp [Event.Decodes, Event.apply, Event.error, hadd, eq_comm]

theorem run_eq_some_iff {events : List Event} {cb : CallbackBuilder} (hcb : Addressable cb.b)
    (after : CallbackBuilder) :
    run events cb = some ((), after) ↔
      (∀ e ∈ events, e.Decodes) ∧ Addressable (events.foldl Event.apply cb.b) ∧
        after = ⟨events.foldl Event.apply cb.b, cb.error.or (events.findSome? Event.error)⟩ := by
  induction events generalizing cb with
  | nil =>
      show some ((), cb) = _ ↔ _
      simp [hcb, eq_comm]
  | cons e events ih =>
      have herror : (cb.error.or e.error).or (events.findSome? Event.error) =
          cb.error.or ((e :: events).findSome? Event.error) := by
        rw [Option.or_assoc, List.findSome?_cons]
        cases e.error <;> rfl
      rw [run, bind_eq_some, List.forall_mem_cons, List.foldl_cons, ← herror]
      constructor
      · rintro ⟨⟨⟩, middle, hstep, hrun⟩
        obtain ⟨hdecodes, hmiddle, rfl⟩ := (step_eq_some_iff hcb middle).mp hstep
        obtain ⟨hrest, hafter, rfl⟩ := (ih hmiddle).mp hrun
        exact ⟨⟨hdecodes, hrest⟩, hafter, rfl⟩
      · rintro ⟨⟨hdecodes, hrest⟩, hafter, rfl⟩
        have hmiddle := hafter.of_foldl
        exact ⟨(), _, (step_eq_some_iff hcb _).mpr ⟨hdecodes, hmiddle, rfl⟩,
          (ih hmiddle).mpr ⟨hrest, hafter, rfl⟩⟩

end CallbackBuilder

/-! ### When a walk settles -/

def Event.handles : Event → List NodeRef
  | .node c => c.made.children
  | .lvar _ | .types _ => []

/-- Every handle that a callback passes was returned by a callback before. -/
def HandlesKnown (b : CtreeBuilder) : List Event → Prop
  | [] => True
  | e :: events => (∀ h ∈ e.handles, h ∈ b.nodes) ∧ HandlesKnown (e.apply b) events

instance HandlesKnown.decidable : (b : CtreeBuilder) → (events : List Event) →
    Decidable (HandlesKnown b events)
  | _, [] => .isTrue trivial
  | b, e :: events =>
      have := HandlesKnown.decidable (e.apply b) events
      inferInstanceAs (Decidable (_ ∧ _))

/-- A required address of the callback is the invalid one. -/
def Event.BadAddress : Event → Prop
  | .node (.eObj _ target _ _) => target = badAddr
  | .node (.sAsm _ addrs) => badAddr ∈ addrs
  | .node _ | .types _ => False
  | .lvar l => ¬l.Placed

/-- No callback panics, finishing comes to a tree or to a failure, and it is a
failure where a required address is the invalid one. -/
def Settles (events : List Event) (debugAssertions : Bool) (root : StatementId) : Prop :=
  ∃ cb result, CallbackBuilder.run events .new = some ((), cb) ∧
    cb.finish debugAssertions root = some result ∧
    ((∃ e ∈ events, e.BadAddress) → ∃ error, result = .error error)

/-- What keeps a sequence of callbacks from panicking. -/
structure Harmless (events : List Event) (debugAssertions : Bool) (root : StatementId) :
    Prop where
  decodes : ∀ e ∈ events, e.Decodes
  addressable : Addressable (builtBy events)
  /-- A failure is recorded, or the root's subtree has no more nodes than
  there are, and with debug assertions as many. -/
  visits : (∃ e ∈ events, e.error ≠ none) ∨ (builtBy events).types.tooWide ≠ none ∨
    (builtBy events).types.unfilled ≠ 0 ∨
    ((builtBy events).subtree (.statement root)).length ≤ (builtBy events).total ∧
      (debugAssertions →
        ((builtBy events).subtree (.statement root)).length = (builtBy events).total)

theorem CtreeBuilder.Built.apply {b : CtreeBuilder} (h : b.Built) {e : Event}
    (hhandles : ∀ h ∈ e.handles, h ∈ b.nodes) : (e.apply b).Built := by
  cases e with
  | node c =>
      simp only [Event.apply]
      simp only [Event.handles] at hhandles
      cases hmade : c.made with
      | expression ty kind =>
          rw [hmade] at hhandles
          exact .expression h ty kind _ fun k hk => hhandles _ (List.mem_map_of_mem hk)
      | statement kind =>
          rw [hmade] at hhandles
          exact .statement h kind _ hhandles
  | lvar l =>
      rw [Event.apply]
      split
      · exact .pushLocal h _
      · exact h
  | types t => exact .types h t

theorem CtreeBuilder.Built.foldl {b : CtreeBuilder} (h : b.Built) {events : List Event}
    (hhandles : HandlesKnown b events) : (events.foldl Event.apply b).Built := by
  induction events generalizing b with
  | nil => exact h
  | cons e events ih => exact ih (h.apply hhandles.1) hhandles.2

theorem CtreeBuilder.Built.finish_isSome_iff {b : CtreeBuilder} (h : b.Built) {root : StatementId}
    (hroot : .statement root ∈ b.nodes) (debugAssertions : Bool) :
    (b.finish debugAssertions root).isSome ↔
      (b.subtree (.statement root)).length ≤ b.total ∧
        (debugAssertions → (b.subtree (.statement root)).length = b.total) := by
  obtain ⟨visited, a', hperm, -, hfinish⟩ := finish_eq h.childrenFirst hroot debugAssertions
  rw [hfinish, hperm.length_eq]
  split
  · next hcount => simpa using hcount
  · next hcount => simpa using hcount

theorem CallbackBuilder.finish_isSome_iff {cb : CallbackBuilder} (debugAssertions : Bool)
    (root : StatementId) :
    (cb.finish debugAssertions root).isSome ↔
      cb.error ≠ none ∨ cb.b.types.tooWide ≠ none ∨ cb.b.types.unfilled ≠ 0 ∨
        (cb.b.finish debugAssertions root).isSome := by
  rw [finish]
  cases cb.error with
  | some e => simp
  | none =>
      cases cb.b.types.tooWide with
      | some bytes => simp
      | none =>
          by_cases hunfilled : cb.b.types.unfilled = 0
          · simp [hunfilled]
          · simp [hunfilled]

/-- A bad address that does not panic is recorded. -/
theorem Event.error_of_badAddress {e : Event} (h : e.BadAddress) (hdecodes : e.Decodes) :
    e.error ≠ none := by
  cases e with
  | node c =>
      cases c with
      | eObj ea target name ty =>
          have htarget : target = badAddr := h
          simp [Event.error, NodeCall.error, htarget]
      | sAsm ea addrs =>
          have haddrs : badAddr ∈ addrs := h
          simp [Event.error, NodeCall.error, haddrs]
      | _ => exact absurd h id
  | lvar l => exact absurd hdecodes h
  | types t => exact absurd h id

/-- A sequence of callbacks settles if and only if it is harmless. -/
theorem settles_iff {events : List Event} (hhandles : HandlesKnown .new events) {root : StatementId}
    (hroot : .statement root ∈ (builtBy events).nodes) (debugAssertions : Bool) :
    Settles events debugAssertions root ↔ Harmless events debugAssertions root := by
  have hbuilt : (builtBy events).Built := CtreeBuilder.Built.new.foldl hhandles
  have hnew : Addressable CallbackBuilder.new.b :=
    ⟨Nat.zero_le _, Nat.zero_le _, Nat.zero_le _⟩
  have herror : events.findSome? Event.error ≠ none ↔ ∃ e ∈ events, e.error ≠ none := by
    simp
  have hfinish : ∀ cb : CallbackBuilder, cb = ⟨builtBy events, events.findSome? Event.error⟩ →
      ((cb.finish debugAssertions root).isSome ↔
        (∃ e ∈ events, e.error ≠ none) ∨ (builtBy events).types.tooWide ≠ none ∨
          (builtBy events).types.unfilled ≠ 0 ∨
          ((builtBy events).subtree (.statement root)).length ≤ (builtBy events).total ∧
            (debugAssertions →
              ((builtBy events).subtree (.statement root)).length = (builtBy events).total)) := by
    rintro cb rfl
    rw [CallbackBuilder.finish_isSome_iff, herror,
      hbuilt.finish_isSome_iff hroot]
  constructor
  · rintro ⟨cb, result, hrun, hresult, -⟩
    obtain ⟨hdecodes, haddressable, hcb⟩ := (CallbackBuilder.run_eq_some_iff hnew cb).mp hrun
    refine ⟨hdecodes, haddressable, (hfinish cb hcb).mp ?_⟩
    rw [hresult, Option.isSome_some]
  · intro h
    obtain ⟨result, hresult⟩ := Option.isSome_iff_exists.mp ((hfinish _ rfl).mpr h.visits)
    refine ⟨_, result, (CallbackBuilder.run_eq_some_iff hnew _).mpr
      ⟨h.decodes, h.addressable, rfl⟩, hresult, ?_⟩
    rintro ⟨e, he, hbad⟩
    have hrecorded := herror.mpr ⟨e, he, e.error_of_badAddress hbad (h.decodes e he)⟩
    obtain ⟨error, hfirst⟩ := Option.ne_none_iff_exists'.mp hrecorded
    refine ⟨error, ?_⟩
    simp only [CallbackBuilder.finish, hfirst, Option.some.injEq] at hresult
    exact hresult.symm

/-- A local at a static location, and the body `{ object; return local; }`. -/
def staticLocal (sval : Int64) : List Event :=
  [.lvar ⟨['x'], 0, 0, 4, [], 6, 0, 0, sval, []⟩,
    .node (.eObj 0x1000 0x2000 ['y'] 0), .node (.sExpr 0x1000 0),
    .node (.eVar 0x1004 0 0), .node (.sReturn 0x1004 1), .node (.sBlock 0x1000 [0, 1])]

theorem settles_iff_static :
    Settles (staticLocal 0x3000) true 2 ↔ Harmless (staticLocal 0x3000) true 2 :=
  settles_iff (by decide) (by decide) true

/-- A local at the invalid address panics, and is not recorded. -/
theorem not_settles_static :
    HandlesKnown .new (staticLocal (-1)) ∧ .statement 2 ∈ (builtBy (staticLocal (-1))).nodes ∧
      ¬Settles (staticLocal (-1)) true 2 := by
  refine ⟨by decide, by decide, ?_⟩
  rintro ⟨cb, result, hrun, -⟩
  have hpanic : CallbackBuilder.run (staticLocal (-1)) .new = none := rfl
  rw [hpanic] at hrun
  cases hrun

end Idakit.Decompiler
