import Idakit.Facade.RecipeMachine
import Idakit.Facade.RecipeBuild

/-!
The two levels of the interpreter of a recipe. The one that works on memory
calls the kernel's constructors; the other one makes a term of them. On the
same bytes the first returns the type that the term stands for.

The kernel may refuse a part. The first interpreter then returns at once,
where the second goes on: what it ends with has that part inside, and stands
for nothing.
-/

namespace Idakit.Facade.RecipeMachine

open Idakit.Library Idakit.Library.Stmt Idakit.Types

/-! ### Terms -/

section

variable {τ : Type} (k : Constructors τ)

mutual

def eval : Tinfo → Option τ
  | .void => k.createSimpleType .void
  | .bool => k.createSimpleType .bool
  | .int bytes signed => buildInt k bytes signed
  | .float bytes => buildFloat k bytes
  | .bitfield nbytes width isUnsigned =>
      k.createBitfield (UInt8.ofNat nbytes) (UInt8.ofNat width) isUnsigned
  | .named name => k.getNamedType name
  | .decl text => k.parseDecl text
  | .ptr inner => (eval inner).bind k.createPtr
  | .array inner nelems => (eval inner).bind fun t => k.createArray t nelems
  | .const inner => (eval inner).map k.setConst
  | .volatile inner => (eval inner).map k.setVolatile
  | .func rettype args cc =>
      (eval rettype).bind fun rettype =>
        (evalArgs args).bind fun args => k.createFunc ⟨rettype, args, cc⟩

def evalArgs : List (Funcarg Tinfo) → Option (List (Funcarg τ))
  | [] => some []
  | ⟨name, type⟩ :: args =>
      (eval type).bind fun type => (evalArgs args).map fun args => ⟨name, type⟩ :: args

end

def answer : Option τ → ℤ × Option τ
  | some t => (typeOk, some t)
  | none => (typeErrInput, none)

theorem eval_buildInt (bytes : ℕ) (signed : Bool) :
    (Facade.buildInt bytes signed).bind (eval k) = buildInt k bytes signed := by
  unfold Facade.buildInt
  split
  · next h => simp only [Option.bind_some, eval]
  · next h => simp only [Option.bind_none, buildInt, if_neg h]

theorem eval_buildFloat (bytes : ℕ) :
    (Facade.buildFloat bytes).bind (eval k) = buildFloat k bytes := by
  unfold Facade.buildFloat
  split
  · next h => simp only [Option.bind_some, eval]
  · next h =>
      simp only [List.mem_cons, List.not_mem_nil, or_false, not_or] at h
      simp only [Option.bind_none, buildFloat, if_neg h.1, if_neg h.2]

/-- The parameters of a function stand for those of the kernel, one by one. -/
theorem evalArgs_zipWith {names : List (List UInt8)} {ts : List Tinfo} {xs : List τ}
    (h : List.Forall₂ (fun t x => eval k t = some x) ts xs) :
    evalArgs k (List.zipWith Funcarg.mk names ts) = some (List.zipWith Funcarg.mk names xs) := by
  induction h generalizing names with
  | nil => simp [evalArgs]
  | @cons t x ts xs ht hts ih =>
      cases names with
      | nil => simp [evalArgs]
      | cons name names => simp [evalArgs, ht, ih]

theorem evalArgs_eq_none {names : List (List UInt8)} {ts : List Tinfo} {t : Tinfo} (ht : t ∈ ts)
    (hlen : ts.length ≤ names.length) (h : eval k t = none) :
    evalArgs k (List.zipWith Funcarg.mk names ts) = none := by
  induction ts generalizing names with
  | nil => cases ht
  | cons t' ts ih =>
      cases names with
      | nil => exact absurd hlen (by simp)
      | cons name names =>
          rw [List.zipWith_cons_cons, evalArgs]
          rcases List.mem_cons.mp ht with rfl | ht
          · rw [h, Option.bind_none]
          · rw [ih ht (Nat.le_of_succ_le_succ hlen)]
            cases eval k t' <;> rfl

/-! ### A part that is refused stays inside -/

def Refused (stack : List Tinfo) : Prop := ∃ t ∈ stack, eval k t = none

theorem Refused.tail {t : Tinfo} {stack : List Tinfo} (h : Refused k stack) :
    Refused k (t :: stack) := by
  obtain ⟨t', ht', hnone⟩ := h
  exact ⟨t', List.mem_cons_of_mem _ ht', hnone⟩

theorem refused_wrapTop {wrap : Tinfo → Tinfo}
    (hwrap : ∀ t, eval k t = none → eval k (wrap t) = none) {stack stack' : List Tinfo}
    (h : Refused k stack) (hstep : wrapTop wrap stack = some stack') : Refused k stack' := by
  cases stack with
  | nil => cases hstep
  | cons t stack =>
      obtain rfl := Option.some.inj hstep
      obtain ⟨t', ht', hnone⟩ := h
      rcases List.mem_cons.mp ht' with rfl | ht'
      · exact ⟨_, List.mem_cons_self, hwrap _ hnone⟩
      · exact ⟨t', List.mem_cons_of_mem _ ht', hnone⟩

theorem refused_buildFunc {names : List (List UInt8)} {varargs : UInt8} {cc : ℕ}
    {stack stack' : List Tinfo} (h : Refused k stack)
    (hstep : buildFunc names varargs cc stack = some stack') : Refused k stack' := by
  unfold buildFunc at hstep
  split at hstep
  · cases hstep
  · next rettype rest hdrop =>
      obtain rfl := Option.some.inj hstep
      obtain ⟨t, ht, hnone⟩ := h
      rw [← List.take_append_drop names.length stack, hdrop, List.mem_append] at ht
      rcases ht with ht | ht
      · -- A parameter: the function stands for nothing.
        refine ⟨_, List.mem_cons_self, ?_⟩
        rw [eval, evalArgs_eq_none k (List.mem_reverse.mpr ht) (by simp) hnone]
        cases eval k rettype <;> rfl
      · rcases List.mem_cons.mp ht with rfl | ht
        · exact ⟨_, List.mem_cons_self, by rw [eval, hnone, Option.bind_none]⟩
        · exact ⟨t, List.mem_cons_of_mem _ ht, hnone⟩

theorem refused_recipeStep (op : UInt8) {stack : List Tinfo} (h : Refused k stack) :
    Concludes (Refused k) (Facade.recipeStep op stack) := by
  have hpush (t : Tinfo) : Concludes (Refused k) (pure (t :: stack) : Reader (List Tinfo)) :=
    Concludes.pure h.tail
  have hwrap {wrap : Tinfo → Tinfo} (hwrap : ∀ t, eval k t = none → eval k (wrap t) = none) :
      Concludes (Refused k) (StateT.lift (wrapTop wrap stack) : Reader (List Tinfo)) :=
    Concludes.lift fun _ hstep => refused_wrapTop k hwrap h hstep
  have hnone : Concludes (Refused k) (StateT.lift none : Reader (List Tinfo)) :=
    Concludes.lift fun _ hstep => by cases hstep
  unfold Facade.recipeStep
  apply Concludes.ite (hpush _)
  apply Concludes.ite (hpush _)
  apply Concludes.ite
  · exact Concludes.bind fun _ => Concludes.bind fun _ => Concludes.bind fun _ => hpush _
  apply Concludes.ite
  · exact Concludes.bind fun _ => Concludes.bind fun _ => hpush _
  apply Concludes.ite (Concludes.bind fun _ => hpush _)
  apply Concludes.ite (Concludes.bind fun _ => hpush _)
  apply Concludes.ite (hwrap fun t ht => by rw [eval, ht, Option.bind_none])
  apply Concludes.ite
  · refine Concludes.bind fun _ => Concludes.ite hnone ?_
    exact hwrap fun t ht => by rw [eval, ht, Option.bind_none]
  apply Concludes.ite (hwrap fun t ht => by rw [eval, ht, Option.map_none])
  apply Concludes.ite (hwrap fun t ht => by rw [eval, ht, Option.map_none])
  apply Concludes.ite
  · refine Concludes.bind fun _ => Concludes.bind fun _ => ?_
    refine Concludes.bind fun _ => Concludes.bind fun _ => ?_
    refine Concludes.ite hnone (Concludes.bind fun _ => ?_)
    exact Concludes.lift fun _ hstep => refused_buildFunc k h hstep
  apply Concludes.ite
  · exact Concludes.bind fun _ => Concludes.bind fun _ => Concludes.bind fun _ => hpush _
  · exact hnone

def outcome (stack : List Tinfo) (bytes : List UInt8) : Option τ :=
  match interpret stack bytes with
  | some [t] => eval k t
  | _ => none

def afterwards (g : Reader (List Tinfo)) (bytes : List UInt8) : Option τ :=
  (g bytes).bind fun q => outcome k q.1 q.2

theorem outcome_cons (op : UInt8) (stack : List Tinfo) (bytes : List UInt8) :
    outcome k stack (op :: bytes) = afterwards k (Facade.recipeStep op stack) bytes := by
  unfold afterwards
  cases hstep : Facade.recipeStep op stack bytes with
  | none =>
      rw [outcome, interpret]
      split
      · next heq =>
          split at heq
          · cases heq
          · next h => cases hstep.symm.trans h
      · rfl
  | some q =>
      rw [outcome, interpret_of_step op hstep]
      rfl

theorem refused_interpret {stack : List Tinfo} {bytes : List UInt8} (h : Refused k stack) :
    ∀ stack', interpret stack bytes = some stack' → Refused k stack' := by
  induction stack, bytes using interpret.induct with
  | case1 stack =>
      intro stack' heq
      rw [interpret] at heq
      exact Option.some.inj heq ▸ h
  | case2 stack op bytes hstep =>
      intro stack' heq
      rw [interpret] at heq
      split at heq
      · cases heq
      · next hsome => cases hstep.symm.trans hsome
  | case3 stack op bytes next bytes' hstep ih =>
      intro stack' heq
      rw [interpret_of_step op hstep] at heq
      exact ih (refused_recipeStep k op h _ _ _ hstep) stack' heq

theorem outcome_of_refused {stack : List Tinfo} (h : Refused k stack) (bytes : List UInt8) :
    outcome k stack bytes = none := by
  unfold outcome
  split
  · next t heq =>
      obtain ⟨t', ht', hnone⟩ := refused_interpret k h _ heq
      rwa [List.mem_singleton.mp ht'] at hnone
  · rfl

end

/-! ### One opcode -/

section

variable {τ : Type} {k : Constructors τ} {p : List UInt8} {o : Option τ}

/-- Between the reads of a step the outcome is what comes of `g` at the
cursor, as long as the reader is well. -/
structure Awaits (k : Constructors τ) (p : List UInt8) (o : Option τ) (stack : List Tinfo)
    (g : Reader (List Tinfo)) (m : Machine τ) : Prop where
  within : m.pos ≤ p.length
  stands : List.Forall₂ (fun t x => eval k t = some x) stack m.stack.reverse
  ahead : m.ok = true → o = afterwards k g (p.drop m.pos)
  spent : m.ok = false → o = none

/-- The stack holds what the terms stand for of which the outcome comes. -/
def Carries (k : Constructors τ) (p : List UInt8) (o : Option τ) (m : Machine τ) : Prop :=
  ∃ stack, List.Forall₂ (fun t x => eval k t = some x) stack m.stack.reverse ∧
    o = outcome k stack (p.drop m.pos)

def Gives (o : Option τ) (r : ℤ × Option τ) (_ : Machine τ) : Prop := r = answer o

variable {stack : List Tinfo} {g : Reader (List Tinfo)} {m m' : Machine τ}

theorem Awaits.read {α : Type} {r : Reader α} {g : α → Reader (List Tinfo)} {a : α}
    (h : Awaits k p o stack (r >>= g) m) (hread : Reads p r m a m') :
    Awaits k p o stack (g a) m' := by
  obtain ⟨hstack, -, hwithin, hread⟩ := hread
  have hstands := hstack.symm ▸ h.stands
  cases hr : r (p.drop m.pos) with
  | none =>
      rw [hr] at hread
      have hnone : o = none := by
        cases hok : m.ok with
        | false => exact h.spent hok
        | true =>
            rw [h.ahead hok]
            show (Option.bind (Option.bind (r (p.drop m.pos)) _) _) = none
            rw [hr]
            rfl
      exact ⟨hwithin, hstands, fun hok => absurd (hok.symm.trans hread) (by simp), fun _ => hnone⟩
  | some q =>
      rw [hr] at hread
      obtain ⟨hok, rfl, hrest⟩ := hread
      refine ⟨hwithin, hstands, fun hok' => ?_, fun hok' => h.spent (hok ▸ hok')⟩
      rw [h.ahead (hok ▸ hok'), ← hrest]
      unfold afterwards
      rw [bind_of_eq_some hr]

/-- The input error is the answer where nothing can come of the bytes. -/
theorem Awaits.refuse (h : Awaits k p o stack g m)
    (hg : m.ok = true → g (p.drop m.pos) = none) : Gives o (typeErrInput, none) m := by
  have hnone : o = none := by
    cases hok : m.ok with
    | false => exact h.spent hok
    | true => rw [h.ahead hok, afterwards, hg hok, Option.bind_none]
  rw [Gives, hnone]
  rfl

/-- A type is pushed that a term stands for, or the kernel refuses it. -/
theorem wp_push_eval (f : Option Tinfo)
    (hstands : List.Forall₂ (fun t x => eval k t = some x) stack m.stack.reverse)
    (ho : o = afterwards k (StateT.lift f >>= fun t => pure (t :: stack)) (p.drop m.pos)) :
    (do let t ← built (f.bind (eval k)); pushBack t : Code τ Unit).wp
      (fun _ => Carries k p o) (Gives o) m := by
  simp only [wp_bind, wp_built, wp_pushBack]
  constructor
  · intro x hx
    obtain ⟨t, rfl, ht⟩ := Option.bind_eq_some_iff.mp hx
    refine ⟨t :: stack, ?_, ho⟩
    rw [List.reverse_append]
    exact .cons ht hstands
  · intro hnone
    have hrefused : o = none := by
      rw [ho]
      cases f with
      | none => rfl
      | some t => exact outcome_of_refused k ⟨t, List.mem_cons_self, hnone⟩ _
    rw [Gives, hrefused]
    rfl

/-- The top of both stacks. -/
theorem exists_top {stack : List Tinfo} {xs : List τ} (hne : xs ≠ [])
    (h : List.Forall₂ (fun t x => eval k t = some x) stack xs.reverse) :
    ∃ t rest x init, stack = t :: rest ∧ xs = init ++ [x] ∧ eval k t = some x ∧
      List.Forall₂ (fun t x => eval k t = some x) rest init.reverse := by
  obtain ⟨init, x, rfl⟩ : ∃ init x, xs = init ++ [x] :=
    ⟨xs.dropLast, xs.getLast hne, (List.dropLast_append_getLast hne).symm⟩
  rw [List.reverse_append, List.reverse_singleton, List.singleton_append] at h
  cases h with
  | cons ht hrest => exact ⟨_, _, x, init, rfl, rfl, ht, hrest⟩

theorem eq_nil_of_stands {stack : List Tinfo} {xs : List τ} (hnil : xs = [])
    (h : List.Forall₂ (fun t x => eval k t = some x) stack xs.reverse) : stack = [] := by
  rw [hnil] at h
  exact List.forall₂_nil_right_iff.mp h

/-- The top is replaced by what the kernel makes of it. -/
theorem wp_replaceBack_eval {make : τ → Option τ} {wrap : Tinfo → Tinfo}
    (heval : ∀ t, eval k (wrap t) = (eval k t).bind make)
    (h : Awaits k p o stack (StateT.lift (wrapTop wrap stack)) m) (hok : m.ok = true)
    (hne : m.stack ≠ []) :
    (do
      let inner ← back
      popBack
      let t ← built (make inner)
      pushBack t : Code τ Unit).wp (fun _ => Carries k p o) (Gives o) m := by
  obtain ⟨t, rest, x, init, rfl, hinit, ht, hrest⟩ := exists_top hne h.stands
  rw [wp_bind, wp_back]
  refine ⟨x, by rw [hinit, List.getLast?_concat], ?_⟩
  rw [wp_bind, wp_popBack]
  refine ⟨hne, ?_⟩
  have hmake : make x = (some (wrap t)).bind (eval k) := by
    rw [Option.bind_some, heval, ht, Option.bind_some]
  rw [hmake]
  refine wp_push_eval (some (wrap t)) ?_ (h.ahead hok)
  rw [hinit, List.dropLast_concat]
  exact hrest

theorem wp_mutateBack_eval {f : τ → τ} {wrap : Tinfo → Tinfo}
    (heval : ∀ t, eval k (wrap t) = (eval k t).map f)
    (h : Awaits k p o stack (StateT.lift (wrapTop wrap stack)) m) (hok : m.ok = true)
    (hne : m.stack ≠ []) :
    (mutateBack f : Code τ Unit).wp (fun _ => Carries k p o) (Gives o) m := by
  obtain ⟨t, rest, x, init, rfl, hinit, ht, hrest⟩ := exists_top hne h.stands
  rw [wp_mutateBack]
  refine ⟨x, by rw [hinit, List.getLast?_concat], wrap t :: rest, ?_, h.ahead hok⟩
  rw [hinit, List.dropLast_concat, List.reverse_append]
  exact .cons (by rw [heval, ht, Option.map_some]) hrest

theorem Awaits.refuse_empty {wrap : Tinfo → Tinfo}
    (h : Awaits k p o stack (StateT.lift (wrapTop wrap stack)) m) (hempty : m.stack = []) :
    Gives o (typeErrInput, none) m := by
  refine h.refuse fun _ => ?_
  rw [eq_nil_of_stands hempty h.stands]
  rfl

/-- A type is pushed if the reader is still well behind its operands. -/
theorem wp_operands_eval (f : Option Tinfo)
    (h : Awaits k p o stack (StateT.lift f >>= fun t => pure (t :: stack)) m) :
    (do
      let m ← get
      require (m.ok = true)
      let t ← built (f.bind (eval k))
      pushBack t : Code τ Unit).wp (fun _ => Carries k p o) (Gives o) m := by
  rw [wp_bind, wp_get, wp_bind, wp_require]
  exact ⟨fun hok => wp_push_eval f h.stands (h.ahead hok),
    fun hnot => h.refuse fun hok => absurd hok hnot⟩

/-- A type is changed in place if there is one. -/
theorem wp_qualify_eval {f : τ → τ} (wrap : Tinfo → Tinfo)
    (heval : ∀ t, eval k (wrap t) = (eval k t).map f)
    (h : Awaits k p o stack (StateT.lift (wrapTop wrap stack)) m) (hok : m.ok = true) :
    (do
      let m ← get
      require (m.stack ≠ [])
      mutateBack f : Code τ Unit).wp (fun _ => Carries k p o) (Gives o) m := by
  rw [wp_bind, wp_get, wp_bind, wp_require]
  exact ⟨fun hne => wp_mutateBack_eval heval h hok hne,
    fun hempty => h.refuse_empty (by simpa using hempty)⟩

end

/-! ### A function -/

section

variable {α : Type} {r : Reader α} {bytes : List UInt8}

theorem mapM_range_succ (r : Reader α) (n : ℕ) :
    ((List.range (n + 1)).mapM fun _ => r) =
      (do
        let as ← (List.range n).mapM fun _ => r
        let a ← r
        return as ++ [a]) := by
  simp [List.range_succ, List.mapM_append]

/-- A traversal that fails early fails. -/
theorem mapM_range_eq_none {i n : ℕ} (hle : i ≤ n)
    (h : ((List.range i).mapM fun _ => r) bytes = none) :
    ((List.range n).mapM fun _ => r) bytes = none := by
  induction n, hle using Nat.le_induction with
  | base => exact h
  | succ n _ ih =>
      rw [mapM_range_succ]
      show Option.bind (((List.range n).mapM fun _ => r) bytes) _ = none
      rw [ih]
      rfl

end

section

variable {τ : Type} {k : Constructors τ} {p : List UInt8} {o : Option τ} {stack : List Tinfo}
  {m : Machine τ} (hp : p.length < 2 ^ 63)

/-- The state of the loop over the names, after `i` of `n` iterations that
began at `start`. -/
structure Naming (p : List UInt8) (start : Machine τ) (n i : ℕ) (names : List (List UInt8))
    (m : Machine τ) : Prop where
  size : names.length = n
  ahead : Ahead p start m
  read : m.ok = true → ((List.range i).mapM fun _ => Facade.str) (p.drop start.pos) =
    some (names.take i, p.drop m.pos)
  spent : m.ok = false → ((List.range n).mapM fun _ => Facade.str) (p.drop start.pos) = none

include hp in
theorem wp_names {R : ℤ × Option τ → Machine τ → Prop} {n : ℕ} (hok : m.ok = true)
    (hwithin : m.pos ≤ p.length) :
    (forUpTo n Machine.ok (List.replicate n []) fun i names => do
      let name ← access names[i]?
      let (_, name) ← str p name
      return names.set i name : Code τ (List (List UInt8))).wp
        (Naming p m n n) R m := by
  refine wp_mono (wp_forUpTo (Naming p m n) ?_ ?_) ?_
  · refine ⟨List.length_replicate, Ahead.refl hwithin, fun _ => rfl, fun h => ?_⟩
    exact absurd (hok.symm.trans h) (by simp)
  · rintro i names m' hi ⟨hsize, hahead, hread, -⟩ hok'
    rw [wp_bind, wp_access]
    refine ⟨_, List.getElem?_eq_getElem (by omega), ?_⟩
    refine wp_bind_of (wp_str hp hahead.within hok' _) fun a m'' ha' => ?_
    obtain ⟨hreads, -⟩ := ha'
    have hset : (names.set i a.2).take (i + 1) = names.take i ++ [a.2] := by
      rw [List.take_add_one, List.take_set_of_le (le_refl i), List.getElem?_set_self (by omega)]
      rfl
    refine ⟨List.length_set.trans hsize, hreads.ahead hahead, fun hok'' => ?_, fun hok'' => ?_⟩
    · rw [mapM_range_succ, bind_of_eq_some (hread hok'),
        bind_of_eq_some (hreads.of_ok hok'').2]
      show some _ = some _
      rw [hset]
    · -- The reader was well before this name, so this name is the one that does not read.
      refine mapM_range_eq_none (i := i + 1) (by omega) ?_
      rw [mapM_range_succ, bind_of_eq_some (hread hok')]
      have hnone : Facade.str (p.drop m'.pos) = none := by
        obtain ⟨-, -, -, h⟩ := hreads
        cases hstr : Facade.str (p.drop m'.pos) with
        | none => rfl
        | some q =>
            rw [hstr] at h
            exact absurd (h.1.symm.trans hok'') (by simp [hok'])
      show Option.bind (Facade.str (p.drop m'.pos)) _ = none
      rw [hnone]
      rfl
  · rintro names m' ⟨i, hle, hI, rfl | hend⟩
    · exact hI
    · exact ⟨hI.size, hI.ahead, fun hok' => absurd (hok'.symm.trans hend) (by simp), hI.spent⟩

/-- The return type and the parameters of a function, on both stacks. -/
theorem exists_function {stack : List Tinfo} {xs : List τ} {n : ℕ} (hn : n < xs.length)
    (h : List.Forall₂ (fun t x => eval k t = some x) stack xs.reverse) :
    ∃ ts rettype rest vs x init, stack = ts.reverse ++ rettype :: rest ∧ xs = init ++ x :: vs ∧
      vs.length = n ∧ eval k rettype = some x ∧
      List.Forall₂ (fun t x => eval k t = some x) ts vs ∧
      List.Forall₂ (fun t x => eval k t = some x) rest init.reverse := by
  have htake := List.forall₂_take n h
  have hdrop := List.forall₂_drop n h
  obtain ⟨x, ys, hys⟩ : ∃ x ys, xs.reverse.drop n = x :: ys := by
    apply List.exists_cons_of_ne_nil
    apply List.ne_nil_of_length_pos
    rw [List.length_drop, List.length_reverse]
    omega
  have hxs : xs.reverse = xs.reverse.take n ++ x :: ys := by
    rw [← hys, List.take_append_drop]
  rw [hys] at hdrop
  cases hrest : stack.drop n with
  | nil =>
      rw [hrest] at hdrop
      cases hdrop
  | cons rettype rest =>
      rw [hrest] at hdrop
      cases hdrop with
      | cons hret hbelow =>
          refine ⟨(stack.take n).reverse, rettype, rest, (xs.reverse.take n).reverse, x, ys.reverse,
            ?_, ?_, ?_, hret, ?_, ?_⟩
          · rw [List.reverse_reverse, ← hrest, List.take_append_drop]
          · have hreverse := congrArg List.reverse hxs
            rw [List.reverse_reverse] at hreverse
            exact hreverse.trans (by simp)
          · rw [List.length_reverse, List.length_take, List.length_reverse]
            omega
          · exact List.forall₂_reverse_iff.mpr htake
          · rwa [List.reverse_reverse]

/-- The parameters are read off the stack, which stays as it is. -/
theorem wp_args {R : ℤ × Option τ → Machine τ → Prop} {n : ℕ} {names : List (List UInt8)} {x : τ}
    {init vs : List τ} (hxs : m.stack = init ++ x :: vs) (hvs : vs.length = n)
    (hsize : names.length = n) (hdepth : m.stack.length < 2 ^ 63) :
    (forUpTo n (fun _ => true) [] fun i args => do
      let type ← entry (sizeAdd (init.length + 1) i)
      let name ← access names[i]?
      return args ++ [(⟨cStr name, type⟩ : Funcarg τ)] : Code τ (List (Funcarg τ))).wp
        (fun args m' => m' = m ∧ args = List.zipWith Funcarg.mk (names.map cStr) vs) R m := by
  have hlength : m.stack.length = init.length + 1 + n := by
    rw [hxs, List.length_append, List.length_cons, hvs]
    omega
  refine wp_mono (wp_forUpTo (fun i args m' => m' = m ∧
    args = (List.zipWith Funcarg.mk (names.map cStr) vs).take i) ⟨rfl, rfl⟩ ?_) ?_
  · rintro i args m' hi ⟨rfl, rfl⟩ -
    have hentry : m'.stack[init.length + 1 + i]? = some vs[i] := by
      rw [hxs, List.getElem?_append_right (by omega),
        show init.length + 1 + i - init.length = i + 1 by omega, List.getElem?_cons_succ,
        List.getElem?_eq_getElem (by omega)]
    rw [sizeAdd_of_lt (by omega), wp_bind, wp_entry]
    refine ⟨_, hentry, ?_⟩
    rw [wp_bind, wp_access]
    refine ⟨_, List.getElem?_eq_getElem (by omega), rfl, ?_⟩
    rw [List.take_add_one, List.getElem?_eq_getElem (by simp; omega)]
    simp
  · rintro args m' ⟨i, -, ⟨rfl, rfl⟩, hend⟩
    obtain rfl : i = n := hend.resolve_right (by simp)
    exact ⟨rfl, List.take_of_length_le (by simp; omega)⟩

include hp in
theorem wp_recipeFunctionStep_eval (hdepth : m.stack.length < 2 ^ 63)
    (h : Awaits k p o stack (Facade.recipeStep recipeFunction stack) m) :
    (recipeFunctionStep k p).wp (fun _ => Carries k p o) (Gives o) m := by
  -- What the functional step still has to do behind each of the reads.
  have h₀ : Awaits k p o stack (Facade.uintLe 4 >>= fun nparams => Facade.u8 >>= fun varargs =>
      Facade.uintLe 2 >>= fun cc => remaining >>= fun left =>
        if left / 4 < nparams then StateT.lift none
        else ((List.range nparams).mapM fun _ => Facade.str) >>= fun names =>
          StateT.lift (buildFunc names varargs cc stack)) m := h
  refine wp_bind_of (wp_uintLe hp h.within (n := 4) (by omega)) fun nparams m₁ hread₁ => ?_
  have h₁ := h₀.read hread₁
  refine wp_bind_of (wp_u8 hp h₁.within) fun varargs m₂ hread₂ => ?_
  have h₂ := h₁.read hread₂
  refine wp_bind_of (wp_uintLe hp h₂.within (n := 2) (by omega)) fun cc m₃ hread₃ => ?_
  have h₃ := h₂.read hread₃
  have hwithin := h₃.within
  have hleft : sizeSub p.length m₃.pos = (p.drop m₃.pos).length := by
    rw [sizeSub_of_le hwithin (by omega), List.length_drop]
  rw [wp_bind, wp_get, wp_bind, wp_require, hleft]
  constructor
  swap
  · -- More names than the bytes left have room for.
    intro hnot
    refine h₃.refuse fun hok => ?_
    have hmany : (p.drop m₃.pos).length / 4 < nparams := by
      by_contra hle
      exact hnot ⟨hok, Nat.not_lt.mp hle⟩
    show (if (p.drop m₃.pos).length / 4 < nparams then StateT.lift none else _ :
      Reader (List Tinfo)) (p.drop m₃.pos) = none
    rw [if_pos hmany]
    rfl
  rintro ⟨hok₃, hfew⟩
  have hcount : nparams < 2 ^ 32 := hread₁.lt (hread₂.of_ok (hread₃.of_ok hok₃).1).1
  have ho : o = afterwards k (((List.range nparams).mapM fun _ => Facade.str) >>= fun names =>
      StateT.lift (buildFunc names varargs cc stack)) (p.drop m₃.pos) := by
    have hahead := h₃.ahead hok₃
    unfold afterwards at hahead ⊢
    rw [bind_of_eq_some (m := remaining) rfl, if_neg (by omega)] at hahead
    exact hahead
  refine wp_bind_of (wp_names hp hok₃ hwithin) fun names m₄ hnames => ?_
  have hstack : m₄.stack = m₃.stack := hnames.ahead.stack
  have hwithin₄ := hnames.ahead.within
  have h₄ : Awaits k p o stack (StateT.lift (buildFunc names varargs cc stack)) m₄ := by
    refine ⟨hwithin₄, hstack.symm ▸ h₃.stands, fun hok => ?_, fun hok => ?_⟩
    · have hread := hnames.read hok
      rw [List.take_of_length_le (le_of_eq hnames.size)] at hread
      rw [ho]
      unfold afterwards
      rw [bind_of_eq_some hread]
    · rw [ho]
      show Option.bind (Option.bind (((List.range nparams).mapM fun _ => Facade.str) _) _) _ = none
      rw [hnames.spent hok]
      rfl
  have hdepth₄ : m₄.stack.length < 2 ^ 63 := by
    rwa [hstack, hread₃.1, hread₂.1, hread₁.1]
  have hsize := hnames.size
  rw [wp_bind, wp_get, wp_bind, wp_require, sizeAdd_of_lt (by omega)]
  constructor
  swap
  · -- No return type below the parameters: the same for both stacks.
    intro hnot
    refine h₄.refuse fun hok => ?_
    have hshort : stack.drop names.length = [] := by
      apply List.drop_eq_nil_of_le
      rw [h₄.stands.length_eq, List.length_reverse]
      by_contra hlt
      exact hnot ⟨hok, by omega⟩
    rw [buildFunc, hshort]
    rfl
  rintro ⟨hok₄, hdeep⟩
  obtain ⟨ts, rettype, rest, vs, x, init, rfl, hxs, hvs, hret, hargs, hrest⟩ :=
    exists_function (n := nparams) (by omega) h₄.stands
  have hlength : m₄.stack.length = init.length + 1 + nparams := by
    rw [hxs, List.length_append, List.length_cons, hvs]
    omega
  have hbase : sizeSub m₄.stack.length nparams = init.length + 1 := by
    rw [sizeSub_of_le (by omega) (by omega)]
    omega
  have hbelow : sizeSub (init.length + 1) 1 = init.length := by
    rw [sizeSub_of_le (by omega) (by omega)]
    omega
  simp only [hbase, hbelow]
  rw [wp_bind, wp_entry]
  refine ⟨x, by rw [hxs, List.getElem?_append_right (le_refl _), Nat.sub_self]; rfl, ?_⟩
  refine wp_bind_of (wp_args hxs hvs hsize hdepth₄) fun args m₅ h₅ => ?_
  obtain ⟨rfl, rfl⟩ := h₅
  rw [wp_bind, wp_resize]
  refine ⟨by omega, ?_⟩
  -- The kernel makes what the functional step's term stands for.
  have hfunc : k.createFunc ⟨x, List.zipWith Funcarg.mk (names.map cStr) vs,
      if varargs ≠ 0 then .ellipsis else if cc ≠ 0 then .code cc else .unset⟩ =
        (some (.func rettype (List.zipWith Funcarg.mk (names.map cStr) ts)
          (if varargs ≠ 0 then .ellipsis else if cc ≠ 0 then .code cc else .unset))).bind
            (eval k) := by
    rw [Option.bind_some, eval, hret, Option.bind_some, evalArgs_zipWith k hargs,
      Option.bind_some]
  rw [hfunc]
  refine wp_push_eval _ (?_ : List.Forall₂ (fun t x => eval k t = some x) rest _) ?_
  · show List.Forall₂ _ rest (m₅.stack.take init.length).reverse
    rw [hxs, List.take_left]
    exact hrest
  · rw [h₄.ahead hok₄, buildFunc_of_pushed rettype (by rw [hsize, ← hvs, hargs.length_eq])]
    rfl

include hp in
/-- A type is pushed that is made of a text. -/
theorem wp_str_eval (make : List UInt8 → Tinfo) (hok : m.ok = true)
    (h : Awaits k p o stack (Facade.str >>= fun s => pure (make (cStr s) :: stack)) m) :
    (do
      let (read, name) ← str p []
      require (read = true)
      let t ← built (eval k (make (cStr name)))
      pushBack t : Code τ Unit).wp (fun _ => Carries k p o) (Gives o) m := by
  refine wp_bind_of (wp_str hp h.within hok []) fun a m' ha' => ?_
  obtain ⟨hread, hwell⟩ := ha'
  have h' := h.read hread
  show Stmt.wp (require (a.1 = true) >>= _) _ _ _
  rw [wp_bind, wp_require]
  rcases hwell with ⟨htrue, hok'⟩ | ⟨rfl, hok'⟩
  · exact ⟨fun _ => wp_push_eval (some (make (cStr a.2))) h'.stands (h'.ahead hok'),
      fun hnot => absurd htrue hnot⟩
  · exact ⟨fun htrue => Bool.noConfusion htrue,
      fun _ => h'.refuse fun hok => absurd (hok.symm.trans hok') (by simp)⟩

include hp in
/-- An opcode leaves what the terms of the other interpreter stand for, or
returns with an error where nothing can come of the bytes. -/
theorem wp_recipeStep_eval (op : UInt8) (hok : m.ok = true) (hdepth : m.stack.length < 2 ^ 63)
    (h : Awaits k p o stack (Facade.recipeStep op stack) m) :
    (recipeStep k p op).wp (fun _ => Carries k p o) (Gives o) m := by
  unfold recipeStep
  rw [wp_ite]; refine ⟨fun hop => ?_, fun hvoid => ?_⟩
  · subst hop
    exact wp_push_eval (some .void) h.stands (h.ahead hok)
  rw [wp_ite]; refine ⟨fun hop => ?_, fun hbool => ?_⟩
  · subst hop
    exact wp_push_eval (some .bool) h.stands (h.ahead hok)
  rw [wp_ite]; refine ⟨fun hop => ?_, fun hint => ?_⟩
  · subst hop
    have h₀ : Awaits k p o stack (Facade.u8 >>= fun bytes => Facade.u8 >>= fun signed =>
      StateT.lift (Facade.buildInt bytes.toNat (signed != 0)) >>= fun t => pure (t :: stack)) m := h
    refine wp_bind_of (wp_u8 hp h.within) fun bytes m₁ hread₁ => ?_
    have h₁ := h₀.read hread₁
    refine wp_bind_of (wp_u8 hp h₁.within) fun signed m₂ hread₂ => ?_
    rw [← eval_buildInt]
    exact wp_operands_eval _ (h₁.read hread₂)
  rw [wp_ite]; refine ⟨fun hop => ?_, fun hfloat => ?_⟩
  · subst hop
    have h₀ : Awaits k p o stack (Facade.u8 >>= fun bytes =>
      StateT.lift (Facade.buildFloat bytes.toNat) >>= fun t => pure (t :: stack)) m := h
    refine wp_bind_of (wp_u8 hp h.within) fun bytes m₁ hread₁ => ?_
    rw [← eval_buildFloat]
    exact wp_operands_eval _ (h₀.read hread₁)
  rw [wp_ite]; refine ⟨fun hop => ?_, fun hnamed => ?_⟩
  · subst hop
    exact wp_str_eval hp .named hok h
  rw [wp_ite]; refine ⟨fun hop => ?_, fun hdecl => ?_⟩
  · subst hop
    exact wp_str_eval hp .decl hok h
  rw [wp_ite]; refine ⟨fun hop => ?_, fun hptr => ?_⟩
  · subst hop
    rw [wp_bind, wp_get, wp_bind, wp_require]
    exact ⟨fun hne => wp_replaceBack_eval (fun t => rfl) h hok hne,
      fun hempty => h.refuse_empty (by simpa using hempty)⟩
  rw [wp_ite]; refine ⟨fun hop => ?_, fun harray => ?_⟩
  · subst hop
    have h₀ : Awaits k p o stack (Facade.uintLe 8 >>= fun nelems =>
      if u32Max < nelems then StateT.lift none
      else StateT.lift (wrapTop (.array · nelems) stack)) m := h
    refine wp_bind_of (wp_uintLe hp h.within (n := 8) (by omega)) fun nelems m₁ hread₁ => ?_
    have h₁ := h₀.read hread₁
    rw [wp_bind, wp_get, wp_bind, wp_require]
    by_cases hmany : u32Max < nelems
    · rw [if_pos hmany] at h₁
      exact ⟨fun hall => absurd hall.2.1 (by omega), fun _ => h₁.refuse fun _ => rfl⟩
    · rw [if_neg hmany] at h₁
      refine ⟨fun hall => wp_replaceBack_eval (fun t => rfl) h₁ hall.1 hall.2.2, fun hnot => ?_⟩
      by_cases hempty : m₁.stack = []
      · exact h₁.refuse_empty hempty
      · exact h₁.refuse fun hok => absurd ⟨hok, by omega, hempty⟩ hnot
  rw [wp_ite]; refine ⟨fun hop => ?_, fun hconst => ?_⟩
  · subst hop
    exact wp_qualify_eval .const (fun t => rfl) h hok
  rw [wp_ite]; refine ⟨fun hop => ?_, fun hvolatile => ?_⟩
  · subst hop
    exact wp_qualify_eval .volatile (fun t => rfl) h hok
  rw [wp_ite]; refine ⟨fun hop => ?_, fun hfunction => ?_⟩
  · subst hop
    exact wp_recipeFunctionStep_eval hp hdepth h
  rw [wp_ite]; refine ⟨fun hop => ?_, fun hbitfield => ?_⟩
  · subst hop
    have h₀ : Awaits k p o stack (Facade.u8 >>= fun nbytes => Facade.u8 >>= fun width =>
      Facade.u8 >>= fun signed =>
        pure (Tinfo.bitfield nbytes.toNat width.toNat (signed == 0) :: stack)) m := h
    refine wp_bind_of (wp_u8 hp h.within) fun nbytes m₁ hread₁ => ?_
    have h₁ := h₀.read hread₁
    refine wp_bind_of (wp_u8 hp h₁.within) fun width m₂ hread₂ => ?_
    have h₂ := h₁.read hread₂
    refine wp_bind_of (wp_u8 hp h₂.within) fun signed m₃ hread₃ => ?_
    have hmade : k.createBitfield nbytes width (signed == 0) =
        (some (Tinfo.bitfield nbytes.toNat width.toNat (signed == 0))).bind (eval k) := by
      rw [Option.bind_some, eval, UInt8.ofNat_toNat, UInt8.ofNat_toNat]
    rw [hmade]
    exact wp_operands_eval _ (h₂.read hread₃)
  -- An opcode that is none of these is refused on both sides.
  · refine h.refuse fun _ => ?_
    simp only [Facade.recipeStep, if_neg hvoid, if_neg hbool, if_neg hint, if_neg hfloat,
      if_neg hnamed, if_neg hdecl, if_neg hptr, if_neg harray, if_neg hconst, if_neg hvolatile,
      if_neg hfunction, if_neg hbitfield]
    rfl

end

/-! ### A whole recipe -/

section

variable {τ : Type} (k : Constructors τ) {p : List UInt8}

theorem outcome_nil (p : List UInt8) : outcome k [] p = (Facade.buildRecipe p).bind (eval k) := by
  unfold outcome Facade.buildRecipe
  cases interpret [] p with
  | none => rfl
  | some stack =>
      cases stack with
      | nil => rfl
      | cons out rest =>
          cases rest with
          | nil => rfl
          | cons _ _ => rfl

theorem outcome_singleton (t : Tinfo) : outcome k [t] [] = eval k t := by
  rw [outcome, interpret]

theorem outcome_of_length_ne {stack : List Tinfo} (h : stack.length ≠ 1) :
    outcome k stack [] = none := by
  rw [outcome, interpret]
  split
  · next t heq =>
      rw [Option.some.inj heq] at h
      exact absurd rfl h
  · rfl

structure Aligned (p : List UInt8) (o : Option τ) (m : Machine τ) : Prop where
  valid : Valid p m
  ok : m.ok = true
  carries : Carries k p o m

theorem wp_buildRecipe_eval (hp : p.length < 2 ^ 63) {fuel : ℕ} (hfuel : p.length < fuel) :
    (buildRecipe k p fuel).wp (fun _ _ => False) (Gives ((Facade.buildRecipe p).bind (eval k)))
      .start := by
  rw [← outcome_nil]
  -- The loop keeps to the outcome of the whole buffer, and each opcode takes a byte.
  refine wp_bind_of (wp_whileLoop (Aligned k p (outcome k [] p)) (fun m => p.length - m.pos)
    ?_ ?_ ?_) ?_
  · exact ⟨⟨Nat.zero_le _, le_refl _⟩, rfl, [], .nil, rfl⟩
  · exact Nat.lt_of_le_of_lt (Nat.sub_le _ _) hfuel
  · rintro m ⟨⟨hwithin, hdepth⟩, hok, stack, hstands, ho⟩ hmore
    have hlt : m.pos < p.length := by simpa [hasMore, hok] using hmore
    refine wp_bind_of (wp_u8 hp hwithin) fun op m₁ hread => ?_
    have hcons := List.drop_eq_getElem_cons hlt
    obtain ⟨hstack, -, hwithin₁, hrest⟩ := hread
    rw [hcons] at hrest
    obtain ⟨hok₁, hop, hrest⟩ : m₁.ok = m.ok ∧ op = p[m.pos] ∧
      p.drop (m.pos + 1) = p.drop m₁.pos := hrest
    have hlength := congrArg List.length hrest
    rw [List.length_drop, List.length_drop] at hlength
    have hsize := congrArg List.length hstack
    have hwell : m₁.ok = true := hok₁.trans hok
    have hawaits : Awaits k p (outcome k [] p) stack (Facade.recipeStep op stack) m₁ := by
      refine ⟨hwithin₁, hstack.symm ▸ hstands, fun _ => ?_, fun h => ?_⟩
      · rw [ho, hcons, hrest, outcome_cons, hop]
      · exact absurd (hwell.symm.trans h) (by simp)
    have hsteps := wp_recipeStep hp (Ahead.refl hwithin₁) k op hwell (by omega)
    have hcarries := wp_recipeStep_eval hp op hwell (by omega) hawaits
    refine wp_mono (wp_weaken_ret (wp_and hsteps hcarries) fun _ _ h => h.2) ?_
    rintro - m' ⟨⟨hok', hle, hwithin', hgrows⟩, hcarries'⟩
    exact ⟨⟨⟨hwithin', by omega⟩, hok', hcarries'⟩, by omega⟩
  · rintro - m ⟨⟨⟨hwithin, -⟩, hok, stack, hstands, ho⟩, hmore⟩
    have hend : p.length ≤ m.pos := by simpa [hasMore, hok] using hmore
    rw [List.drop_eq_nil_of_le hend] at ho
    have hlength := hstands.length_eq
    rw [List.length_reverse] at hlength
    -- At the end of the buffer one type has to be left.
    rw [wp_bind, wp_get, wp_bind, wp_require]
    constructor
    · rintro ⟨-, hone⟩
      obtain ⟨x, hx⟩ := List.length_eq_one_iff.mp hone
      obtain ⟨t, rfl⟩ := List.length_eq_one_iff.mp (hlength.trans hone)
      rw [hx] at hstands
      obtain ⟨ht, -⟩ := List.forall₂_cons.mp hstands
      rw [wp_bind, wp_entry]
      refine ⟨x, by simp [hx], ?_⟩
      show (typeOk, some x) = answer (outcome k [] p)
      rw [ho, outcome_singleton, ht]
      rfl
    · intro hnot
      have hnone : outcome k [] p = none := by
        rw [ho]
        exact outcome_of_length_ne k fun hone => hnot ⟨hok, hlength.symm.trans hone⟩
      show (typeErrInput, none) = answer (outcome k [] p)
      rw [hnone]
      rfl

/-- The interpreter returns what the term stands for that the bytes make. -/
theorem buildRecipe_eval (recipe : Slice) :
    ∃ m, ∀ fuel, recipe.bytes.length < fuel → buildRecipe k recipe.bytes fuel .start =
      .returned (answer ((Facade.buildRecipe recipe.bytes).bind (eval k))) m := by
  have hwp := wp_buildRecipe_eval k recipe.fits (Nat.lt_succ_self _)
  obtain ⟨r, m, hreturned, hgives⟩ := wp_false_iff.mp hwp
  refine ⟨m, fun fuel hfuel => ?_⟩
  rw [buildRecipe_fuel k recipe.fits (Nat.lt_succ_self _) hfuel, hreturned, hgives]

end

end Idakit.Facade.RecipeMachine
