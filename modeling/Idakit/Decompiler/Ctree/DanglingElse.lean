import Idakit.Decompiler.Ctree.ControlFlow

/-!
A rendered body reads back as its skeleton exactly when no `else` and no
`catch` in it stands behind a statement that takes it.

The printer puts no braces around the branch of an `if`, so a branch that ends
in an `if` without an `else` takes the `else` of the outer one.
-/

namespace Idakit.Decompiler

variable {ε : Type}

namespace StatementTree

theorem Everywhere.here {p : StatementTree ε → Prop} {s : StatementTree ε}
    (h : s.Everywhere p) : p s := by
  cases h with
  | mk here all => exact here

theorem Everywhere.all {p : StatementTree ε → Prop} {s : StatementTree ε}
    (h : s.Everywhere p) : ∀ t ∈ s.inside, t.Everywhere p := by
  cases h with
  | mk here all => exact all

theorem insideInduct {motive : StatementTree ε → Prop}
    (step : ∀ s, (∀ t ∈ s.inside, motive t) → motive s) (s : StatementTree ε) : motive s := by
  have none_ {P : StatementTree ε → Prop} : ∀ t ∈ ([] : List (StatementTree ε)), P t := by simp
  have one {t : StatementTree ε} (ht : motive t) : ∀ u ∈ [t], motive u := by
    simpa using ht
  have more {t : StatementTree ε} {l : List (StatementTree ε)} (ht : motive t)
      (hl : ∀ u ∈ l, motive u) : ∀ u ∈ t :: l, motive u := by
    simpa using And.intro ht hl
  exact @StatementTree.rec ε motive (fun kind => ∀ t ∈ inside (.node kind), motive t)
    (fun l => ∀ t ∈ l, motive t) (fun o => ∀ t ∈ o.toList, motive t)
    (fun cases => ∀ t ∈ cases.map Case.body, motive t) (fun c => motive c.body)
    (fun _ h => step _ h) (fun _ h => h) (fun _ => none_) (fun _ _ _ ht ho => more ht ho)
    (fun _ _ _ _ h => one h) (fun _ _ h => one h) (fun _ _ h => one h) (fun _ _ h => h)
    none_ none_ (fun _ => none_) (fun _ => none_) (fun _ => none_)
    (fun _ _ hb hc => more hb hc) (fun _ => none_) none_ none_ (fun _ _ hs hl => more hs hl)
    none_ (fun _ h => one h) none_ (fun _ _ hc hl => more hc hl) (fun _ _ h => h) s

/-! ### Reading a rendering back -/

/-- The tokens behind a statement leave it closed. -/
def Fits (s : StatementTree ε) (rest : List (StatementToken ε)) : Prop :=
  (s.OpenIf → rest.head? ≠ some .else_) ∧ (s.OpenTry → rest.head? ≠ some .catch_)

theorem Fits.tail {s t : StatementTree ε} {rest : List (StatementToken ε)} (h : s.Fits rest)
    (ht : s.tail = some t) : t.Fits rest :=
  ⟨fun ho => h.1 (.tail ht ho), fun ho => h.2 (.tail ht ho)⟩

theorem fits_cons {t : StatementToken ε} (helse : t ≠ .else_) (hcatch : t ≠ .catch_)
    (s : StatementTree ε) (rest : List (StatementToken ε)) : s.Fits (t :: rest) :=
  ⟨fun _ => by simpa using helse, fun _ => by simpa using hcatch⟩

variable {blank : ε → Bool}

/-- A rendering reads back as the skeleton, with what stands behind it left. -/
def ReadsBack (blank : ε → Bool) (s : StatementTree ε) : Prop :=
  ∀ n rest, 2 * (s.render blank).length ≤ n → s.Fits rest →
    readStatement n (s.render blank ++ rest) = some (s.skeleton blank, rest)

/-- No statement starts like what can stand behind one. -/
theorem render_eq_cons (blank : ε → Bool) (s : StatementTree ε) :
    ∃ t ts, s.render blank = t :: ts ∧ t ≠ .rightBrace ∧ t ≠ .case_ ∧ t ≠ .else_ ∧ t ≠ .catch_ := by
  obtain ⟨kind⟩ := s
  cases kind with
  | expression e =>
      rw [render, renderExpression]
      split <;> exact ⟨_, _, rfl, by simp⟩
  | if_ cond then_ else_ =>
      cases else_ <;> exact ⟨_, _, rfl, by simp⟩
  | _ => exact ⟨_, _, rfl, by simp⟩

theorem readStatements_render {statements : List (StatementTree ε)}
    (h : ∀ s ∈ statements, s.ReadsBack blank) {n : ℕ} (rest : List (StatementToken ε))
    (hn : 2 * (renderStatements blank statements).length + 1 ≤ n) :
    readStatements n (renderStatements blank statements ++ .rightBrace :: rest) =
      some (skeletons blank statements, rest) := by
  induction statements generalizing n with
  | nil =>
      obtain ⟨n, rfl⟩ := Nat.exists_eq_add_of_le' hn
      rfl
  | cons s statements ih =>
      obtain ⟨t, ts, hs, hbrace, hcase, -⟩ := s.render_eq_cons blank
      have hlen := congrArg List.length hs
      simp only [renderStatements, List.length_append, List.length_cons] at hn hlen
      obtain ⟨n, rfl⟩ : ∃ m, n = m + 1 := ⟨n - 1, by omega⟩
      have hfits : s.Fits (renderStatements blank statements ++ .rightBrace :: rest) := by
        cases statements with
        | nil => exact fits_cons (by simp) (by simp) s rest
        | cons s' statements =>
            obtain ⟨t, ts, hs', -, -, helse, hcatch⟩ := s'.render_eq_cons blank
            rw [renderStatements, hs']
            exact fits_cons helse hcatch s _
      have hread := h s (by simp) n _ (by omega) hfits
      have hmore := @ih (fun s hs => h s (by simp [hs])) n (by omega)
      rw [renderStatements, List.append_assoc, readStatements]
      · simp only [hread, hmore, Option.bind_eq_bind, Option.bind_some, skeletons]
      · intro ts' h
        rw [hs] at h
        exact hbrace (List.cons.inj h).1

theorem mem_dropLast_cons {α : Type} (a : α) {l : List α} {b : α} (h : b ∈ l.dropLast) :
    b ∈ (a :: l).dropLast := by
  cases l with
  | nil => cases h
  | cons a' l => exact List.mem_cons_of_mem a h

/-- A statement before `catch`es is closed by them, the last one by the rest. -/
theorem fits_catches (blank : ε → Bool) {s : StatementTree ε} {catches : List (StatementTree ε)}
    {rest : List (StatementToken ε)} (hopen : ∀ t ∈ (s :: catches).dropLast, ¬ t.OpenTry)
    (hlast : ∀ t ∈ (s :: catches).getLast?, t.Fits rest) :
    s.Fits (renderCatches blank catches ++ rest) := by
  cases catches with
  | nil => exact hlast s rfl
  | cons t catches =>
      exact ⟨fun _ => by simp [renderCatches], fun ho => absurd ho (hopen s (by simp))⟩

theorem readCatches_render {catches : List (StatementTree ε)}
    (h : ∀ s ∈ catches, s.ReadsBack blank) {n : ℕ} {rest : List (StatementToken ε)}
    (hopen : ∀ s ∈ catches.dropLast, ¬ s.OpenTry)
    (hlast : ∀ s ∈ catches.getLast?, s.Fits rest) (hcatch : rest.head? ≠ some .catch_)
    (hn : 2 * (renderCatches blank catches).length + 1 ≤ n) :
    readCatches n (renderCatches blank catches ++ rest) = some (skeletons blank catches, rest) := by
  induction catches generalizing n with
  | nil =>
      obtain ⟨n, rfl⟩ : ∃ m, n = m + 1 := ⟨n - 1, by omega⟩
      rw [renderCatches, List.nil_append, readCatches]
      · rfl
      · rintro ts rfl
        exact hcatch rfl
  | cons s catches ih =>
      simp only [renderCatches, List.length_append, List.length_cons] at hn
      obtain ⟨n, rfl⟩ : ∃ m, n = m + 1 := ⟨n - 1, by omega⟩
      have hread := h s (by simp) n _ (by omega) (fits_catches blank hopen hlast)
      have hmore : readCatches n (renderCatches blank catches ++ rest) =
          some (skeletons blank catches, rest) := by
        exact ih (fun s hs => h s (by simp [hs])) (fun t ht => hopen t (mem_dropLast_cons s ht))
          (fun t ht => hlast t (List.mem_getLast?_cons ht)) (by omega)
      simp only [renderCatches, List.cons_append, List.append_assoc, readCatches, hread, hmore,
        Option.bind_eq_bind, Option.bind_some, skeletons]

/-- The labels of a case read back, before anything else than a label. -/
theorem readValues_render (values : List UInt64) {ts : List (StatementToken ε)}
    (hts : ts.head? ≠ some .case_) :
    readValues ((values.flatMap fun v => [.case_, .number v, .colon]) ++ ts) = (values, ts) := by
  induction values with
  | nil =>
      rw [List.flatMap_nil, List.nil_append, readValues]
      rintro v ts' rfl
      exact hts rfl
  | cons v values ih =>
      simp only [List.flatMap_cons, List.cons_append, List.nil_append, readValues, ih]

theorem readCases_render {cases : List (Case (StatementTree ε))}
    (h : ∀ s ∈ cases.map Case.body, s.ReadsBack blank) {n : ℕ} (rest : List (StatementToken ε))
    (hn : 2 * (renderCases blank cases).length + 1 ≤ n) :
    readCases n (renderCases blank cases ++ .rightBrace :: rest) =
      some (caseSkeletons blank cases, rest) := by
  induction cases generalizing n with
  | nil =>
      obtain ⟨n, rfl⟩ := Nat.exists_eq_add_of_le' hn
      rfl
  | cons c cases ih =>
      obtain ⟨values, body⟩ := c
      have hfits : body.Fits (renderCases blank cases ++ .rightBrace :: rest) := by
        cases cases with
        | nil => exact fits_cons (by simp) (by simp) body rest
        | cons c cases =>
            obtain ⟨values, body'⟩ := c
            cases values <;> exact fits_cons (by simp) (by simp) body _
      obtain ⟨t, ts, hs, hbrace, hcase, -⟩ := body.render_eq_cons blank
      have hlen := congrArg List.length hs
      simp only [renderCases, List.length_append, List.length_cons] at hn hlen
      obtain ⟨n, rfl⟩ : ∃ m, n = m + 1 := ⟨n - 1, by omega⟩
      have hread := h body (by simp) n _ (by omega) hfits
      have hmore := @ih (fun s hs => h s (by simp [hs])) n (by omega)
      cases values with
      | nil =>
          simp only [renderCases, renderValues, List.isEmpty_nil, if_true, List.cons_append,
            List.nil_append, List.append_assoc, readCases, hread, hmore, Option.bind_eq_bind,
            Option.bind_some, caseSkeletons]
      | cons v values =>
          have hvalues := @readValues_render ε (v :: values)
            (body.render blank ++ (renderCases blank cases ++ .rightBrace :: rest))
            (by simpa [hs] using hcase)
          simp only [renderCases, renderValues, List.isEmpty_cons, Bool.false_eq_true, if_false,
            List.append_assoc]
          rw [readCases]
          · simp only [hvalues, hread, hmore, Option.bind_eq_bind, Option.bind_some, caseSkeletons]
          · simp
          · simp

theorem readOptional_render (e : Option ε) {t : StatementToken ε} (ht : ∀ e, t ≠ .expression e)
    (ts : List (StatementToken ε)) :
    readOptional (renderOptional blank e ++ t :: ts) = (e.filter (!blank ·), t :: ts) := by
  have hnone : readOptional (t :: ts) = (none, t :: ts) := by
    rw [readOptional]
    intro e ts' h
    exact ht e (List.cons.inj h).1
  cases e with
  | none => exact hnone
  | some e =>
      cases h : blank e
      · simp [renderOptional, renderExpression, readOptional, Option.filter, h]
      · simpa [renderOptional, renderExpression, Option.filter, h] using hnone

theorem readHeader_render (init cond step : Option ε) (ts : List (StatementToken ε)) :
    readHeader (renderOptional blank init ++ .semicolon :: (renderOptional blank cond ++
      .semicolon :: (renderOptional blank step ++ .rightParen :: ts))) =
      some ((init.filter (!blank ·), cond.filter (!blank ·), step.filter (!blank ·)), ts) := by
  simp only [readHeader, readOptional_render (t := .semicolon) _ (by simp),
    readOptional_render (t := .rightParen) _ (by simp)]

/-- An unambiguous statement reads back as its skeleton. -/
theorem readsBack_of_unambiguous {s : StatementTree ε} (h : s.Unambiguous blank) :
    s.ReadsBack blank := by
  induction s using insideInduct with
  | step s ih =>
  intro n rest hn hrest
  have hin : ∀ t ∈ s.inside, t.ReadsBack blank := fun t ht => ih t ht (h.all t ht)
  have hhere := h.here
  obtain ⟨t, ts, hs, -⟩ := s.render_eq_cons blank
  have hlen := congrArg List.length hs
  rw [List.length_cons] at hlen
  obtain ⟨n, rfl⟩ : ∃ m, n = m + 1 := ⟨n - 1, by omega⟩
  clear hs hlen ih h
  obtain ⟨kind⟩ := s
  cases kind with
  | block statements =>
      simp only [render, List.length_append, List.length_cons, List.length_nil] at hn
      have hread := @readStatements_render ε blank statements hin n rest (by omega)
      simp only [render, List.cons_append, List.append_assoc, List.nil_append, readStatement, hread,
        Option.bind_eq_bind, Option.bind_some, skeleton]
  | expression e =>
      cases h : blank e <;> simp [render, renderExpression, readStatement, skeleton, h]
  | if_ cond then_ else_ =>
      obtain ⟨hcond, hopen⟩ := hhere
      cases else_ with
      | none =>
          simp only [render, renderExpression, hcond, List.length_append, List.length_cons] at hn
          have hread := hin then_ (by simp [inside]) n rest (by omega) (hrest.tail rfl)
          -- No `else` stands behind the statement, so none is taken.
          have helse : rest.head? ≠ some .else_ := hrest.1 (.here trivial)
          simp only [render, renderExpression, hcond, Bool.false_eq_true, if_false,
            List.cons_append, List.nil_append, readStatement, hread, Option.bind_eq_bind,
            Option.bind_some, skeleton]
          split
          · exact absurd rfl helse
          · rfl
      | some else_ =>
          simp only [render, renderExpression, hcond, List.length_append, List.length_cons] at hn
          -- The branch is closed before the `else` of the statement itself.
          have hthen := hin then_ (by simp [inside]) n (.else_ :: (else_.render blank ++ rest))
            (by omega) ⟨fun ho => absurd ho (hopen rfl), by simp⟩
          have helse := hin else_ (by simp [inside]) n rest (by omega) (hrest.tail rfl)
          simp only [render, renderExpression, hcond, Bool.false_eq_true, if_false,
            List.cons_append, List.append_assoc, List.nil_append, readStatement, hthen, helse,
            Option.bind_eq_bind, Option.bind_some, skeleton]
  | for_ init cond step body =>
      simp only [render, List.length_append, List.length_cons] at hn
      have hread := hin body (by simp [inside]) n rest (by omega) (hrest.tail rfl)
      simp only [render, List.cons_append, List.append_assoc, readStatement, readHeader_render,
        hread, Option.bind_eq_bind, Option.bind_some, skeleton]
  | while_ cond body =>
      have hcond : blank cond = false := hhere
      simp only [render, renderExpression, hcond, List.length_append, List.length_cons] at hn
      have hread := hin body (by simp [inside]) n rest (by omega) (hrest.tail rfl)
      simp only [render, renderExpression, hcond, Bool.false_eq_true, if_false, List.cons_append,
        List.nil_append, readStatement, hread, Option.bind_eq_bind, Option.bind_some, skeleton]
  | do_ body cond =>
      have hcond : blank cond = false := hhere
      simp only [render, renderExpression, hcond, List.length_append, List.length_cons] at hn
      have hread := hin body (by simp [inside]) n (.while_ :: .leftParen :: .expression cond ::
        .rightParen :: .semicolon :: rest) (by omega) (fits_cons (by simp) (by simp) _ _)
      simp only [render, renderExpression, hcond, Bool.false_eq_true, if_false, List.cons_append,
        List.append_assoc, List.nil_append, readStatement, hread, Option.bind_eq_bind,
        Option.bind_some, skeleton]
  | switch e cases =>
      have he : blank e = false := hhere
      simp only [render, renderExpression, he, List.length_append, List.length_cons] at hn
      have hread := @readCases_render ε blank cases hin n rest (by omega)
      simp only [render, renderExpression, he, Bool.false_eq_true, if_false, List.cons_append,
        List.append_assoc, List.nil_append, readStatement, hread, Option.bind_eq_bind,
        Option.bind_some, skeleton]
  | return_ e | throw e =>
      simp only [render, List.cons_append, List.append_assoc, List.nil_append, readStatement,
        readOptional_render (t := .semicolon) _ (by simp), skeleton]
  | goto label =>
      have hlabel : 0 ≤ label := hhere
      simp [render, renderLabel, hlabel, readStatement, skeleton]
  | try_ body catches =>
      -- Only the last block meets what follows; a block before it meets a `catch`.
      have hlast : ∀ t ∈ (body :: catches).getLast?, t.Fits rest := fun t ht =>
        hrest.tail (by rw [← ht]; exact (List.getLast?_eq_some_getLast (by simp)).symm)
      simp only [render, List.length_append, List.length_cons] at hn
      have hbody := hin body (by simp [inside]) n _ (by omega) (fits_catches blank hhere hlast)
      have hcatches : readCatches n (renderCatches blank catches ++ rest) =
          some (skeletons blank catches, rest) := by
        obtain ⟨t, ts, hs, -⟩ := body.render_eq_cons blank
        have hlen := congrArg List.length hs
        rw [List.length_cons] at hlen
        exact readCatches_render (fun t ht => hin t (by simp [inside, ht]))
          (fun t ht => hhere t (mem_dropLast_cons body ht))
          (fun t ht => hlast t (List.mem_getLast?_cons ht)) (hrest.2 (.here trivial)) (by omega)
      simp only [render, List.cons_append, List.append_assoc, readStatement, hbody, hcatches,
        Option.bind_eq_bind, Option.bind_some, skeleton]
  | break_ | continue_ | asm _ | empty => rfl

/-! ### What a reading is like -/

theorem Unambiguous.mk {s : StatementTree ε} (here : s.UnambiguousHere blank)
    (all : ∀ t ∈ s.inside, t.Unambiguous blank) : s.Unambiguous blank :=
  Everywhere.mk here all

def Shown (blank : ε → Bool) (ts : List (StatementToken ε)) : Prop :=
  ∀ e, .expression e ∈ ts → blank e = false

theorem Shown.tail {t : StatementToken ε} {ts : List (StatementToken ε)}
    (h : Shown blank (t :: ts)) : Shown blank ts :=
  fun e he => h e (List.mem_cons_of_mem t he)

theorem Shown.readOptional {ts ts' : List (StatementToken ε)} {e : Option ε}
    (h : Shown blank ts) (hread : readOptional ts = (e, ts')) : Shown blank ts' := by
  rw [Decompiler.readOptional.eq_def] at hread
  split at hread
  · obtain ⟨-, rfl⟩ := Prod.mk.inj hread
    exact h.tail
  · obtain ⟨-, rfl⟩ := Prod.mk.inj hread
    exact h

theorem Shown.readHeader {ts ts' : List (StatementToken ε)} {header : Option ε × Option ε × Option ε}
    (h : Shown blank ts) (hread : readHeader ts = some (header, ts')) : Shown blank ts' := by
  rw [Decompiler.readHeader] at hread
  split at hread
  · next h1 =>
      split at hread
      · next h2 =>
          split at hread
          · next h3 =>
              obtain ⟨-, rfl⟩ := Prod.mk.inj (Option.some.inj hread)
              exact ((((h.readOptional h1).tail).readOptional h2).tail.readOptional h3).tail
          · cases hread
      · cases hread
  · cases hread

theorem Shown.readValues {ts : List (StatementToken ε)} (h : Shown blank ts) :
    Shown blank (readValues ts).2 := by
  induction ts using Decompiler.readValues.induct with
  | case1 v ts ih =>
      rw [Decompiler.readValues]
      exact ih h.tail.tail.tail
  | case2 ts hne =>
      rw [Decompiler.readValues]
      · exact h
      · exact hne

/-- A statement that cannot go on leaves nothing open. -/
theorem fits_of_tail_eq_none {s : StatementTree ε} (h : s.tail = none) (hif : ¬ s.IsBareIf)
    (htry : ¬ s.IsTry) (rest : List (StatementToken ε)) : s.Fits rest := by
  constructor
  all_goals
    rintro (ho | ⟨ht, -⟩)
    · contradiction
    · rw [h] at ht
      cases ht

/-- A statement leaves open what its last part does, and what it is itself. -/
theorem Fits.of_tail {s t : StatementTree ε} {rest : List (StatementToken ε)} (h : t.Fits rest)
    (ht : s.tail = some t) (hif : s.IsBareIf → rest.head? ≠ some .else_)
    (htry : s.IsTry → rest.head? ≠ some .catch_) : s.Fits rest := by
  constructor
  · rintro (ho | ⟨ht', ho⟩)
    · exact hif ho
    · rw [ht] at ht'
      exact h.1 (Option.some.inj ht' ▸ ho)
  · rintro (ho | ⟨ht', ho⟩)
    · exact htry ho
    · rw [ht] at ht'
      exact h.2 (Option.some.inj ht' ▸ ho)

structure WellRead (blank : ε → Bool) (s : StatementTree ε) (ts : List (StatementToken ε)) :
    Prop where
  unambiguous : s.Unambiguous blank
  fits : s.Fits ts
  shown : Shown blank ts

theorem wellRead_leaf {s : StatementTree ε} {ts : List (StatementToken ε)}
    (hinside : s.inside = []) (hhere : s.UnambiguousHere blank) (htail : s.tail = none)
    (hif : ¬ s.IsBareIf) (htry : ¬ s.IsTry) (hshown : Shown blank ts) : WellRead blank s ts :=
  ⟨Unambiguous.mk hhere (by simp [hinside]), fits_of_tail_eq_none htail hif htry ts, hshown⟩

/-- What one unit of fuel less gives for statements and for their lists. -/
structure ReadsWell (blank : ε → Bool) (n : ℕ) : Prop where
  statement : ∀ ⦃ts s ts'⦄, Shown blank ts → readStatement n ts = some (s, ts') →
    WellRead blank s ts'
  statements : ∀ ⦃ts l ts'⦄, Shown blank ts → readStatements n ts = some (l, ts') →
    (∀ s ∈ l, s.Unambiguous blank) ∧ Shown blank ts'
  cases : ∀ ⦃ts l ts'⦄, Shown blank ts → readCases n ts = some (l, ts') →
    (∀ s ∈ l.map Case.body, s.Unambiguous blank) ∧ Shown blank ts'
  catches : ∀ ⦃s ts l ts'⦄, WellRead blank s ts → readCatches n ts = some (l, ts') →
    (∀ t ∈ s :: l, t.Unambiguous blank) ∧ (∀ t ∈ (s :: l).dropLast, ¬ t.OpenTry) ∧
      (∀ t ∈ (s :: l).getLast?, t.Fits ts') ∧ ts'.head? ≠ some .catch_ ∧ Shown blank ts'

section

variable {n : ℕ} (ih : ∀ k, n = k + 1 → ReadsWell blank k) {ts ts' : List (StatementToken ε)}
include ih

theorem ReadsWell.statement_step {s : StatementTree ε} (hshown : Shown blank ts)
    (h : readStatement n ts = some (s, ts')) : WellRead blank s ts' := by
  revert h
  fun_cases readStatement n ts with
  | case1 | case13 | case18 | case19 =>
      intro h
      cases h
  | case2 n ts =>
      intro h
      simp only [Option.bind_eq_bind, Option.bind_eq_some_iff] at h
      obtain ⟨⟨l, ts₁⟩, hl, h⟩ := h
      obtain ⟨rfl, rfl⟩ := Prod.mk.inj (Option.some.inj h)
      have hl := (ih n rfl).statements hshown.tail hl
      exact ⟨Unambiguous.mk trivial hl.1, fits_of_tail_eq_none rfl id id _, hl.2⟩
  | case3 n ts =>
      intro h
      obtain ⟨rfl, rfl⟩ := Prod.mk.inj (Option.some.inj h)
      exact wellRead_leaf rfl trivial rfl id id hshown.tail
  | case4 n e ts | case10 n ts | case11 n ts =>
      intro h
      obtain ⟨rfl, rfl⟩ := Prod.mk.inj (Option.some.inj h)
      exact wellRead_leaf rfl trivial rfl id id hshown.tail.tail
  | case5 n cond ts =>
      intro h
      simp only [Option.bind_eq_bind, Option.bind_eq_some_iff] at h
      obtain ⟨⟨t, ts₁⟩, ht, h⟩ := h
      have hcond := hshown cond (by simp)
      have ht := (ih n rfl).statement hshown.tail.tail.tail.tail ht
      dsimp only at h ht
      -- The reader takes an `else` if there is one; without one, none can follow.
      split at h
      · simp only [Option.bind_eq_some_iff] at h
        obtain ⟨⟨e, ts₂⟩, he, h⟩ := h
        obtain ⟨rfl, rfl⟩ := Prod.mk.inj (Option.some.inj h)
        have he := (ih n rfl).statement ht.shown.tail he
        refine ⟨Unambiguous.mk ⟨hcond, fun _ ho => ht.fits.1 ho rfl⟩ ?_,
          he.fits.of_tail rfl nofun nofun, he.shown⟩
        simpa [inside] using And.intro ht.unambiguous he.unambiguous
      · next hne =>
          obtain ⟨rfl, rfl⟩ := Prod.mk.inj (Option.some.inj h)
          refine ⟨Unambiguous.mk ⟨hcond, by simp⟩ (by simpa [inside] using ht.unambiguous),
            ht.fits.of_tail rfl (fun _ hhead => ?_) nofun, ht.shown⟩
          obtain ⟨ts, rfl⟩ := List.head?_eq_some_iff.mp hhead
          exact hne ts rfl
  | case6 n ts =>
      intro h
      simp only [Option.bind_eq_bind, Option.bind_eq_some_iff] at h
      obtain ⟨⟨header, ts₁⟩, hheader, ⟨body, ts₂⟩, hbody, h⟩ := h
      obtain ⟨rfl, rfl⟩ := Prod.mk.inj (Option.some.inj h)
      have hbody := (ih n rfl).statement (hshown.tail.tail.readHeader hheader) hbody
      exact ⟨Unambiguous.mk trivial (by simpa [inside] using hbody.unambiguous),
        hbody.fits.of_tail rfl nofun nofun, hbody.shown⟩
  | case7 n cond ts =>
      intro h
      simp only [Option.bind_eq_bind, Option.bind_eq_some_iff] at h
      obtain ⟨⟨body, ts₁⟩, hbody, h⟩ := h
      obtain ⟨rfl, rfl⟩ := Prod.mk.inj (Option.some.inj h)
      have hbody := (ih n rfl).statement hshown.tail.tail.tail.tail hbody
      exact ⟨Unambiguous.mk (hshown cond (by simp)) (by simpa [inside] using hbody.unambiguous),
        hbody.fits.of_tail rfl nofun nofun, hbody.shown⟩
  | case8 n ts =>
      intro h
      simp only [Option.bind_eq_bind, Option.bind_eq_some_iff] at h
      obtain ⟨⟨body, ts₁⟩, hbody, h⟩ := h
      have hbody := (ih n rfl).statement hshown.tail hbody
      dsimp only at h hbody
      split at h
      · next cond _ _ =>
          obtain ⟨rfl, rfl⟩ := Prod.mk.inj (Option.some.inj h)
          exact ⟨Unambiguous.mk (hbody.shown cond (by simp))
              (by simpa [inside] using hbody.unambiguous),
            fits_of_tail_eq_none rfl id id _, hbody.shown.tail.tail.tail.tail.tail⟩
      · cases h
  | case9 n e ts =>
      intro h
      simp only [Option.bind_eq_bind, Option.bind_eq_some_iff] at h
      obtain ⟨⟨cases, ts₁⟩, hcases, h⟩ := h
      obtain ⟨rfl, rfl⟩ := Prod.mk.inj (Option.some.inj h)
      have hcases := (ih n rfl).cases hshown.tail.tail.tail.tail.tail hcases
      exact ⟨Unambiguous.mk (hshown e (by simp)) hcases.1, fits_of_tail_eq_none rfl id id _,
        hcases.2⟩
  | case12 n ts e ts₁ he | case17 n ts e ts₁ he =>
      intro h
      obtain ⟨rfl, rfl⟩ := Prod.mk.inj (Option.some.inj h)
      exact wellRead_leaf rfl trivial rfl id id (hshown.tail.readOptional he).tail
  | case14 n label ts =>
      intro h
      obtain ⟨rfl, rfl⟩ := Prod.mk.inj (Option.some.inj h)
      exact wellRead_leaf rfl label.2 rfl id id hshown.tail.tail.tail
  | case15 n ts =>
      intro h
      obtain ⟨rfl, rfl⟩ := Prod.mk.inj (Option.some.inj h)
      exact wellRead_leaf rfl trivial rfl id id hshown.tail.tail.tail
  | case16 n ts =>
      intro h
      simp only [Option.bind_eq_bind, Option.bind_eq_some_iff] at h
      obtain ⟨⟨body, ts₁⟩, hbody, ⟨catches, ts₂⟩, hcatches, h⟩ := h
      obtain ⟨rfl, rfl⟩ := Prod.mk.inj (Option.some.inj h)
      have hbody := (ih n rfl).statement hshown.tail hbody
      obtain ⟨hall, hopen, hlast, hcatch, hrest⟩ := (ih n rfl).catches hbody hcatches
      refine ⟨Unambiguous.mk hopen hall, Fits.of_tail (hlast _ ?_) rfl nofun fun _ => hcatch, hrest⟩
      exact List.getLast?_eq_some_getLast (by simp)

theorem ReadsWell.statements_step {l : List (StatementTree ε)} (hshown : Shown blank ts)
    (h : readStatements n ts = some (l, ts')) :
    (∀ s ∈ l, s.Unambiguous blank) ∧ Shown blank ts' := by
  revert h
  fun_cases readStatements n ts with
  | case1 =>
      intro h
      cases h
  | case2 n ts =>
      intro h
      obtain ⟨rfl, rfl⟩ := Prod.mk.inj (Option.some.inj h)
      exact ⟨by simp, hshown.tail⟩
  | case3 n =>
      intro h
      simp only [Option.bind_eq_bind, Option.bind_eq_some_iff] at h
      obtain ⟨⟨s, ts₁⟩, hs, ⟨l, ts₂⟩, hl, h⟩ := h
      obtain ⟨rfl, rfl⟩ := Prod.mk.inj (Option.some.inj h)
      have hs := (ih n rfl).statement hshown hs
      have hl := (ih n rfl).statements hs.shown hl
      exact ⟨List.forall_mem_cons.mpr ⟨hs.unambiguous, hl.1⟩, hl.2⟩

theorem ReadsWell.cases_step {l : List (Case (StatementTree ε))} (hshown : Shown blank ts)
    (h : readCases n ts = some (l, ts')) :
    (∀ s ∈ l.map Case.body, s.Unambiguous blank) ∧ Shown blank ts' := by
  have hcases {n : ℕ} {values : List UInt64} {ts ts₁ ts₂ : List (StatementToken ε)}
      {s : StatementTree ε} {l : List (Case (StatementTree ε))} (ih : ReadsWell blank n)
      (hshown : Shown blank ts) (hs : readStatement n ts = some (s, ts₁))
      (hl : readCases n ts₁ = some (l, ts₂)) :
      (∀ t ∈ (⟨values, s⟩ :: l : List (Case (StatementTree ε))).map Case.body,
        t.Unambiguous blank) ∧ Shown blank ts₂ := by
    have hs := ih.statement hshown hs
    have hl := ih.cases hs.shown hl
    exact ⟨List.forall_mem_cons.mpr ⟨hs.unambiguous, hl.1⟩, hl.2⟩
  revert h
  fun_cases readCases n ts with
  | case1 | case4 =>
      intro h
      cases h
  | case2 n ts =>
      intro h
      obtain ⟨rfl, rfl⟩ := Prod.mk.inj (Option.some.inj h)
      exact ⟨by simp, hshown.tail⟩
  | case3 n ts =>
      intro h
      simp only [Option.bind_eq_bind, Option.bind_eq_some_iff] at h
      obtain ⟨⟨s, ts₁⟩, hs, ⟨l, ts₂⟩, hl, h⟩ := h
      obtain ⟨rfl, rfl⟩ := Prod.mk.inj (Option.some.inj h)
      exact hcases (ih n rfl) hshown.tail.tail hs hl
  | case5 n ts _ _ v values ts₁ hvalues =>
      intro h
      simp only [Option.bind_eq_bind, Option.bind_eq_some_iff] at h
      obtain ⟨⟨s, ts₂⟩, hs, ⟨l, ts₃⟩, hl, h⟩ := h
      obtain ⟨rfl, rfl⟩ := Prod.mk.inj (Option.some.inj h)
      have hrest := hshown.readValues
      rw [hvalues] at hrest
      exact hcases (ih n rfl) hrest hs hl

theorem ReadsWell.catches_step {s : StatementTree ε} {l : List (StatementTree ε)}
    (hs : WellRead blank s ts) (h : readCatches n ts = some (l, ts')) :
    (∀ t ∈ s :: l, t.Unambiguous blank) ∧ (∀ t ∈ (s :: l).dropLast, ¬ t.OpenTry) ∧
      (∀ t ∈ (s :: l).getLast?, t.Fits ts') ∧ ts'.head? ≠ some .catch_ ∧ Shown blank ts' := by
  revert h
  fun_cases readCatches n ts with
  | case1 =>
      intro h
      cases h
  | case2 n ts =>
      intro h
      simp only [Option.bind_eq_bind, Option.bind_eq_some_iff] at h
      obtain ⟨⟨t, ts₁⟩, ht, ⟨l, ts₂⟩, hl, h⟩ := h
      obtain ⟨rfl, rfl⟩ := Prod.mk.inj (Option.some.inj h)
      have ht := (ih n rfl).statement hs.shown.tail ht
      obtain ⟨hall, hopen, hrest⟩ := (ih n rfl).catches ht hl
      refine ⟨List.forall_mem_cons.mpr ⟨hs.unambiguous, hall⟩, ?_, hrest⟩
      exact List.forall_mem_cons.mpr ⟨fun ho => hs.fits.2 ho rfl, hopen⟩
  | case3 n ts hne =>
      intro h
      obtain ⟨rfl, rfl⟩ := Prod.mk.inj (Option.some.inj h)
      refine ⟨by simpa using hs.unambiguous, by simp, by simpa using hs.fits, ?_, hs.shown⟩
      intro hhead
      obtain ⟨ts, rfl⟩ := List.head?_eq_some_iff.mp hhead
      exact hne ts rfl

end

theorem readsWell (blank : ε → Bool) (n : ℕ) : ReadsWell blank n := by
  -- Each reader calls the others with one unit of fuel less.
  have steps (n : ℕ) (ih : ∀ k, n = k + 1 → ReadsWell blank k) : ReadsWell blank n :=
    { statement := fun _ _ _ => ReadsWell.statement_step ih
      statements := fun _ _ _ => ReadsWell.statements_step ih
      cases := fun _ _ _ => ReadsWell.cases_step ih
      catches := fun _ _ _ _ => ReadsWell.catches_step ih }
  induction n with
  | zero => exact steps 0 fun k hk => absurd hk.symm (Nat.succ_ne_zero k)
  | succ n ih => exact steps (n + 1) fun k hk => Nat.succ.inj hk ▸ ih

/-! ### What a rendering holds -/

theorem shown_cons {t : StatementToken ε} {ts : List (StatementToken ε)} :
    Shown blank (t :: ts) ↔ (∀ e, t = .expression e → blank e = false) ∧ Shown blank ts := by
  constructor
  · intro h
    exact ⟨fun e he => h e (he ▸ List.mem_cons_self), h.tail⟩
  · rintro ⟨ht, hts⟩ e he
    rcases List.mem_cons.mp he with rfl | he
    · exact ht e rfl
    · exact hts e he

theorem shown_append {ts ts' : List (StatementToken ε)} :
    Shown blank (ts ++ ts') ↔ Shown blank ts ∧ Shown blank ts' := by
  simp only [Shown, List.mem_append, or_imp, forall_and]

theorem shown_nil : Shown blank [] := nofun

theorem shown_renderExpression (e : ε) : Shown blank (renderExpression blank e) := by
  rw [renderExpression]
  split
  · exact shown_nil
  · next h => simpa [shown_cons, shown_nil] using h

theorem shown_renderOptional (e : Option ε) : Shown blank (renderOptional blank e) := by
  cases e with
  | none => exact shown_nil
  | some e => simpa [renderOptional] using shown_renderExpression e

theorem shown_renderLabel (label : Int32) : Shown blank (renderLabel label) := by
  rw [renderLabel]
  split <;> simp [shown_cons, shown_nil]

theorem shown_renderValues (values : List UInt64) : Shown blank (renderValues values) := by
  intro e he
  rw [renderValues] at he
  split at he <;> simp at he

theorem shown_renderStatements {statements : List (StatementTree ε)}
    (h : ∀ s ∈ statements, Shown blank (s.render blank)) :
    Shown blank (renderStatements blank statements) := by
  induction statements with
  | nil => exact shown_nil
  | cons s statements ih =>
      exact shown_append.mpr ⟨h s (by simp), ih fun s hs => h s (by simp [hs])⟩

theorem shown_renderCatches {catches : List (StatementTree ε)}
    (h : ∀ s ∈ catches, Shown blank (s.render blank)) :
    Shown blank (renderCatches blank catches) := by
  induction catches with
  | nil => exact shown_nil
  | cons s catches ih =>
      exact shown_cons.mpr ⟨by simp, shown_append.mpr ⟨h s (by simp),
        ih fun s hs => h s (by simp [hs])⟩⟩

theorem shown_renderCases {cases : List (Case (StatementTree ε))}
    (h : ∀ s ∈ cases.map Case.body, Shown blank (s.render blank)) :
    Shown blank (renderCases blank cases) := by
  induction cases with
  | nil => exact shown_nil
  | cons c cases ih =>
      exact shown_append.mpr ⟨shown_append.mpr ⟨shown_renderValues c.values, h c.body (by simp)⟩,
        ih fun s hs => h s (by simp [hs])⟩

theorem shown_render (s : StatementTree ε) : Shown blank (s.render blank) := by
  induction s using insideInduct with
  | step s ih =>
  obtain ⟨kind⟩ := s
  cases kind with
  | block statements =>
      have hstatements : Shown blank (renderStatements blank statements) :=
        shown_renderStatements ih
      simpa [render, shown_cons, shown_append, shown_nil] using hstatements
  | switch e cases =>
      have hcases : Shown blank (renderCases blank cases) := shown_renderCases ih
      simpa [render, shown_cons, shown_append, shown_nil, shown_renderExpression] using hcases
  | try_ body catches =>
      have hcatches : Shown blank (renderCatches blank catches) :=
        shown_renderCatches fun t ht => ih t (by simp [inside, ht])
      simpa [render, shown_cons, shown_append] using And.intro (ih body (by simp [inside])) hcatches
  | if_ cond then_ else_ =>
      have hthen := ih then_ (by simp [inside])
      cases else_ with
      | none => simpa [render, shown_cons, shown_append, shown_renderExpression] using hthen
      | some else_ =>
          have helse := ih else_ (by simp [inside])
          simpa [render, shown_cons, shown_append, shown_renderExpression] using
            And.intro hthen helse
  | for_ init cond step body | while_ cond body | do_ body cond =>
      simpa [render, shown_cons, shown_append, shown_nil, shown_renderExpression,
        shown_renderOptional] using ih body (by simp [inside])
  | _ =>
      simp [render, shown_cons, shown_append, shown_nil, shown_renderExpression,
        shown_renderOptional, shown_renderLabel]

/-! ### Skeletons -/

theorem skeletons_eq_map (statements : List (StatementTree ε)) :
    skeletons blank statements = statements.map (skeleton blank) := by
  induction statements with
  | nil => rfl
  | cons s statements ih => rw [skeletons, ih, List.map_cons]

theorem caseSkeletons_bodies (cases : List (Case (StatementTree ε))) :
    (caseSkeletons blank cases).map Case.body = (cases.map Case.body).map (skeleton blank) := by
  induction cases with
  | nil => rfl
  | cons c cases ih => simp only [caseSkeletons, List.map_cons, ih]

theorem inside_skeleton (s : StatementTree ε) :
    (s.skeleton blank).inside = s.inside.map (skeleton blank) := by
  obtain ⟨kind⟩ := s
  cases kind with
  | block statements => exact skeletons_eq_map statements
  | expression e => rw [skeleton]; split <;> rfl
  | if_ cond then_ else_ => cases else_ <;> rfl
  | switch e cases => exact caseSkeletons_bodies cases
  | try_ body catches =>
      simp only [skeleton, inside, skeletons_eq_map, List.map_cons]
  | _ => rfl

theorem tail_skeleton (s : StatementTree ε) :
    (s.skeleton blank).tail = s.tail.map (skeleton blank) := by
  obtain ⟨kind⟩ := s
  cases kind with
  | expression e => rw [skeleton]; split <;> rfl
  | if_ cond then_ else_ => cases else_ <;> rfl
  | try_ body catches =>
      simp only [skeleton, tail, skeletons_eq_map, ← List.map_cons, List.getLast_map, Option.map_some]
  | _ => rfl

theorem isBareIf_skeleton (s : StatementTree ε) : (s.skeleton blank).IsBareIf ↔ s.IsBareIf := by
  obtain ⟨kind⟩ := s
  cases kind with
  | expression e => rw [skeleton]; split <;> rfl
  | if_ cond then_ else_ => cases else_ <;> rfl
  | _ => rfl

theorem isTry_skeleton (s : StatementTree ε) : (s.skeleton blank).IsTry ↔ s.IsTry := by
  obtain ⟨kind⟩ := s
  cases kind with
  | expression e => rw [skeleton]; split <;> rfl
  | if_ cond then_ else_ => cases else_ <;> rfl
  | _ => rfl

/-- Where a kind is kept by skeletons, so is ending in that kind. -/
theorem endsIn_skeleton {p : StatementTree ε → Prop} (hp : ∀ s, p (s.skeleton blank) ↔ p s)
    {s : StatementTree ε} (h : s.EndsIn p) : (s.skeleton blank).EndsIn p := by
  induction h with
  | here h => exact .here ((hp _).mpr h)
  | tail ht _ ih => exact .tail (by rw [tail_skeleton, ht, Option.map_some]) ih

theorem openIf_skeleton {s : StatementTree ε} (h : s.OpenIf) : (s.skeleton blank).OpenIf :=
  endsIn_skeleton isBareIf_skeleton h

theorem openTry_skeleton {s : StatementTree ε} (h : s.OpenTry) : (s.skeleton blank).OpenTry :=
  endsIn_skeleton isTry_skeleton h

theorem unambiguousHere_of_skeleton {s : StatementTree ε}
    (h : (s.skeleton blank).UnambiguousHere blank) : s.UnambiguousHere blank := by
  obtain ⟨kind⟩ := s
  cases kind with
  | if_ cond then_ else_ =>
      cases else_ with
      | none => exact ⟨h.1, by simp⟩
      | some else_ => exact ⟨h.1, fun _ ho => h.2 rfl (openIf_skeleton ho)⟩
  | try_ body catches =>
      intro t ht ho
      refine h (t.skeleton blank) ?_ (openTry_skeleton ho)
      rw [skeletons_eq_map, ← List.map_cons, ← List.map_dropLast]
      exact List.mem_map_of_mem ht
  | while_ cond body => exact h
  | do_ body cond => exact h
  | switch e cases => exact h
  | goto label => exact h
  | _ => trivial

/-- A statement whose skeleton is unambiguous is unambiguous itself. -/
theorem unambiguous_of_skeleton {s : StatementTree ε}
    (h : (s.skeleton blank).Unambiguous blank) : s.Unambiguous blank := by
  induction s using insideInduct with
  | step s ih =>
  refine .mk (unambiguousHere_of_skeleton h.here) fun t ht => ih t ht (h.all _ ?_)
  rw [inside_skeleton]
  exact List.mem_map_of_mem ht

/-! ### What the reader recovers -/

/-- The text reads as the skeleton, and no unambiguous statement with another
skeleton reads alike. -/
def Recovered (blank : ε → Bool) (s : StatementTree ε) : Prop :=
  readBody (s.render blank) = some (s.skeleton blank) ∧
    ∀ t : StatementTree ε, t.Unambiguous blank →
      readBody (t.render blank) = readBody (s.render blank) → t.skeleton blank = s.skeleton blank

theorem readBody_render {s : StatementTree ε} (h : s.Unambiguous blank) :
    readBody (s.render blank) = some (s.skeleton blank) := by
  have hread := readsBack_of_unambiguous h (2 * (s.render blank).length) [] le_rfl
    ⟨fun _ => nofun, fun _ => nofun⟩
  rw [List.append_nil] at hread
  rw [readBody, hread]

/-- Whatever is read is unambiguous. -/
theorem unambiguous_of_readBody {ts : List (StatementToken ε)} {s : StatementTree ε}
    (hts : Shown blank ts) (h : readBody ts = some s) : s.Unambiguous blank := by
  rw [readBody] at h
  split at h
  · next hread =>
      obtain rfl := Option.some.inj h
      exact ((readsWell blank _).statement hts hread).unambiguous
  · cases h

/-- A rendered statement is recovered if and only if no `else` and no `catch`
in it is taken by a statement before it, none of its conditions renders to
nothing and none of its labels is negative. -/
theorem recovered_iff (blank : ε → Bool) (s : StatementTree ε) :
    s.Recovered blank ↔ s.Unambiguous blank := by
  constructor
  · rintro ⟨hread, -⟩
    exact unambiguous_of_skeleton (unambiguous_of_readBody (shown_render s) hread)
  · intro hs
    refine ⟨readBody_render hs, fun t ht hread => ?_⟩
    rw [readBody_render hs, readBody_render ht] at hread
    exact Option.some.inj hread

/-- An `if` without an `else` in the branch of one that has an `else`. -/
def outerElse : StatementTree ExpressionId :=
  .node (.if_ 0 (.node (.if_ 1 (.node .break_) none)) (some (.node .continue_)))

/-- The same with the `else` of the inner `if`. -/
def innerElse : StatementTree ExpressionId :=
  .node (.if_ 0 (.node (.if_ 1 (.node .break_) (some (.node .continue_)))) none)

/-- The two render to one text, which reads as the second. -/
theorem not_recovered_outerElse :
    outerElse.render (fun _ => false) = innerElse.render (fun _ => false) ∧
      readBody (outerElse.render fun _ => false) = some innerElse ∧
      outerElse.skeleton (fun _ => false) ≠ innerElse := by
  refine ⟨rfl, rfl, ?_⟩
  simp [outerElse, innerElse, skeleton]

end StatementTree

end Idakit.Decompiler
