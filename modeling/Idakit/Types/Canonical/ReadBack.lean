import Idakit.Types.Canonical.Spelling

/-!
Reading a type back from its canonical string. Every spelling begins with
a keyword of lower-case letters, or with a bracket or a hash sign, and ends
in front of a comma, a semicolon or a closing bracket, so it can be read
back without lookahead as long as the names inside keep clear of those
marks.
-/

namespace Idakit.Types.Canonical

open Idakit.Library

namespace CanonicalType

/-! ### What the spelling of a type begins with -/

/-- The marks that end a spelling. -/
def IsClosing (c : Char) : Prop := c = ',' ∨ c = ';' ∨ c = ')' ∨ c = '}'

instance : DecidablePred IsClosing := fun c =>
  inferInstanceAs (Decidable (c = ',' ∨ c = ';' ∨ c = ')' ∨ c = '}'))

inductive Opening
  | void | bool
  | int (signed sized : Bool)
  | float (sized : Bool)
  | ptr
  | tagged (kind : AggregateKind)
  | function | typedef | opaqueNamed
  /-- An array or a back-reference, which begin with a mark. -/
  | mark

def Opening.letters : Opening → Text
  | .void => ['v', 'o', 'i', 'd']
  | .bool => ['b', 'o', 'o', 'l']
  | .int true true => ['i']
  | .int true false => ['i', 'i', 'n', 't']
  | .int false true => ['u']
  | .int false false => ['u', 'i', 'n', 't']
  | .float true => ['f']
  | .float false => ['f', 'l', 'o', 'a', 't']
  | .ptr => ['p', 't', 'r']
  | .tagged kind => kind.keyword
  | .function => ['f', 'n']
  | .typedef => ['t', 'y', 'p', 'e', 'd', 'e', 'f']
  | .opaqueNamed => ['o', 'p', 'a', 'q', 'u', 'e']
  | .mark => []

def Opening.ofLetters : Text → Opening
  | 'v' :: _ => .void
  | 'b' :: _ => .bool
  | ['i'] => .int true true
  | 'i' :: _ => .int true false
  | ['u'] => .int false true
  | 'u' :: 'i' :: _ => .int false false
  | 'u' :: _ => .tagged .union
  | ['f'] => .float true
  | 'f' :: 'l' :: _ => .float false
  | 'f' :: _ => .function
  | 'p' :: _ => .ptr
  | 's' :: _ => .tagged .struct
  | 'e' :: _ => .tagged .enum
  | 't' :: _ => .typedef
  | 'o' :: _ => .opaqueNamed
  | _ => .mark

theorem Opening.ofLetters_letters (o : Opening) : ofLetters o.letters = o := by
  cases o with
  | int signed sized => cases signed <;> cases sized <;> rfl
  | float sized => cases sized <;> rfl
  | tagged kind => cases kind <;> rfl
  | _ => rfl

theorem Opening.isLower_of_mem_letters (o : Opening) : ∀ s ∈ o.letters, s.isLower = true := by
  have hall : o.letters.all Char.isLower = true := by
    cases o with
    | int signed sized => cases signed <;> cases sized <;> rfl
    | float sized => cases sized <;> rfl
    | tagged kind => cases kind <;> rfl
    | _ => rfl
  exact List.all_eq_true.mp hall

def opening : CanonicalType → Opening
  | .void => .void
  | .bool => .bool
  | .int bytes signed => .int signed bytes.isSome
  | .float bytes => .float bytes.isSome
  | .ptr _ _ => .ptr
  | .named _ kind => .tagged kind
  | .aggregate _ kind _ _ => .tagged kind.toAggregate
  | .enum _ _ _ _ => .tagged .enum
  | .function _ _ _ => .function
  | .typedef _ _ => .typedef
  | .opaqueNamed _ => .opaqueNamed
  | .array _ _ | .backRef _ => .mark

theorem not_isLower_of_isClosing {c : Char} (h : IsClosing c) : ¬c.isLower = true := by
  rcases h with rfl | rfl | rfl | rfl <;> decide

theorem not_isLower_of_isDigit {c : Char} (h : c.isDigit = true) : ¬c.isLower = true := by
  intro hlower
  have hlower : (decide (97 ≤ c.val) && decide (c.val ≤ 122)) = true := hlower
  simp [Char.isDigit, UInt32.le_iff_toNat_le] at h hlower
  omega

/-- A numeral does not begin with a letter. -/
theorem stops_decimal (n : ℕ) (rest : Text) :
    Stops (fun s => ¬s.isLower = true) (decimal n ++ rest) := by
  obtain ⟨d, ds, hd⟩ : ∃ d ds, decimal n = d :: ds :=
    List.exists_cons_of_ne_nil Nat.toDigits_ne_nil
  rw [hd, List.cons_append, stops_cons]
  have hmem : d ∈ decimal n := by
    rw [hd]
    exact List.mem_cons_self
  exact not_isLower_of_isDigit (isDigit_of_mem_decimal hmem)

/-- A spelling is its keyword and a body that goes on with another mark. -/
theorem exists_body (c : CanonicalType) : ∃ body, writeCanonical c = c.opening.letters ++ body ∧
    ∀ rest, Stops IsClosing rest → Stops (fun s => ¬s.isLower = true) (body ++ rest) := by
  have hrest {rest : Text} (h : Stops IsClosing rest) :
      Stops (fun s => ¬s.isLower = true) ([] ++ rest) :=
    h.imp fun _ => not_isLower_of_isClosing
  -- The keyword ends where the body begins, for no body begins with a lower-case letter.
  cases c with
  | void =>
      refine ⟨[], ?_, fun _ => hrest⟩
      simp [writeCanonical, writeScalar, opening, Opening.letters]
  | bool =>
      refine ⟨[], ?_, fun _ => hrest⟩
      simp [writeCanonical, writeScalar, opening, Opening.letters]
  | int bytes signed =>
      cases bytes with
      | none =>
          refine ⟨[], ?_, fun _ => hrest⟩
          cases signed <;> simp [writeCanonical, writeScalar, opening, Opening.letters]
      | some b =>
          exact ⟨decimal (b * 8), by cases signed <;> rfl, fun rest _ => stops_decimal _ rest⟩
  | float bytes =>
      cases bytes with
      | none =>
          refine ⟨[], ?_, fun _ => hrest⟩
          simp [writeCanonical, writeScalar, opening, Opening.letters]
      | some b => exact ⟨decimal (b * 8), rfl, fun rest _ => stops_decimal _ rest⟩
  | ptr pointee width =>
      refine ⟨marked ':' width ++ '(' :: writeCanonical pointee ++ [')'], ?_, fun rest _ => ?_⟩
      · simp [writeCanonical_ptr, opening, Opening.letters]
      · cases width <;> simp [marked]
  | array elem len =>
      exact ⟨'[' :: writeCanonical elem ++ ';' :: decimal len ++ [']'], rfl, by simp⟩
  | named tag kind => exact ⟨':' :: tag, rfl, by simp⟩
  | aggregate tag kind members size =>
      refine ⟨writeTag tag ++ '{' :: writeMembers 0 members ++ '}' :: marked '=' size, ?_,
        fun rest _ => ?_⟩
      · simp [writeCanonical_aggregate, opening, Opening.letters]
      · cases tag <;> simp [writeTag]
  | enum tag underlying members size =>
      refine ⟨writeTag tag ++ '(' :: writeCanonical underlying ++ [')', '{'] ++
        writeConstants 0 members ++ '}' :: marked '=' size, ?_, fun rest _ => ?_⟩
      · simp [writeCanonical_enum, opening, Opening.letters, AggregateKind.keyword]
      · cases tag <;> simp [writeTag]
  | function ret params varargs =>
      refine ⟨'(' :: (separated ',' writeParam (ellipsis params varargs) ++
        ")->".toList ++ writeCanonical ret), ?_, by simp⟩
      simp [writeCanonical_function, opening, Opening.letters]
  | typedef name underlying =>
      refine ⟨' ' :: (name ++ '=' :: writeCanonical underlying), ?_, by simp⟩
      simp [writeCanonical_typedef, opening, Opening.letters]
  | opaqueNamed name =>
      refine ⟨':' :: name, ?_, by simp⟩
      simp [writeCanonical, writeScalar, opening, Opening.letters]
  | backRef n => exact ⟨'#' :: decimal n, rfl, by simp⟩

/-- Equal spellings begin with the same keyword. -/
theorem opening_eq {c d : CanonicalType} {r r' : Text} (hr : Stops IsClosing r)
    (hr' : Stops IsClosing r') (h : writeCanonical c ++ r = writeCanonical d ++ r') :
    c.opening = d.opening := by
  obtain ⟨body, hc, hbody⟩ := exists_body c
  obtain ⟨body', hd, hbody'⟩ := exists_body d
  rw [hc, hd, List.append_assoc, List.append_assoc] at h
  have hletters := (word_inj c.opening.isLower_of_mem_letters d.opening.isLower_of_mem_letters
    (hbody r hr) (hbody' r' hr') h).1
  rw [← Opening.ofLetters_letters c.opening, hletters, Opening.ofLetters_letters]

/-! ### Reading a type back -/

def IsIdentChar (c : Char) : Prop := c.isAlphanum = true ∨ c = '_' ∨ c = '$'

instance : DecidablePred IsIdentChar := fun c =>
  inferInstanceAs (Decidable (c.isAlphanum = true ∨ c = '_' ∨ c = '$'))

/-- The tags, members and constants of one type, not of the types inside it,
are identifiers. -/
def IdentNames : CanonicalType → Prop
  | .named tag _ => ∀ c ∈ tag, IsIdentChar c
  | .aggregate tag _ members _ =>
      (∀ t ∈ tag, ∀ c ∈ t, IsIdentChar c) ∧ ∀ m ∈ members, ∀ c ∈ m.name, IsIdentChar c
  | .enum tag _ members _ =>
      (∀ t ∈ tag, ∀ c ∈ t, IsIdentChar c) ∧ ∀ m ∈ members, ∀ c ∈ m.1, IsIdentChar c
  | _ => True

/-- An alias has no equals sign in it and an opaque name no closing mark. -/
def AliasClear : CanonicalType → Prop
  | .typedef name _ => '=' ∉ name
  | .opaqueNamed name => ∀ c ∈ name, ¬IsClosing c
  | _ => True

def NamesClear (c : CanonicalType) : Prop :=
  c.Everywhere fun d => d.IdentNames ∧ d.AliasClear

theorem not_isIdentChar_of_isClosing {c : Char} (h : IsClosing c) : ¬IsIdentChar c := by
  rcases h with rfl | rfl | rfl | rfl <;> decide

theorem not_eq_of_isClosing {c : Char} (h : IsClosing c) : c ≠ '=' := by
  rcases h with rfl | rfl | rfl | rfl <;> decide

theorem not_isDigit_of_isClosing {c : Char} (h : IsClosing c) : ¬c.isDigit = true := by
  rcases h with rfl | rfl | rfl | rfl <;> decide

/-- A tag is read back in front of a bracket or a closing mark. -/
theorem writeTag_inj {t t' : Option Text} {r r' : Text}
    (ht : ∀ n ∈ t, ∀ c ∈ n, IsIdentChar c) (ht' : ∀ n ∈ t', ∀ c ∈ n, IsIdentChar c)
    (hr : Stops (fun c => ¬IsIdentChar c ∧ c ≠ ':') r)
    (hr' : Stops (fun c => ¬IsIdentChar c ∧ c ≠ ':') r')
    (h : writeTag t ++ r = writeTag t' ++ r') : t = t' ∧ r = r' := by
  cases t with
  | none =>
      cases t' with
      | none => exact ⟨rfl, h⟩
      | some n' =>
          rw [writeTag, writeTag, List.nil_append, List.cons_append] at h
          rw [h, stops_cons] at hr
          exact absurd rfl hr.2
  | some n =>
      cases t' with
      | none =>
          rw [writeTag, writeTag, List.nil_append, List.cons_append] at h
          rw [← h, stops_cons] at hr'
          exact absurd rfl hr'.2
      | some n' =>
          obtain ⟨rfl, hrest⟩ := word_inj (ht n rfl) (ht' n' rfl)
            (hr.imp fun _ h => h.1) (hr'.imp fun _ h => h.1) (List.cons_eq_cons.mp h).2
          exact ⟨rfl, hrest⟩

/-- A type whose spelling no other type with clear names shares, whatever
closing mark follows. -/
def ReadsBack (c : CanonicalType) : Prop := Reads NamesClear IsClosing writeCanonical c

/-- A spelling begins neither with a closing mark nor with a dot. -/
theorem exists_cons_writeCanonical (c : CanonicalType) :
    ∃ s t, writeCanonical c = s :: t ∧ ¬IsClosing s ∧ s ≠ '.' := by
  obtain ⟨body, hc, hbody⟩ := exists_body c
  cases hletters : c.opening.letters with
  | cons s t =>
      have hlower : s.isLower = true := by
        apply c.opening.isLower_of_mem_letters
        rw [hletters]
        exact List.mem_cons_self
      refine ⟨s, t ++ body, by rw [hc, hletters]; rfl, fun hs => ?_, ?_⟩
      · exact not_isLower_of_isClosing hs hlower
      · rintro rfl
        exact absurd hlower (by decide)
  | nil =>
      cases c with
      | array elem len => exact ⟨'[', _, rfl, by decide⟩
      | backRef n => exact ⟨'#', _, rfl, by decide⟩
      | int bytes signed => cases bytes <;> cases signed <;> cases hletters
      | float bytes => cases bytes <;> cases hletters
      | named tag kind => cases kind <;> cases hletters
      | aggregate tag kind members size => cases kind <;> cases hletters
      | _ => cases hletters

/-- A marked number does not begin with what the text after it may not begin
with, if its mark is not such a symbol either. -/
theorem stops_marked {stop : Char → Prop} {mark : Char} {o : Option ℕ} {r : Text}
    (hmark : stop mark) (hr : Stops stop r) : Stops stop (marked mark o ++ r) := by
  cases o with
  | none => exact hr
  | some n => simpa [marked] using hmark

theorem readsBack_void : ReadsBack .void := by
  intro d hd r r' hr hr' h
  have hopen := opening_eq hr hr' h
  cases d with
  | void => exact ⟨rfl, List.append_cancel_left h⟩
  | _ => cases hopen

theorem readsBack_bool : ReadsBack .bool := by
  intro d hd r r' hr hr' h
  have hopen := opening_eq hr hr' h
  cases d with
  | bool => exact ⟨rfl, List.append_cancel_left h⟩
  | _ => cases hopen

/-- A width in bits is read back in front of a closing mark. -/
theorem bits_inj {b b' : ℕ} {r r' : Text} (hr : Stops IsClosing r) (hr' : Stops IsClosing r')
    (h : decimal (b * 8) ++ r = decimal (b' * 8) ++ r') : b = b' ∧ r = r' := by
  obtain ⟨hb, hrest⟩ := decimal_inj (hr.imp fun _ => not_isDigit_of_isClosing)
    (hr'.imp fun _ => not_isDigit_of_isClosing) h
  exact ⟨by omega, hrest⟩

theorem readsBack_int (bytes : Option ℕ) (signed : Bool) : ReadsBack (.int bytes signed) := by
  intro d hd r r' hr hr' h
  have hopen := opening_eq hr hr' h
  cases d with
  | int bytes' signed' =>
      injection hopen with hsigned hsized
      subst hsigned
      cases bytes with
      | none =>
          cases bytes' with
          | none => exact ⟨rfl, List.append_cancel_left h⟩
          | some b' => cases hsized
      | some b =>
          cases bytes' with
          | none => cases hsized
          | some b' =>
              obtain ⟨rfl, hrest⟩ := bits_inj hr hr' (List.cons_eq_cons.mp h).2
              exact ⟨rfl, hrest⟩
  | _ => cases hopen

theorem readsBack_float (bytes : Option ℕ) : ReadsBack (.float bytes) := by
  intro d hd r r' hr hr' h
  have hopen := opening_eq hr hr' h
  cases d with
  | float bytes' =>
      injection hopen with hsized
      cases bytes with
      | none =>
          cases bytes' with
          | none => exact ⟨rfl, List.append_cancel_left h⟩
          | some b' => cases hsized
      | some b =>
          cases bytes' with
          | none => cases hsized
          | some b' =>
              obtain ⟨rfl, hrest⟩ := bits_inj hr hr' (List.cons_eq_cons.mp h).2
              exact ⟨rfl, hrest⟩
  | _ => cases hopen

theorem readsBack_ptr {pointee : CanonicalType} (ih : ReadsBack pointee) (width : Option ℕ) :
    ReadsBack (.ptr pointee width) := by
  intro d hd r r' hr hr' h
  have hopen := opening_eq hr hr' h
  cases d with
  | ptr pointee' width' =>
      have htail : marked ':' width ++ '(' :: (writeCanonical pointee ++ ')' :: r) =
          marked ':' width' ++ '(' :: (writeCanonical pointee' ++ ')' :: r') := by
        simpa [writeCanonical, writeScalar] using h
      obtain ⟨rfl, hparen⟩ := marked_inj (by simp) (by simp) htail
      obtain ⟨rfl, hrest⟩ := ih pointee' (hd.inside (by simp [children])) _ _
        (by simp [IsClosing]) (by simp [IsClosing]) (List.cons_eq_cons.mp hparen).2
      exact ⟨rfl, (List.cons_eq_cons.mp hrest).2⟩
  | _ => cases hopen

theorem readsBack_array {elem : CanonicalType} (ih : ReadsBack elem) (len : ℕ) :
    ReadsBack (.array elem len) := by
  intro d hd r r' hr hr' h
  have hopen := opening_eq hr hr' h
  cases d with
  | array elem' len' =>
      have htail : writeCanonical elem ++ ';' :: (decimal len ++ ']' :: r) =
          writeCanonical elem' ++ ';' :: (decimal len' ++ ']' :: r') := by
        simpa [writeCanonical, writeScalar] using h
      obtain ⟨rfl, hsemi⟩ := ih elem' (hd.inside (by simp [children])) _ _
        (by simp [IsClosing]) (by simp [IsClosing]) htail
      obtain ⟨rfl, hrest⟩ := decimal_inj (by simp) (by simp) (List.cons_eq_cons.mp hsemi).2
      exact ⟨rfl, (List.cons_eq_cons.mp hrest).2⟩
  | backRef n => exact absurd (List.cons_eq_cons.mp h).1 (by decide)
  | _ => cases hopen

theorem readsBack_backRef (n : ℕ+) : ReadsBack (.backRef n) := by
  intro d hd r r' hr hr' h
  have hopen := opening_eq hr hr' h
  cases d with
  | backRef n' =>
      have htail : decimal n ++ r = decimal n' ++ r' := (List.cons_eq_cons.mp h).2
      obtain ⟨hn, hrest⟩ := decimal_inj (hr.imp fun _ => not_isDigit_of_isClosing)
        (hr'.imp fun _ => not_isDigit_of_isClosing) htail
      obtain rfl : n = n' := PNat.coe_injective hn
      exact ⟨rfl, hrest⟩
  | array elem' len' => exact absurd (List.cons_eq_cons.mp h).1 (by decide)
  | _ => cases hopen

theorem readsBack_typedef {name : Text} {underlying : CanonicalType}
    (hclear : AliasClear (.typedef name underlying)) (ih : ReadsBack underlying) :
    ReadsBack (.typedef name underlying) := by
  intro d hd r r' hr hr' h
  have hopen := opening_eq hr hr' h
  cases d with
  | typedef name' underlying' =>
      have htail : name ++ '=' :: (writeCanonical underlying ++ r) =
          name' ++ '=' :: (writeCanonical underlying' ++ r') := by
        simpa [writeCanonical, writeScalar] using h
      have hname (n : Text) (hn : '=' ∉ n) : ∀ c ∈ n, c ≠ '=' := by
        rintro c hc rfl
        exact hn hc
      obtain ⟨rfl, heq⟩ := word_inj (hname name hclear) (hname name' hd.here.2)
        (by simp) (by simp) htail
      obtain ⟨rfl, hrest⟩ := ih underlying' (hd.inside (by simp [children])) r r' hr hr'
        (List.cons_eq_cons.mp heq).2
      exact ⟨rfl, hrest⟩
  | _ => cases hopen

theorem readsBack_opaqueNamed {name : Text} (hclear : AliasClear (.opaqueNamed name)) :
    ReadsBack (.opaqueNamed name) := by
  intro d hd r r' hr hr' h
  have hopen := opening_eq hr hr' h
  cases d with
  | opaqueNamed name' =>
      have htail : name ++ r = name' ++ r' := by
        simpa [writeCanonical, writeScalar] using h
      obtain ⟨rfl, hrest⟩ := word_inj hclear hd.here.2 (hr.imp fun _ => not_not_intro)
        (hr'.imp fun _ => not_not_intro) htail
      exact ⟨rfl, hrest⟩
  | _ => cases hopen

/-- A member is read back if its type is. -/
theorem reads_member {m : CanonicalMember CanonicalType} (hname : ∀ c ∈ m.name, IsIdentChar c)
    (ih : ReadsBack m.ty) :
    Reads (fun m => (∀ c ∈ m.name, IsIdentChar c) ∧ NamesClear m.ty) IsClosing writeMember m := by
  rintro ⟨name', offset', width', ty'⟩ ⟨hname', hty'⟩ r r' hr hr' h
  obtain ⟨name, offset, width, ty⟩ := m
  have htail : name ++ (marked '@' offset ++ (marked ':' width ++
        '=' :: (writeCanonical ty ++ r))) =
      name' ++ (marked '@' offset' ++ (marked ':' width' ++
        '=' :: (writeCanonical ty' ++ r'))) := by
    simpa [writeMember] using h
  obtain ⟨rfl, hoffset⟩ := word_inj hname hname'
    (stops_marked (by decide) (stops_marked (by decide) ((stops_cons _ _ _).mpr (by decide))))
    (stops_marked (by decide) (stops_marked (by decide) ((stops_cons _ _ _).mpr (by decide))))
    htail
  obtain ⟨rfl, hwidth⟩ := marked_inj
    (stops_marked (by decide) ((stops_cons _ _ _).mpr (by decide)))
    (stops_marked (by decide) ((stops_cons _ _ _).mpr (by decide))) hoffset
  obtain ⟨rfl, heq⟩ := marked_inj (by simp) (by simp) hwidth
  obtain ⟨rfl, hrest⟩ := ih ty' hty' r r' hr hr' (List.cons_eq_cons.mp heq).2
  exact ⟨rfl, hrest⟩

theorem exists_cons_writeMember {m : CanonicalMember CanonicalType}
    (hname : ∀ c ∈ m.name, IsIdentChar c) : ∃ s t, writeMember m = s :: t ∧ s ≠ '}' := by
  obtain ⟨name, offset, width, ty⟩ := m
  cases name with
  | cons c name =>
      refine ⟨c, _, rfl, ?_⟩
      rintro rfl
      exact absurd (hname _ List.mem_cons_self) (by decide)
  | nil =>
      cases offset with
      | some o => exact ⟨'@', _, rfl, by decide⟩
      | none =>
          cases width with
          | some w => exact ⟨':', _, rfl, by decide⟩
          | none => exact ⟨'=', _, rfl, by decide⟩

theorem exists_cons_writeConstant {c : Text × ℕ} (hname : ∀ s ∈ c.1, IsIdentChar s) :
    ∃ s t, writeConstant c = s :: t ∧ s ≠ '}' := by
  obtain ⟨name, v⟩ := c
  cases name with
  | nil => exact ⟨'=', _, rfl, by decide⟩
  | cons c name =>
      refine ⟨c, _, rfl, ?_⟩
      rintro rfl
      exact absurd (hname _ List.mem_cons_self) (by decide)

theorem exists_cons_writeParam (p : Option CanonicalType) :
    ∃ s t, writeParam p = s :: t ∧ s ≠ ')' := by
  cases p with
  | none => exact ⟨'.', _, rfl, by decide⟩
  | some c =>
      obtain ⟨s, t, hc, hs, -⟩ := exists_cons_writeCanonical c
      refine ⟨s, t, hc, ?_⟩
      rintro rfl
      exact hs (by decide)

theorem reads_constant {c : Text × ℕ} (hname : ∀ s ∈ c.1, IsIdentChar s) :
    Reads (fun c => ∀ s ∈ c.1, IsIdentChar s) IsClosing writeConstant c := by
  rintro ⟨n', v'⟩ hname' r r' hr hr' h
  obtain ⟨n, v⟩ := c
  have htail : n ++ '=' :: (decimal v ++ r) = n' ++ '=' :: (decimal v' ++ r') := by
    simpa [writeConstant] using h
  obtain ⟨rfl, heq⟩ := word_inj hname hname' ((stops_cons _ _ _).mpr (by decide))
    ((stops_cons _ _ _).mpr (by decide)) htail
  obtain ⟨rfl, hrest⟩ := decimal_inj (hr.imp fun _ => not_isDigit_of_isClosing)
    (hr'.imp fun _ => not_isDigit_of_isClosing) (List.cons_eq_cons.mp heq).2
  exact ⟨rfl, hrest⟩

theorem reads_param {p : Option CanonicalType} (ih : ∀ c ∈ p, ReadsBack c) :
    Reads (fun p => ∀ c ∈ p, NamesClear c) IsClosing writeParam p := by
  have hdot (c : CanonicalType) (r r' : Text) : writeCanonical c ++ r ≠ '.' :: r' := by
    obtain ⟨s, t, hc, -, hs⟩ := exists_cons_writeCanonical c
    rw [hc]
    exact fun h => hs (List.cons_eq_cons.mp h).1
  intro p' hp' r r' hr hr' h
  cases p with
  | none =>
      cases p' with
      | none => exact ⟨rfl, List.append_cancel_left h⟩
      | some c' => exact absurd h.symm (hdot c' r' _)
  | some c =>
      cases p' with
      | none => exact absurd h (hdot c r _)
      | some c' =>
          obtain ⟨rfl, hrest⟩ := ih c rfl c' (hp' c' rfl) r r' hr hr' h
          exact ⟨rfl, hrest⟩

/-- A tag that a closing mark follows is not followed by a bracket. -/
theorem writeTag_ne {t t' : Option Text} {r r' : Text} {mark : Char}
    (ht : ∀ n ∈ t, ∀ c ∈ n, IsIdentChar c) (ht' : ∀ n ∈ t', ∀ c ∈ n, IsIdentChar c)
    (hr : Stops IsClosing r) (hmark : mark = '{' ∨ mark = '(') :
    writeTag t ++ r ≠ writeTag t' ++ mark :: r' := by
  intro h
  have hstop : Stops (fun c => ¬IsIdentChar c ∧ c ≠ ':') (mark :: r') := by
    rw [stops_cons]
    rcases hmark with rfl | rfl <;> decide
  have hclosing : Stops (fun c => ¬IsIdentChar c ∧ c ≠ ':') r := by
    refine hr.imp fun c hc => ⟨not_isIdentChar_of_isClosing hc, ?_⟩
    rintro rfl
    exact absurd hc (by decide)
  obtain ⟨-, rfl⟩ := writeTag_inj ht ht' hclosing hstop h
  rw [stops_cons] at hr
  rcases hmark with rfl | rfl <;> exact absurd hr (by decide)

/-- A cut aggregate is not spelled like a record. -/
theorem named_ne_aggregate {tag : Text} {tag' : Option Text} {kind : RecordKind}
    {members : List (CanonicalMember CanonicalType)} {size : Option ℕ} {r r' : Text}
    (hclear : IdentNames (.named tag kind.toAggregate))
    (hclear' : IdentNames (.aggregate tag' kind members size)) (hr : Stops IsClosing r) :
    writeCanonical (.named tag kind.toAggregate) ++ r ≠
      writeCanonical (.aggregate tag' kind members size) ++ r' := by
  intro h
  have htail : writeTag (some tag) ++ r =
      writeTag tag' ++ '{' :: (writeMembers 0 members ++ '}' :: (marked '=' size ++ r')) := by
    simpa [writeCanonical, writeScalar, writeTag] using h
  refine writeTag_ne ?_ hclear'.1 hr (.inl rfl) htail
  rintro n ⟨⟩
  exact hclear

/-- A cut enum is not spelled like a spelled one. -/
theorem named_ne_enum {tag : Text} {tag' : Option Text} {underlying : CanonicalType}
    {members : List (Text × ℕ)} {size : Option ℕ} {r r' : Text}
    (hclear : IdentNames (.named tag .enum))
    (hclear' : IdentNames (.enum tag' underlying members size)) (hr : Stops IsClosing r) :
    writeCanonical (.named tag .enum) ++ r ≠
      writeCanonical (.enum tag' underlying members size) ++ r' := by
  intro h
  have htail : writeTag (some tag) ++ r =
      writeTag tag' ++ '(' :: (writeCanonical underlying ++ ')' :: '{' ::
        (writeConstants 0 members ++ '}' :: (marked '=' size ++ r'))) := by
    simpa [writeCanonical, writeScalar, writeTag, AggregateKind.keyword] using h
  refine writeTag_ne ?_ hclear'.1 hr (.inr rfl) htail
  rintro n ⟨⟩
  exact hclear

theorem readsBack_named {tag : Text} {kind : AggregateKind}
    (hclear : IdentNames (.named tag kind)) : ReadsBack (.named tag kind) := by
  intro d hd r r' hr hr' h
  have hopen := opening_eq hr hr' h
  cases d with
  | named tag' kind' =>
      injection hopen with hkind
      subst hkind
      have htail : tag ++ r = tag' ++ r' := by
        simpa [writeCanonical, writeScalar] using h
      obtain ⟨rfl, hrest⟩ := word_inj hclear hd.here.1
        (hr.imp fun _ => not_isIdentChar_of_isClosing)
        (hr'.imp fun _ => not_isIdentChar_of_isClosing) htail
      exact ⟨rfl, hrest⟩
  | aggregate tag' kind' members' size' =>
      injection hopen with hkind
      subst hkind
      exact absurd h (named_ne_aggregate hclear hd.here.1 hr)
  | enum tag' underlying' members' size' =>
      injection hopen with hkind
      subst hkind
      exact absurd h (named_ne_enum hclear hd.here.1 hr)
  | _ => cases hopen

/-- A size behind the closing brace is read back in front of a closing
mark. -/
theorem size_inj {size size' : Option ℕ} {r r' : Text} (hr : Stops IsClosing r)
    (hr' : Stops IsClosing r') (h : marked '=' size ++ r = marked '=' size' ++ r') :
    size = size' ∧ r = r' := by
  have hstop {c : Char} (hc : IsClosing c) : c ≠ '=' ∧ ¬c.isDigit = true :=
    ⟨not_eq_of_isClosing hc, not_isDigit_of_isClosing hc⟩
  exact marked_inj (hr.imp fun _ => hstop) (hr'.imp fun _ => hstop) h

theorem readsBack_aggregate {tag : Option Text} {kind : RecordKind}
    {members : List (CanonicalMember CanonicalType)} {size : Option ℕ}
    (hclear : NamesClear (.aggregate tag kind members size))
    (ih : ∀ m ∈ members, ReadsBack m.ty) : ReadsBack (.aggregate tag kind members size) := by
  intro d hd r r' hr hr' h
  have hopen := opening_eq hr hr' h
  cases d with
  | aggregate tag' kind' members' size' =>
      obtain rfl : kind = kind' := by
        cases kind <;> cases kind' <;> first | rfl | cases hopen
      have htail : writeTag tag ++ '{' :: (separated ',' writeMember members ++
            '}' :: (marked '=' size ++ r)) =
          writeTag tag' ++ '{' :: (separated ',' writeMember members' ++
            '}' :: (marked '=' size' ++ r')) := by
        simpa [writeCanonical, writeScalar, writeMembers_zero] using h
      obtain ⟨rfl, hbrace⟩ := writeTag_inj hclear.here.1.1 hd.here.1.1
        ((stops_cons _ _ _).mpr (by decide)) ((stops_cons _ _ _).mpr (by decide)) htail
      obtain ⟨rfl, hsize⟩ := separated_inj (by decide) (by decide) (by decide)
        (fun _ hm => exists_cons_writeMember hm.1)
        (fun m hm => ⟨hclear.here.1.2 m hm, hclear.member hm⟩)
        (fun m hm => reads_member (hclear.here.1.2 m hm) (ih m hm))
        (fun m hm => ⟨hd.here.1.2 m hm, hd.member hm⟩) (List.cons_eq_cons.mp hbrace).2
      obtain ⟨rfl, hrest⟩ := size_inj hr hr' hsize
      exact ⟨rfl, hrest⟩
  | named tag' kind' =>
      injection hopen with hkind
      subst hkind
      exact absurd h.symm (named_ne_aggregate hd.here.1 hclear.here.1 hr')
  | enum => cases kind <;> cases hopen
  | _ => cases hopen

theorem readsBack_enum {tag : Option Text} {underlying : CanonicalType}
    {members : List (Text × ℕ)} {size : Option ℕ}
    (hclear : NamesClear (.enum tag underlying members size)) (ih : ReadsBack underlying) :
    ReadsBack (.enum tag underlying members size) := by
  intro d hd r r' hr hr' h
  have hopen := opening_eq hr hr' h
  cases d with
  | enum tag' underlying' members' size' =>
      have htail : writeTag tag ++ '(' :: (writeCanonical underlying ++ ')' :: '{' ::
            (separated ',' writeConstant members ++ '}' :: (marked '=' size ++ r))) =
          writeTag tag' ++ '(' :: (writeCanonical underlying' ++ ')' :: '{' ::
            (separated ',' writeConstant members' ++ '}' :: (marked '=' size' ++ r'))) := by
        simpa [writeCanonical, writeScalar, writeConstants_zero] using h
      obtain ⟨rfl, hparen⟩ := writeTag_inj hclear.here.1.1 hd.here.1.1
        ((stops_cons _ _ _).mpr (by decide)) ((stops_cons _ _ _).mpr (by decide)) htail
      obtain ⟨rfl, hclose⟩ := ih underlying' (hd.inside (by simp [children])) _ _
        (by simp [IsClosing]) (by simp [IsClosing]) (List.cons_eq_cons.mp hparen).2
      have hbrace := (List.cons_eq_cons.mp (List.cons_eq_cons.mp hclose).2).2
      obtain ⟨rfl, hsize⟩ := separated_inj (by decide) (by decide) (by decide)
        (fun _ hc => exists_cons_writeConstant hc) hclear.here.1.2
        (fun c hc => reads_constant (hclear.here.1.2 c hc)) hd.here.1.2 hbrace
      obtain ⟨rfl, hrest⟩ := size_inj hr hr' hsize
      exact ⟨rfl, hrest⟩
  | named tag' kind' =>
      injection hopen with hkind
      subst hkind
      exact absurd h.symm (named_ne_enum hd.here.1 hclear.here.1 hr')
  | aggregate tag' kind' members' size' => cases kind' <;> cases hopen
  | _ => cases hopen

theorem readsBack_function {ret : CanonicalType} {params : List CanonicalType} {varargs : Bool}
    (hclear : NamesClear (.function ret params varargs)) (ihr : ReadsBack ret)
    (ihp : ∀ p ∈ params, ReadsBack p) : ReadsBack (.function ret params varargs) := by
  intro d hd r r' hr hr' h
  have hopen := opening_eq hr hr' h
  cases d with
  | function ret' params' varargs' =>
      have htail : separated ',' writeParam (ellipsis params varargs) ++
            ')' :: '-' :: '>' :: (writeCanonical ret ++ r) =
          separated ',' writeParam (ellipsis params' varargs') ++
            ')' :: '-' :: '>' :: (writeCanonical ret' ++ r') := by
        simpa [writeCanonical_function] using h
      have hdom {ret : CanonicalType} {params : List CanonicalType} {varargs : Bool}
          (hclear : NamesClear (.function ret params varargs)) :
          ∀ p ∈ ellipsis params varargs, ∀ c ∈ p, NamesClear c := by
        rintro p hp c rfl
        exact hclear.inside (List.mem_cons_of_mem _ (some_mem_ellipsis.mp hp))
      have hreads : ∀ p ∈ ellipsis params varargs,
          Reads (fun p => ∀ c ∈ p, NamesClear c) IsClosing writeParam p := by
        refine fun p hp => reads_param ?_
        rintro c rfl
        exact ihp c (some_mem_ellipsis.mp hp)
      obtain ⟨hparams, harrow⟩ := separated_inj (by decide) (by decide) (by decide)
        (fun p _ => exists_cons_writeParam p) (hdom hclear) hreads (hdom hd) htail
      obtain ⟨rfl, rfl⟩ := ellipsis_inj hparams
      obtain ⟨rfl, hrest⟩ := ihr ret' (hd.inside (by simp [children])) r r' hr hr'
        (List.cons_eq_cons.mp (List.cons_eq_cons.mp harrow).2).2
      exact ⟨rfl, hrest⟩
  | _ => cases hopen

/-- Every type with clear names is read back from its spelling. -/
theorem readsBack {c : CanonicalType} (hclear : NamesClear c) : ReadsBack c := by
  induction c with
  | void => exact readsBack_void
  | bool => exact readsBack_bool
  | int bytes signed => exact readsBack_int bytes signed
  | float bytes => exact readsBack_float bytes
  | ptr pointee width ih => exact readsBack_ptr (ih (hclear.inside (by simp [children]))) width
  | array elem len ih => exact readsBack_array (ih (hclear.inside (by simp [children]))) len
  | named tag kind => exact readsBack_named hclear.here.1
  | aggregate tag kind members size ih =>
      exact readsBack_aggregate hclear fun m hm => ih m hm (hclear.member hm)
  | enum tag underlying members size ih =>
      exact readsBack_enum hclear (ih (hclear.inside (by simp [children])))
  | function ret params varargs ihr ihp =>
      exact readsBack_function hclear (ihr (hclear.inside List.mem_cons_self))
        fun p hp => ihp p hp (hclear.inside (List.mem_cons_of_mem _ hp))
  | typedef name underlying ih =>
      exact readsBack_typedef hclear.here.2 (ih (hclear.inside (by simp [children])))
  | opaqueNamed name => exact readsBack_opaqueNamed hclear.here.2
  | backRef n => exact readsBack_backRef n

/-- Types whose names are clear are equal exactly when their canonical
strings are. -/
theorem writeCanonical_eq_iff {c d : CanonicalType} (hc : NamesClear c) (hd : NamesClear d) :
    writeCanonical c = writeCanonical d ↔ c = d := by
  constructor
  · intro h
    have happend : writeCanonical c ++ [] = writeCanonical d ++ [] := by rw [h]
    exact (readsBack hc d hd [] [] (stops_nil _) (stops_nil _) happend).1
  · exact congrArg writeCanonical

/-- A struct spelled with its one member as a pointer, and as an opaque type
whose name has a blank and a colon in it. -/
theorem writeCanonical_eq_iff_member :
    let c := CanonicalType.aggregate (some "s".toList) .struct
      [⟨"p".toList, some 0, none, .ptr .void (some 8)⟩] (some 8)
    let d := CanonicalType.aggregate (some "s".toList) .struct
      [⟨"p".toList, some 0, none, .opaqueNamed "a::b c".toList⟩] (some 8)
    writeCanonical c = writeCanonical d ↔ c = d := by
  refine writeCanonical_eq_iff (.mk ⟨⟨?_, ?_⟩, trivial⟩ ?_) (.mk ⟨⟨?_, ?_⟩, trivial⟩ ?_)
  · rintro t ⟨⟩
    simp [IsIdentChar]
  · simp [IsIdentChar]
  · rintro c hc
    rw [List.mem_singleton.mp hc]
    refine .mk ⟨trivial, trivial⟩ fun c hc => ?_
    rw [List.mem_singleton.mp hc]
    exact .mk ⟨trivial, trivial⟩ (by simp [children])
  · rintro t ⟨⟩
    simp [IsIdentChar]
  · simp [IsIdentChar]
  · rintro c hc
    rw [List.mem_singleton.mp hc]
    refine .mk ⟨trivial, ?_⟩ (by simp [children])
    show ∀ s ∈ "a::b c".toList, ¬IsClosing s
    simp [IsClosing]

/-- An alias may have an equals sign in its name: the alias `a=typedef b` of a
type and the alias `a` of its alias `b` have one string. -/
theorem writeCanonical_alias_collision :
    let long : Text := "a=typedef b".toList
    let outer : Text := "a".toList
    let inner : Text := "b".toList
    let c := CanonicalType.typedef long .void
    let d := CanonicalType.typedef outer (.typedef inner .void)
    c.Everywhere IdentNames ∧ d.Everywhere IdentNames ∧
      writeCanonical c = writeCanonical d ∧ c ≠ d := by
  have hvoid : Everywhere IdentNames .void := .mk trivial (by simp [children])
  have halias {name : Text} {c : CanonicalType} (hc : c.Everywhere IdentNames) :
      Everywhere IdentNames (.typedef name c) := by
    refine .mk trivial fun d hd => ?_
    rw [List.mem_singleton.mp hd]
    exact hc
  refine ⟨halias hvoid, halias (halias hvoid), ?_, ?_⟩
  · simp [writeCanonical, writeScalar]
  · simp

end CanonicalType

end Idakit.Types.Canonical
