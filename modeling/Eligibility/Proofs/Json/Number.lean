import Eligibility.Json.Reader
import Eligibility.Proofs.Number.RoundTrip

/-!
# JSON numbers in their parts

A number text is made of digits, a fraction and an exponent (`Json.NumberParts`), and a reader takes
exactly these parts off the front of a text, if what follows does not go on with the number
(`Json.readNumber_text`). What it makes of them depends on the parts alone.

Integers have digits only, and they are read back. The text of a double always has a fraction or an
exponent, so it is read as a double again (`Json.exists_parts`), though not always as the same one.
-/

namespace Eligibility.Json

/-! ### Where a number ends -/

/-- No number goes on with such a text. -/
def EndsNumber (more : List Char) : Prop :=
  ∀ c ∈ more.head?, c.isDigit = false ∧ c ≠ '.' ∧ c ≠ 'e' ∧ c ≠ 'E'

theorem endsNumber_nil : EndsNumber [] := fun _ hc => absurd hc (by simp)

theorem EndsNumber.isDigit {more : List Char} (h : EndsNumber more) :
    ∀ c ∈ more.head?, c.isDigit = false := fun c hc => (h c hc).1

/-! ### The parts of a number -/

/-- The number of its digits, its fraction and its exponent. -/
def numberOf (negative : Bool) (ds : List Char) (fraction : Option (List Char))
    (exponent : Option ℤ) : Except Fault Json :=
  let (significand, excess) := absorb 0 ds
  match fraction, exponent, excess with
  | none, none, [] => .ok (wholeOf negative significand)
  | _, _, _ =>
    let fraction := fraction.getD []
    let (significand, dropped) := absorb significand fraction
    let taken : ℤ := (fraction.length : ℤ) - dropped.length
    floatOf negative significand (excess.length - taken + exponent.getD 0)

/-- The reader finds the parts first. -/
theorem readNumber_eq (negative : Bool) (cs : List Char) :
    readNumber negative cs = (do
      let (ds, cs) ← readWholeDigits cs
      let (fraction, cs) ← readFraction cs
      let (exponent, cs) ← readExponent cs
      (numberOf negative ds fraction exponent).map (·, cs)) := by
  unfold readNumber
  refine bind_congr fun ⟨ds, cs⟩ => bind_congr fun ⟨fraction, cs⟩ =>
    bind_congr fun ⟨exponent, cs⟩ => ?_
  -- whole numbers are singled out last, so up to there the two read the same parts
  have h_float (x : Except Fault Json) : (x >>= fun x => pure (x, cs)) = x.map (·, cs) := by
    cases x <;> rfl
  unfold numberOf
  generalize absorb 0 ds = absorbed
  obtain ⟨significand, excess⟩ := absorbed
  match fraction, exponent, excess with
  | none, none, [] => rfl
  | some _, _, _ => exact h_float _
  | none, some _, _ => exact h_float _
  | none, none, _ :: _ => exact h_float _

/-- The digits of a number, its fraction and its exponent. There is no zero in front of another
digit. -/
structure NumberParts where
  whole : List Char
  fraction : Option (List Char)
  exponent : Option ℤ
  whole_ne_nil : whole ≠ []
  whole_digits : ∀ c ∈ whole, c.isDigit
  no_leading_zero : whole = ['0'] ∨ ∀ c ∈ whole.head?, c ≠ '0'
  fraction_digits : ∀ ds ∈ fraction, ds ≠ [] ∧ ∀ c ∈ ds, c.isDigit

namespace NumberParts

/-- The text of the fraction. -/
def point : Option (List Char) → List Char
  | none => []
  | some ds => '.' :: ds

/-- The text of the exponent. -/
def mark : Option ℤ → List Char
  | none => []
  | some e => floatLayout.exponentPart e

def text (p : NumberParts) : List Char := p.whole ++ (point p.fraction ++ mark p.exponent)

/-- The texts of an exponent: a letter in either case, an optional sign, and digits. -/
inductive IsMark : List Char → Option ℤ → Prop
  | none : IsMark [] none
  | some {letter : Char} {sign ds : List Char} (h_letter : letter = 'e' ∨ letter = 'E')
      (h_sign : sign = [] ∨ sign = ['+'] ∨ sign = ['-']) (h_ne : ds ≠ [])
      (h_digits : ∀ c ∈ ds, c.isDigit) :
      IsMark (letter :: (sign ++ ds))
        (some (if sign = ['-'] then -(Digits.toNat ds : ℤ) else Digits.toNat ds))

/-- A text of the parts. There is one for each way to put the exponent. -/
def IsText (p : NumberParts) (cs : List Char) : Prop :=
  ∃ mark, IsMark mark p.exponent ∧ cs = p.whole ++ (point p.fraction ++ mark)

theorem isMark_mark (exponent : Option ℤ) : IsMark (mark exponent) exponent := by
  cases exponent with
  | none => exact .none
  | some e =>
    have h_ne := Digits.ofNat_ne_nil e.natAbs
    have h_digits := Digits.isDigit_of_mem_ofNat e.natAbs
    rw [mark, Layout.exponentPart, Layout.integer]
    -- the digits are those of the absolute value, and the sign is written for either
    by_cases h : e < 0
    · have h_some := IsMark.some (.inl rfl) (.inr (.inr rfl)) h_ne h_digits
      rw [if_pos rfl, Digits.toNat_ofNat, show -(e.natAbs : ℤ) = e by omega] at h_some
      rwa [if_pos h, if_neg (Int.not_le_of_gt h)]
    · have h_some := IsMark.some (.inl rfl) (.inr (.inl rfl)) h_ne h_digits
      rw [if_neg (by decide), Digits.toNat_ofNat, show (e.natAbs : ℤ) = e by omega] at h_some
      rwa [if_neg h, if_pos (Int.le_of_not_gt h)]

theorem isText_text (p : NumberParts) : p.IsText p.text := ⟨_, isMark_mark p.exponent, rfl⟩

/-- Has the number a fraction or an exponent? -/
def isFloat (p : NumberParts) : Bool := p.fraction.isSome || p.exponent.isSome

/-- What is made of the parts. -/
def number (p : NumberParts) (negative : Bool) : Except Fault Json :=
  numberOf negative p.whole p.fraction p.exponent

end NumberParts

/-! ### Reading the parts -/

section Reading

variable {ds more : List Char}

theorem readWholeDigits_append (h_ne : ds ≠ []) (h_digits : ∀ c ∈ ds, c.isDigit)
    (h_zero : ds = ['0'] ∨ ∀ c ∈ ds.head?, c ≠ '0')
    (h_more : ∀ c ∈ more.head?, c.isDigit = false) :
    readWholeDigits (ds ++ more) = .ok (ds, more) := by
  obtain ⟨h_take, h_drop⟩ := takeWhile_of_head? h_more
  rcases h_zero with rfl | h_zero
  · -- a zero stands alone
    rw [List.singleton_append, readWholeDigits.eq_def]
    simp only [if_true]
    cases more with
    | nil => rfl
    | cons d more => simp only [h_more d rfl, Bool.false_eq_true, if_false]
  · obtain ⟨c, ds, rfl⟩ := List.exists_cons_of_ne_nil h_ne
    rw [List.cons_append, readWholeDigits.eq_def]
    simp only
    rw [if_neg (h_zero c rfl), if_pos (h_digits c List.mem_cons_self), ← List.cons_append,
      List.takeWhile_append_of_pos h_digits, List.dropWhile_append_of_pos h_digits, h_take, h_drop,
      List.append_nil]

theorem readDigits_append (h_ne : ds ≠ []) (h_digits : ∀ c ∈ ds, c.isDigit)
    (h_more : ∀ c ∈ more.head?, c.isDigit = false) : readDigits (ds ++ more) = .ok (ds, more) := by
  obtain ⟨h_take, h_drop⟩ := takeWhile_of_head? h_more
  obtain ⟨c, ds, rfl⟩ := List.exists_cons_of_ne_nil h_ne
  rw [List.cons_append, readDigits, if_pos (h_digits c List.mem_cons_self), ← List.cons_append,
    List.takeWhile_append_of_pos h_digits, List.dropWhile_append_of_pos h_digits, h_take, h_drop,
    List.append_nil]

theorem readFraction_point {fraction : Option (List Char)}
    (h : ∀ ds ∈ fraction, ds ≠ [] ∧ ∀ c ∈ ds, c.isDigit)
    (h_more : ∀ c ∈ more.head?, c.isDigit = false ∧ c ≠ '.') :
    readFraction (NumberParts.point fraction ++ more) = .ok (fraction, more) := by
  cases fraction with
  | none =>
    rw [NumberParts.point, List.nil_append]
    unfold readFraction
    -- without a fraction there is no point, and none follows
    split
    · exact absurd rfl (h_more '.' rfl).2
    · rfl
  | some ds =>
    obtain ⟨h_ne, h_digits⟩ := h ds rfl
    rw [NumberParts.point, List.cons_append, readFraction,
      readDigits_append h_ne h_digits fun c hc => (h_more c hc).1, ok_bind]
    rfl

/-- A sign is cut off where its number begins. -/
theorem splitSign_append {sign cs : List Char} (h_sign : sign = [] ∨ sign = ['+'] ∨ sign = ['-'])
    (h : ∀ c ∈ cs.head?, c.isDigit) : splitSign (sign ++ cs) = (decide (sign = ['-']), cs) := by
  rcases h_sign with rfl | rfl | rfl
  · exact splitSign_of_isDigit h
  · rfl
  · rfl

theorem readExponent_append {mark : List Char} {exponent : Option ℤ}
    (h : NumberParts.IsMark mark exponent) (h_more : EndsNumber more) :
    readExponent (mark ++ more) = .ok (exponent, more) := by
  cases h with
  | none =>
    rw [List.nil_append]
    cases more with
    | nil => rfl
    | cons c more =>
      obtain ⟨-, -, h_lower, h_upper⟩ := h_more c rfl
      rw [readExponent, if_neg (not_or.mpr ⟨h_lower, h_upper⟩)]
  | @some letter sign ds h_letter h_sign h_ne h_digits =>
    -- a digit follows the sign, so the sign is not missed
    have h_head : ∀ c ∈ (ds ++ more).head?, c.isDigit := by
      rw [List.head?_append_of_ne_nil _ h_ne]
      exact fun c hc => h_digits c (List.mem_of_mem_head? hc)
    rw [List.cons_append, List.append_assoc, readExponent, if_pos h_letter,
      splitSign_append h_sign h_head]
    simp only
    rw [readDigits_append h_ne h_digits h_more.isDigit, ok_bind, pure_eq_ok]
    simp only [decide_eq_true_eq]

/-- **A number is read in its parts**, up to where it ends. -/
theorem readNumber_text {p : NumberParts} {cs : List Char} (h : p.IsText cs) (negative : Bool)
    (h_more : EndsNumber more) :
    readNumber negative (cs ++ more) = (p.number negative).map (·, more) := by
  obtain ⟨mark, h_exponent, rfl⟩ := h
  -- each part ends where the next begins: neither the exponent nor what follows the number starts
  -- with a digit or a point
  have h_mark : ∀ c ∈ (mark ++ more).head?, c.isDigit = false ∧ c ≠ '.' := by
    intro c hc
    generalize p.exponent = exponent at h_exponent
    cases h_exponent with
    | none => exact ⟨(h_more c hc).1, (h_more c hc).2.1⟩
    | some h_letter =>
      obtain rfl := Option.some.inj hc
      rcases h_letter with rfl | rfl
      · decide
      · decide
  have h_point : ∀ c ∈ (NumberParts.point p.fraction ++ (mark ++ more)).head?,
      c.isDigit = false := by
    intro c hc
    cases h_fraction : p.fraction with
    | none =>
      rw [h_fraction] at hc
      exact (h_mark c hc).1
    | some ds =>
      rw [h_fraction] at hc
      obtain rfl := Option.some.inj hc
      decide
  have h_whole := readWholeDigits_append p.whole_ne_nil p.whole_digits p.no_leading_zero h_point
  rw [readNumber_eq, List.append_assoc, List.append_assoc, h_whole, ok_bind]
  simp only
  rw [readFraction_point p.fraction_digits h_mark, ok_bind]
  simp only
  rw [readExponent_append h_exponent h_more, ok_bind, NumberParts.number]

end Reading

/-! ### Nothing else is read -/

section Accepted

variable {cs ds rest : List Char}

/-- Digits are taken as far as they go. -/
theorem takeWhile_digits {c : Char} (hc : c.isDigit) (cs : List Char) :
    (c :: cs).takeWhile Char.isDigit ≠ [] ∧ ∀ d ∈ (c :: cs).takeWhile Char.isDigit, d.isDigit := by
  refine ⟨?_, List.all_eq_true.mp List.all_takeWhile⟩
  rw [List.takeWhile_cons_of_pos hc]
  exact List.cons_ne_nil _ _

theorem of_readWholeDigits (h : readWholeDigits cs = .ok (ds, rest)) :
    cs = ds ++ rest ∧ ds ≠ [] ∧ (∀ c ∈ ds, c.isDigit) ∧
      (ds = ['0'] ∨ ∀ c ∈ ds.head?, c ≠ '0') := by
  have h_zero : ['0'] ≠ [] ∧ (∀ c ∈ ['0'], c.isDigit) :=
    ⟨List.cons_ne_nil _ _, List.forall_mem_singleton.mpr rfl⟩
  unfold readWholeDigits at h
  -- a zero is the only digit; any other digit starts a run of them
  split at h
  · exact absurd h (by simp)
  next c tail =>
    split at h
    · next h_char =>
      subst h_char
      split at h
      · split at h
        · exact absurd h (by simp)
        · obtain ⟨rfl, rfl⟩ := Prod.mk.inj (Except.ok.inj h)
          exact ⟨rfl, h_zero.1, h_zero.2, .inl rfl⟩
      · obtain ⟨rfl, rfl⟩ := Prod.mk.inj (Except.ok.inj h)
        exact ⟨rfl, h_zero.1, h_zero.2, .inl rfl⟩
    · split at h
      · next h_char h_digit =>
        obtain ⟨rfl, rfl⟩ := Prod.mk.inj (Except.ok.inj h)
        obtain ⟨h_ne, h_digits⟩ := takeWhile_digits h_digit tail
        refine ⟨List.takeWhile_append_dropWhile.symm, h_ne, h_digits, .inr fun d hd => ?_⟩
        rw [List.takeWhile_cons_of_pos h_digit] at hd
        exact Option.some.inj hd ▸ h_char
      · exact absurd h (by simp)

theorem of_readDigits (h : readDigits cs = .ok (ds, rest)) :
    cs = ds ++ rest ∧ ds ≠ [] ∧ ∀ c ∈ ds, c.isDigit := by
  unfold readDigits at h
  split at h
  · exact absurd h (by simp)
  · split at h
    · next h_digit =>
      obtain ⟨rfl, rfl⟩ := Prod.mk.inj (Except.ok.inj h)
      exact ⟨List.takeWhile_append_dropWhile.symm, takeWhile_digits h_digit _⟩
    · exact absurd h (by simp)

theorem of_readFraction {fraction : Option (List Char)} (h : readFraction cs = .ok (fraction, rest)) :
    cs = NumberParts.point fraction ++ rest ∧ ∀ ds ∈ fraction, ds ≠ [] ∧ ∀ c ∈ ds, c.isDigit := by
  unfold readFraction at h
  split at h
  · obtain ⟨⟨ds, rest'⟩, h_digits, h⟩ := exists_of_bind_eq_ok h
    obtain ⟨rfl, rfl⟩ := Prod.mk.inj (Except.ok.inj h)
    obtain ⟨rfl, h_ds⟩ := of_readDigits h_digits
    exact ⟨rfl, fun es hes => Option.some.inj hes ▸ h_ds⟩
  · obtain ⟨rfl, rfl⟩ := Prod.mk.inj (Except.ok.inj h)
    exact ⟨rfl, fun es hes => absurd hes (by simp)⟩

theorem exists_sign (cs : List Char) :
    ∃ sign, (sign = [] ∨ sign = ['+'] ∨ sign = ['-']) ∧ cs = sign ++ (splitSign cs).2 ∧
      (splitSign cs).1 = decide (sign = ['-']) := by
  unfold splitSign
  split
  · exact ⟨['-'], .inr (.inr rfl), rfl, rfl⟩
  · exact ⟨['+'], .inr (.inl rfl), rfl, rfl⟩
  · exact ⟨[], .inl rfl, rfl, rfl⟩

theorem exists_of_readExponent {exponent : Option ℤ}
    (h : readExponent cs = .ok (exponent, rest)) :
    ∃ mark, NumberParts.IsMark mark exponent ∧ cs = mark ++ rest := by
  unfold readExponent at h
  split at h
  · obtain ⟨rfl, rfl⟩ := Prod.mk.inj (Except.ok.inj h)
    exact ⟨[], .none, rfl⟩
  next letter tail =>
    split at h
    · next h_letter =>
      -- the sign may be there or not, and the digits are behind it in any case
      obtain ⟨sign, h_sign, h_tail, h_negative⟩ := exists_sign tail
      generalize splitSign tail = signed at h h_tail h_negative
      obtain ⟨negative, digits⟩ := signed
      simp only at h_tail h_negative
      obtain ⟨⟨ds, rest'⟩, h_read, h⟩ := exists_of_bind_eq_ok h
      obtain ⟨h_ds, h_ne, h_digits⟩ := of_readDigits h_read
      obtain ⟨rfl, rfl⟩ := Prod.mk.inj (Except.ok.inj h)
      simp only [h_negative, decide_eq_true_eq]
      refine ⟨_, .some h_letter h_sign h_ne h_digits, ?_⟩
      rw [List.cons_append, List.append_assoc, ← h_ds, ← h_tail]
    · obtain ⟨rfl, rfl⟩ := Prod.mk.inj (Except.ok.inj h)
      exact ⟨[], .none, rfl⟩

/-- **What is read as a number is the text of its parts.** -/
theorem exists_of_readNumber {negative : Bool} {x : Json}
    (h : readNumber negative cs = .ok (x, rest)) :
    ∃ (p : NumberParts) (text : List Char), p.IsText text ∧ cs = text ++ rest ∧
      p.number negative = .ok x := by
  rw [readNumber_eq] at h
  obtain ⟨⟨ds, cs₁⟩, h_whole, h⟩ := exists_of_bind_eq_ok h
  obtain ⟨⟨fraction, cs₂⟩, h_fraction, h⟩ := exists_of_bind_eq_ok h
  obtain ⟨⟨exponent, cs₃⟩, h_exponent, h⟩ := exists_of_bind_eq_ok h
  obtain ⟨h_cs, h_ne, h_digits, h_zero⟩ := of_readWholeDigits h_whole
  obtain ⟨h_cs₁, h_fraction_digits⟩ := of_readFraction h_fraction
  obtain ⟨mark, h_mark, h_cs₂⟩ := exists_of_readExponent h_exponent
  -- the parts that were read are those of a number
  let p : NumberParts :=
    ⟨ds, fraction, exponent, h_ne, h_digits, h_zero, h_fraction_digits⟩
  simp only at h
  cases h_number : numberOf negative ds fraction exponent with
  | error fault =>
    rw [h_number] at h
    exact absurd h (by simp)
  | ok y =>
    rw [h_number] at h
    obtain ⟨rfl, rfl⟩ := Prod.mk.inj (Except.ok.inj h)
    refine ⟨p, _, ⟨mark, h_mark, rfl⟩, ?_, h_number⟩
    rw [h_cs, h_cs₁, h_cs₂, List.append_assoc, List.append_assoc]

end Accepted

/-! ### Digits -/

/-- Digits are taken in full as long as they fit into 64 bits. -/
theorem absorb_append (cs ds : List Char) (h : Digits.toNat (cs ++ ds) < 2 ^ 64) :
    absorb (Digits.toNat cs) ds = (Digits.toNat (cs ++ ds), []) := by
  induction ds generalizing cs with
  | nil => rw [absorb, List.append_nil]
  | cons d ds ih =>
    rw [List.append_cons] at h ⊢
    have h_le := Digits.le_toNat_append (cs ++ [d]) ds
    rw [Digits.toNat_concat] at h_le
    rw [absorb, if_pos (by omega), ← Digits.toNat_concat, ih (cs ++ [d]) h]

/-- The parts of a natural number. -/
def NumberParts.ofNat (n : ℕ) : NumberParts where
  whole := Digits.ofNat n
  fraction := none
  exponent := none
  whole_ne_nil := Digits.ofNat_ne_nil n
  whole_digits := Digits.isDigit_of_mem_ofNat n
  no_leading_zero := Digits.head_ofNat n
  fraction_digits := fun _ h => absurd h (by simp)

theorem NumberParts.text_ofNat (n : ℕ) : (NumberParts.ofNat n).text = Digits.ofNat n :=
  List.append_nil _

theorem NumberParts.eq_none_of_isFloat {p : NumberParts} (h : p.isFloat = false) :
    p.fraction = none ∧ p.exponent = none := by
  rw [isFloat, Bool.or_eq_false_iff] at h
  exact ⟨Option.isNone_iff_eq_none.mp (Option.isSome_eq_false_iff.mp h.1),
    Option.isNone_iff_eq_none.mp (Option.isSome_eq_false_iff.mp h.2)⟩

/-- Digits that fit into 64 bits are a whole number, or minus zero. -/
theorem NumberParts.number_of_digits {p : NumberParts} (h_float : p.isFloat = false)
    (h : Digits.toNat p.whole < 2 ^ 64) (negative : Bool) :
    p.number negative = .ok (wholeOf negative (Digits.toNat p.whole)) := by
  obtain ⟨h_fraction, h_exponent⟩ := eq_none_of_isFloat h_float
  have h_absorb := absorb_append [] p.whole h
  rw [Digits.toNat_nil, List.nil_append] at h_absorb
  rw [number, numberOf, h_absorb, h_fraction, h_exponent]

theorem NumberParts.number_ofNat {n : ℕ} (h : n < 2 ^ 64) (negative : Bool) :
    (NumberParts.ofNat n).number negative = .ok (wholeOf negative n) := by
  have h_digits : Digits.toNat (NumberParts.ofNat n).whole = n := Digits.toNat_ofNat n
  rw [number_of_digits rfl (by rwa [h_digits]), h_digits]

/-! ### Numbers among documents -/

theorem skipSpace_cons {c : Char} (h : isSpace c = false) (cs : List Char) :
    skipSpace (c :: cs) = c :: cs :=
  List.dropWhile_cons_of_neg (ne_true_of_eq_false h)

/-- A digit starts a number. -/
theorem readDocument_of_isDigit (inner : Option (Reader Json)) {c : Char} (h : c.isDigit)
    (cs : List Char) : readDocument inner (c :: cs) = readNumber false (c :: cs) := by
  -- no character that starts anything else is a digit
  have h_ne {d : Char} (hd : d.isDigit = false) : c ≠ d := by
    rintro rfl
    rw [h] at hd
    exact absurd hd (by decide)
  have h_space : isSpace c = false := by
    simp only [isSpace, Bool.or_eq_false_iff, beq_eq_false_iff_ne]
    exact ⟨⟨⟨h_ne (by decide), h_ne (by decide)⟩, h_ne (by decide)⟩, h_ne (by decide)⟩
  rw [readDocument, skipSpace_cons h_space]
  simp only
  rw [if_neg (h_ne (by decide)), if_neg (h_ne (by decide)), readScalar, if_neg (h_ne (by decide)),
    if_neg (h_ne (by decide)), if_neg (h_ne (by decide)), if_neg (h_ne (by decide)),
    if_neg (h_ne (by decide))]

theorem readDocument_minus (inner : Option (Reader Json)) (cs : List Char) :
    readDocument inner ('-' :: cs) = readNumber true cs := rfl

/-- A number with or without a minus is read in its parts. -/
theorem readDocument_text (inner : Option (Reader Json)) {p : NumberParts} {cs : List Char}
    (h : p.IsText cs) (negative : Bool) {more : List Char} (h_more : EndsNumber more) :
    readDocument inner ((if negative then '-' :: cs else cs) ++ more)
      = (p.number negative).map (·, more) := by
  cases negative with
  | true =>
    rw [if_pos rfl, List.cons_append, readDocument_minus, readNumber_text h true h_more]
  | false =>
    -- without a sign the first character is a digit
    obtain ⟨c, tail, h_digit, h_head⟩ : ∃ c tail, c.isDigit ∧ cs ++ more = c :: tail := by
      obtain ⟨mark, -, rfl⟩ := h
      obtain ⟨c, tail, h_whole⟩ := List.exists_cons_of_ne_nil p.whole_ne_nil
      rw [h_whole, List.cons_append, List.cons_append]
      exact ⟨c, _, p.whole_digits c (h_whole ▸ List.mem_cons_self), rfl⟩
    rw [if_neg Bool.false_ne_true, h_head, readDocument_of_isDigit inner h_digit, ← h_head,
      readNumber_text h false h_more]

/-- **Integers are read back**, and as integers. -/
theorem readDocument_integer (inner : Option (Reader Json)) (n : Int64) {more : List Char}
    (h_more : EndsNumber more) :
    readDocument inner (Layout.integer n.toInt ++ more) = .ok (.whole n.toInt, more) := by
  have h_ge := n.le_toInt
  have h_lt := n.toInt_lt
  have h_text : Layout.integer n.toInt = if decide (n.toInt < 0) then
      '-' :: (NumberParts.ofNat n.toInt.natAbs).text else (NumberParts.ofNat n.toInt.natAbs).text := by
    simp only [Layout.integer, NumberParts.text_ofNat, decide_eq_true_eq]
  -- the absolute value is below `2 ^ 64`, so no digit is lost
  have h_number := NumberParts.number_ofNat (n := n.toInt.natAbs) (by omega)
  rw [h_text, readDocument_text inner (NumberParts.isText_text _) _ h_more, h_number, map_ok]
  congr 2
  -- either sign leads to the integer itself, as zero is written without one
  by_cases h_neg : n.toInt < 0
  · rw [decide_eq_true h_neg, wholeOf, if_neg (by decide), if_pos (by omega)]
    congr 1
    omega
  · rw [decide_eq_false h_neg, wholeOf, if_pos (by decide)]
    congr 1
    omega

/-! ### The text of a double -/

theorem head_append {ds : List Char} (h_ne : ds ≠ []) (h : ∀ c ∈ ds.head?, c ≠ '0')
    (tail : List Char) : ∀ c ∈ (ds ++ tail).head?, c ≠ '0' := by
  rwa [List.head?_append_of_ne_nil _ h_ne]

/-- A zero is digits, in front of the point as well as behind it. -/
theorem isDigit_of_mem_zero : ∀ c ∈ ['0'], c.isDigit := List.forall_mem_singleton.mpr rfl

theorem zero_fraction_digits : ∀ ds ∈ some ['0'], ds ≠ [] ∧ ∀ c ∈ ds, c.isDigit := by
  intro ds h
  obtain rfl := Option.some.inj h
  exact ⟨List.cons_ne_nil _ _, isDigit_of_mem_zero⟩

section Layouts

variable {ds : List Char} (h_ne : ds ≠ []) (h_digits : ∀ c ∈ ds, c.isDigit)
  (h_head : ∀ c ∈ ds.head?, c ≠ '0')

include h_ne h_digits h_head

/-- A positional text has a fraction, wherever the point is. -/
theorem exists_parts_positional (point : ℤ) :
    ∃ p : NumberParts, p.text = Layout.positional ds point ∧ p.isFloat ∧ p.exponent = none := by
  have h_zeros {n : ℕ} : ∀ c ∈ List.replicate n '0', c.isDigit := fun c =>
    Layout.isDigit_of_mem_zeros
  unfold Layout.positional
  split
  · -- the point stands before the digits
    let fraction := List.replicate (-point).toNat '0' ++ ds
    have h_fraction : ∀ es ∈ some fraction, es ≠ [] ∧ ∀ c ∈ es, c.isDigit := by
      intro es h
      obtain rfl := Option.some.inj h
      exact ⟨List.append_ne_nil_of_right_ne_nil _ h_ne, List.forall_mem_append.mpr
        ⟨h_zeros, h_digits⟩⟩
    exact ⟨⟨['0'], some fraction, none, List.cons_ne_nil _ _, isDigit_of_mem_zero, .inl rfl,
        h_fraction⟩,
      by simp [NumberParts.text, NumberParts.point, NumberParts.mark, fraction], rfl, rfl⟩
  split
  · -- the point stands behind the digits
    let front := ds ++ List.replicate (point.toNat - ds.length) '0'
    exact ⟨⟨front, some ['0'], none, List.append_ne_nil_of_left_ne_nil h_ne _,
        List.forall_mem_append.mpr ⟨h_digits, h_zeros⟩, .inr (head_append h_ne h_head _),
        zero_fraction_digits⟩,
      by simp [NumberParts.text, NumberParts.point, NumberParts.mark, front], rfl, rfl⟩
  · -- the point stands among the digits
    next h_front h_back =>
    have h_take : ds.take point.toNat ≠ [] := by
      rw [ne_eq, List.take_eq_nil_iff, not_or]
      exact ⟨by omega, h_ne⟩
    have h_fraction : ∀ es ∈ some (ds.drop point.toNat), es ≠ [] ∧ ∀ c ∈ es, c.isDigit := by
      intro es h
      obtain rfl := Option.some.inj h
      refine ⟨?_, fun c hc => h_digits c (List.mem_of_mem_drop hc)⟩
      rw [ne_eq, List.drop_eq_nil_iff]
      omega
    have h_front : ∀ c ∈ (ds.take point.toNat).head?, c ≠ '0' := by
      rwa [List.head?_take, if_neg (by omega)]
    exact ⟨⟨ds.take point.toNat, some (ds.drop point.toNat), none, h_take,
        fun c hc => h_digits c (List.mem_of_mem_take hc), .inr h_front, h_fraction⟩,
      by simp [NumberParts.text, NumberParts.point, NumberParts.mark], rfl, rfl⟩

/-- A scientific text has an exponent. -/
theorem exists_parts_scientific (e : ℤ) :
    ∃ p : NumberParts, p.text = floatLayout.scientific ds e ∧ p.isFloat ∧ p.exponent = some e := by
  have h_take : ds.take 1 ≠ [] := by
    rw [ne_eq, List.take_eq_nil_iff, not_or]
    exact ⟨Nat.one_ne_zero, h_ne⟩
  have h_front : ∀ c ∈ (ds.take 1).head?, c ≠ '0' := by
    rwa [List.head?_take, if_neg (by decide)]
  -- one digit stands before the point, and without any others the point is left out
  let fraction := if ds.length ≤ 1 then none else some (ds.drop 1)
  have h_fraction : ∀ es ∈ fraction, es ≠ [] ∧ ∀ c ∈ es, c.isDigit := by
    intro es h
    unfold fraction at h
    split at h
    · exact absurd h (by simp)
    · obtain rfl := Option.some.inj h
      refine ⟨?_, fun c hc => h_digits c (List.mem_of_mem_drop hc)⟩
      rw [ne_eq, List.drop_eq_nil_iff]
      omega
  refine ⟨⟨ds.take 1, fraction, some e, h_take, fun c hc => h_digits c (List.mem_of_mem_take hc),
    .inr h_front, h_fraction⟩, ?_, Bool.or_true _, rfl⟩
  simp only [NumberParts.text, NumberParts.mark, Layout.scientific, List.append_assoc, fraction]
  split
  · rfl
  · rfl

end Layouts

/-- **The text of a magnitude is that of a double**: it has a fraction or an exponent. -/
theorem exists_parts {k : ℕ} (hk : k < Binary64.infinite) :
    ∃ p : NumberParts, p.text = floatLayout.magnitude k ∧ p.isFloat ∧
      ∀ e ∈ p.exponent, e.natAbs < 2 ^ 16 := by
  rcases Nat.eq_zero_or_pos k with rfl | h_pos
  · rw [Layout.magnitude_zero]
    exact ⟨⟨['0'], some ['0'], none, List.cons_ne_nil _ _, isDigit_of_mem_zero, .inl rfl,
      zero_fraction_digits⟩, rfl, rfl, fun e he => absurd he (by simp)⟩
  · have h_around := Binary64.around_shortest floatLayout.tie h_pos
    unfold Layout.magnitude
    generalize Binary64.shortest floatLayout.tie k = decimal at h_around ⊢
    obtain ⟨c, e⟩ := decimal
    have hc : c ≠ 0 := Binary64.ne_zero_of_around h_pos h_around
    have h_leading := Layout.natAbs_leading_lt h_pos hk (c := c) (e := e) h_around
    -- only zero starts with a zero
    have h_head : ∀ d ∈ (Digits.ofNat c).head?, d ≠ '0' := by
      refine (Digits.head_ofNat c).resolve_left fun h_zero => hc ?_
      rw [← Digits.toNat_ofNat c, h_zero]
      rfl
    have h_ne := Digits.ofNat_ne_nil c
    have h_digits := Digits.isDigit_of_mem_ofNat c
    simp only
    split
    · obtain ⟨p, h_text, h_float, h_exponent⟩ :=
        exists_parts_positional h_ne h_digits h_head (e + (Digits.ofNat c).length - 1 + 1)
      refine ⟨p, h_text, h_float, fun e he => ?_⟩
      rw [h_exponent] at he
      exact absurd he (by simp)
    · obtain ⟨p, h_text, h_float, h_exponent⟩ :=
        exists_parts_scientific h_ne h_digits h_head (e + (Digits.ofNat c).length - 1)
      refine ⟨p, h_text, h_float, fun e he => ?_⟩
      rw [h_exponent] at he
      exact Option.some.inj he ▸ h_leading

/-! ### The decimal of the parts -/

namespace NumberParts

/-- The number of all digits. -/
def significand (p : NumberParts) : ℕ := Digits.toNat (p.whole ++ p.fraction.getD [])

/-- The power of ten of the last digit. -/
def power (p : NumberParts) : ℤ := p.exponent.getD 0 - (p.fraction.getD []).length

/-- If the digits fit into 64 bits, the number of a fraction or an exponent is their decimal. -/
theorem number_eq_floatOf {p : NumberParts} (h : p.significand < 2 ^ 64) (h_float : p.isFloat)
    (negative : Bool) : p.number negative = floatOf negative p.significand p.power := by
  -- no digit is in excess, as they all fit into 64 bits together
  have h_whole := absorb_append [] p.whole (Nat.lt_of_le_of_lt (Digits.le_toNat_append _ _) h)
  have h_digits := absorb_append p.whole (p.fraction.getD []) h
  rw [Digits.toNat_nil, List.nil_append] at h_whole
  have h_power : ((0 : ℕ) : ℤ) - (((p.fraction.getD []).length : ℤ) - (0 : ℕ))
      + p.exponent.getD 0 = p.power := by
    rw [power]
    omega
  rw [number, numberOf, h_whole]
  simp only
  split
  · -- a number without fraction and exponent would be whole
    next h_fraction h_exponent _ =>
    rw [isFloat, h_fraction, h_exponent] at h_float
    exact absurd h_float (by decide)
  · rw [h_digits]
    exact congrArg (floatOf negative p.significand) h_power

/-- The text of the parts is read as the same decimal elsewhere. -/
theorem read?_text {p : NumberParts} (h : ∀ e ∈ p.exponent, e.natAbs < 2 ^ 16) :
    Decimal.read? p.text = some ⟨false, p.significand, p.power⟩ := by
  have h_exponent : Decimal.readExponent? (mark p.exponent) = some (p.exponent.getD 0) := by
    cases h_some : p.exponent with
    | none => rfl
    | some e => exact Decimal.readExponent?_exponentPart (h e h_some) (.inr rfl)
  have h_rest : ∀ c ∈ (mark p.exponent).head?, c.isDigit = false := by
    cases p.exponent with
    | none => exact fun c hc => absurd hc (by simp [mark])
    | some e => exact Layout.isDigit_head_exponentPart floatLayout e
  -- the point ends the whole digits, and the mark of the exponent those of the fraction
  have h_split : Decimal.splitFraction (point p.fraction ++ mark p.exponent)
      = (p.fraction.getD [], mark p.exponent) := by
    cases h_some : p.fraction with
    | none =>
      cases p.exponent with
      | none => rfl
      | some e => rfl
    | some ds => exact Layout.splitFraction_point (p.fraction_digits ds h_some).2 h_rest
  have h_tail : ∀ c ∈ (point p.fraction ++ mark p.exponent).head?, c.isDigit = false := by
    cases p.fraction with
    | none => exact h_rest
    | some ds =>
      intro c hc
      obtain rfl := Option.some.inj hc
      decide
  exact Decimal.read?_of_parts p.whole_ne_nil p.whole_digits h_tail h_split h_exponent

end NumberParts

end Eligibility.Json
