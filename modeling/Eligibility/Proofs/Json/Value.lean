import Eligibility.Proofs.Json.RoundTrip

/-!
# The texts of a value

A value has many texts in JSON (`Value.HasText`). A string has all its literals. Which numbers are
integers is a matter of how they are written, and not of their size alone: digits without fraction and
exponent that denote an integer of 64 signed bits, except minus zero, are that integer
(`Json.NumberParts.IsInteger`), and any other number is a double.

A document is read as a value exactly if it starts with a text of the value
(`Value.HasText.readDocument`, `Value.exists_hasText`). The form in which a value is written is one of
its texts, if it is read back at all (`Value.hasText_writeJson`).
-/

namespace Eligibility

open Json

/-! ### Integers and other numbers -/

namespace Json

/-- The number of all digits, if they were taken in full. -/
theorem eq_toNat_of_absorb {cs ds : List Char} {n : ℕ} (h : absorb (Digits.toNat cs) ds = (n, [])) :
    n = Digits.toNat (cs ++ ds) := by
  induction ds generalizing cs with
  | nil =>
    obtain ⟨rfl, -⟩ := Prod.mk.inj h
    rw [List.append_nil]
  | cons d ds ih =>
    rw [absorb, ← Digits.toNat_concat] at h
    split at h
    · rw [List.append_cons]
      exact ih h
    · exact absurd (Prod.mk.inj h).2 (by simp)

theorem exists_float_of_floatOf {negative : Bool} {significand : ℕ} {e : ℤ} {x : Json}
    (h : floatOf negative significand e = .ok x) : ∃ y, x = .float y := by
  unfold floatOf at h
  split at h
  · exact absurd h (by simp)
  · exact ⟨_, (Except.ok.inj h).symm⟩

namespace NumberParts

variable {p : NumberParts} {negative : Bool} {x : Json}

/-- The integer of the sign and the digits. -/
def integer (p : NumberParts) (negative : Bool) : ℤ :=
  if negative then -(Digits.toNat p.whole : ℤ) else Digits.toNat p.whole

/-- **Written as an integer** of 64 signed bits, and not as minus zero. -/
structure IsInteger (p : NumberParts) (negative : Bool) : Prop where
  isFloat : p.isFloat = false
  ge : -2 ^ 63 ≤ p.integer negative
  lt : p.integer negative < 2 ^ 63
  ne_zero : negative → p.integer negative ≠ 0

/-- **What is written as an integer** is read as that integer. -/
theorem number_of_isInteger (h : p.IsInteger negative) :
    p.number negative = .ok (.whole (p.integer negative)) := by
  -- the bounds are those of `Int64`, within which the significand has less than 64 bits
  obtain ⟨h_float, h_ge, h_lt, h_zero⟩ := h
  rw [integer] at h_ge h_lt h_zero ⊢
  cases negative with
  | false =>
    rw [if_neg Bool.false_ne_true] at h_ge h_lt ⊢
    rw [number_of_digits h_float (by omega), wholeOf]
    rfl
  | true =>
    rw [if_pos rfl] at h_ge h_lt h_zero ⊢
    -- a zero with a sign is no integer but a double
    replace h_zero := h_zero rfl
    rw [number_of_digits h_float (by omega), wholeOf, if_neg (by decide), if_pos (by omega)]

/-- Whatever is read of the parts is a double, unless there are digits only and all of them fit. -/
theorem number_cases (h : p.number negative = .ok x) :
    (∃ y, x = .float y) ∨
      (p.isFloat = false ∧ x = wholeOf negative (Digits.toNat p.whole)) := by
  rw [number, numberOf] at h
  cases h_absorb : absorb 0 p.whole with
  | mk significand excess =>
    rw [h_absorb] at h
    simp only at h
    split at h
    · -- no digit was in excess, so the significand is what the digits stand for
      next h_fraction h_exponent =>
      rw [← Digits.toNat_nil] at h_absorb
      rw [isFloat, h_fraction, h_exponent, ← Except.ok.inj h, eq_toNat_of_absorb h_absorb]
      exact .inr ⟨rfl, rfl⟩
    · exact .inl (exists_float_of_floatOf h)

/-- **Any other number** is a double, if it is read. -/
theorem exists_float_of_not_isInteger (h_integer : ¬p.IsInteger negative)
    (h : p.number negative = .ok x) : ∃ y, Value.ofJson? x = some (.float y) := by
  rcases number_cases h with ⟨y, rfl⟩ | ⟨h_float, rfl⟩
  · exact ⟨y, rfl⟩
  · rw [wholeOf]
    cases negative with
    | false =>
      -- a whole number that is not an integer is too large for 63 bits
      have h_large : ¬(Digits.toNat p.whole : ℤ) < 2 ^ 63 := fun h_lt =>
        h_integer ⟨h_float, by simp [integer], by simpa [integer] using h_lt, by simp⟩
      exact ⟨_, by rw [if_pos (by decide), Value.ofJson?, if_neg h_large]⟩
    | true =>
      have h_large : ¬(0 < Digits.toNat p.whole ∧ Digits.toNat p.whole ≤ 2 ^ 63) := by
        rintro ⟨h_pos, h_le⟩
        refine h_integer ⟨h_float, ?_, ?_, fun _ => ?_⟩
        all_goals
          rw [integer, if_pos rfl]
          omega
      exact ⟨_, by rw [if_neg (by decide), if_neg h_large]; rfl⟩

end NumberParts

end Json

/-! ### The texts -/

namespace Value

/-- **The texts of a value.** Whether a number is an integer is told by its text; which double another
number is, reading tells. -/
inductive HasText : Value → List Char → Prop
  | int {p : NumberParts} {negative : Bool} {cs : List Char} (h_text : p.IsText cs)
      (h_integer : p.IsInteger negative) :
      HasText (.int (Int64.ofInt (p.integer negative))) (if negative then '-' :: cs else cs)
  | float {p : NumberParts} {negative : Bool} {cs : List Char} {x : Binary64} (h_text : p.IsText cs)
      (h_integer : ¬p.IsInteger negative) (h_finite : x.isFinite)
      (h_number : (p.number negative).toOption.bind ofJson? = some (.float x)) :
      HasText (.float x) (if negative then '-' :: cs else cs)
  | text {s : String} {literal : List Char} (h : Spells literal s.toList) :
      HasText (.text s) ('"' :: (literal ++ ['"']))

variable {v : Value} {cs rest : List Char} {y : Json}

theorem ofJson?_whole {i : ℤ} (h : i < 2 ^ 63) : ofJson? (.whole i) = some (int (Int64.ofInt i)) := by
  rw [ofJson?, if_pos h]

/-- A number that is read has a text of the value that it becomes. -/
theorem hasText_of_number {p : NumberParts} {negative : Bool} (h_text : p.IsText cs)
    (h_number : p.number negative = .ok y) (h : ofJson? y = some v) :
    v.HasText (if negative then '-' :: cs else cs) := by
  -- the two kinds of numbers are told apart by their texts alone
  by_cases h_integer : p.IsInteger negative
  · rw [NumberParts.number_of_isInteger h_integer] at h_number
    obtain rfl := Except.ok.inj h_number
    rw [ofJson?_whole h_integer.lt] at h
    obtain rfl := Option.some.inj h
    exact .int h_text h_integer
  · obtain ⟨x, h_float⟩ := NumberParts.exists_float_of_not_isInteger h_integer h_number
    rw [h] at h_float
    obtain rfl := Option.some.inj h_float
    refine .float h_text h_integer (isFinite_of_ofJson? (isFinite_of_numberOf h_number) h) ?_
    rw [h_number]
    exact h

/-- **A text of a value is read as the value**, up to where it ends. -/
theorem HasText.readDocument (h : v.HasText cs) (inner : Option (Reader Json)) {more : List Char}
    (h_more : EndsNumber more) :
    ∃ y, Json.readDocument inner (cs ++ more) = .ok (y, more) ∧ ofJson? y = some v := by
  cases h with
  | int h_text h_integer =>
    refine ⟨_, ?_, ofJson?_whole h_integer.lt⟩
    rw [readDocument_text inner h_text _ h_more, NumberParts.number_of_isInteger h_integer, map_ok]
  | float h_text h_integer h_finite h_number =>
    obtain ⟨y, h_some, h_value⟩ := Option.bind_eq_some_iff.mp h_number
    refine ⟨y, ?_, h_value⟩
    rw [readDocument_text inner h_text _ h_more, toOption_eq_some_iff.mp h_some, map_ok]
  | @text s literal h =>
    refine ⟨.str s, ?_, rfl⟩
    rw [List.cons_append, List.append_assoc, List.singleton_append]
    -- of the checks for a scalar, that for a quote is the first to apply
    have h_scalar : readScalar '"' (literal ++ '"' :: more) = .ok (.str s, more) := by
      rw [readScalar, if_neg (by decide), if_neg (by decide), if_neg (by decide), if_pos rfl,
        readString_append h]
    exact h_scalar

/-- A scalar that is a value has one of its texts. -/
theorem exists_hasText_of_readScalar {c : Char} (h : readScalar c cs = .ok (y, rest))
    (hv : ofJson? y = some v) : ∃ text, c :: cs = text ++ rest ∧ v.HasText text := by
  unfold readScalar at h
  split at h
  · -- the three words are no values
    exact absurd hv (readWord_eq h ▸ by simp [ofJson?])
  split at h
  · exact absurd hv (readWord_eq h ▸ by simp [ofJson?])
  split at h
  · exact absurd hv (readWord_eq h ▸ by simp [ofJson?])
  split at h
  · next h_quote =>
    split at h
    · exact absurd h (by simp)
    · next h_string =>
      obtain ⟨rfl, rfl⟩ := Prod.mk.inj (Except.ok.inj h)
      obtain ⟨literal, h_spells, rfl⟩ := exists_of_readString h_string
      obtain rfl := Option.some.inj hv
      exact ⟨_, by rw [h_quote]; simp, .text h_spells⟩
  split at h
  · next h_minus =>
    obtain ⟨p, text, h_text, rfl, h_number⟩ := Json.exists_of_readNumber h
    exact ⟨'-' :: text, by rw [h_minus, List.cons_append], hasText_of_number h_text h_number hv⟩
  · obtain ⟨p, text, h_text, h_cs, h_number⟩ := Json.exists_of_readNumber h
    exact ⟨text, h_cs, hasText_of_number h_text h_number hv⟩

/-- **A document that is a value has one of its texts**, behind blanks. -/
theorem exists_hasText {inner : Option (Reader Json)} (h : Json.readDocument inner cs = .ok (y, rest))
    (hv : ofJson? y = some v) :
    ∃ (gap : Blanks) (text : List Char), cs = gap.1 ++ (text ++ rest) ∧ v.HasText text := by
  obtain ⟨gap, h_cs⟩ := exists_blanks cs
  unfold Json.readDocument at h
  split at h
  · exact absurd h (by simp)
  -- arrays and objects are no values, so a scalar was read
  next c tail h_skip =>
    split at h
    · split at h
      · exact absurd h (by simp)
      · obtain ⟨_, -, h⟩ := exists_of_bind_eq_ok h
        obtain ⟨rfl, -⟩ := Prod.mk.inj (Except.ok.inj h)
        exact absurd hv (by simp [ofJson?])
    split at h
    · split at h
      · exact absurd h (by simp)
      · obtain ⟨_, -, h⟩ := exists_of_bind_eq_ok h
        obtain ⟨rfl, -⟩ := Prod.mk.inj (Except.ok.inj h)
        exact absurd hv (by simp [ofJson?])
    · obtain ⟨text, h_text, h_has⟩ := exists_hasText_of_readScalar h hv
      exact ⟨gap, text, by rwa [h_skip, h_text] at h_cs, h_has⟩

/-! ### The written text -/

/-- The text of an integer has the parts of its magnitude. -/
theorem hasText_integer (n : Int64) : (int n).HasText (Layout.integer n.toInt) := by
  have h_ge := n.le_toInt
  have h_lt := n.toInt_lt
  let p := NumberParts.ofNat n.toInt.natAbs
  have h_whole : Digits.toNat p.whole = n.toInt.natAbs := Digits.toNat_ofNat _
  have h_value : p.integer (n.toInt < 0) = n.toInt := by
    rw [NumberParts.integer, h_whole]
    split
    · next h => have := of_decide_eq_true h; omega
    · next h => have := of_decide_eq_false (eq_false_of_ne_true h); omega
  -- the text is written with a sign exactly if the integer is below zero
  have h_integer : p.IsInteger (n.toInt < 0) := by
    refine ⟨rfl, by rwa [h_value], by rwa [h_value], fun h_neg => ?_⟩
    rw [h_value]
    exact ne_of_lt (of_decide_eq_true h_neg)
  have h_text := HasText.int p.isText_text h_integer
  rw [h_value, Int64.ofInt_toInt, NumberParts.text_ofNat] at h_text
  simpa only [Layout.integer, decide_eq_true_eq] using h_text

/-- A double that is read back has its own text. -/
theorem hasText_writeFloat {x : Binary64} (h : x.ReadsBack) : (float x).HasText (writeFloat x) := by
  have h_finite := isFinite_of_readsBack h
  obtain ⟨p, h_text, h_float, -⟩ := exists_parts (of_decide_eq_true h_finite)
  have h_write : writeFloat x = if x.negative then '-' :: p.text else p.text := by
    rw [writeFloat, if_pos h_finite, Layout.render, h_text]
  -- that the double is read back says what its text is read as
  have h_number : (p.number x.negative).toOption.bind ofJson? = some (float x) := by
    have h_read := readDocument_text none p.isText_text x.negative endsNumber_nil
    rw [List.append_nil, ← h_write] at h_read
    rw [Binary64.ReadsBack, reread?, document?, writeJson, h_read] at h
    cases h_result : p.number x.negative with
    | error fault =>
      rw [h_result] at h
      exact absurd h (by simp [Except.toOption])
    | ok y =>
      rw [h_result] at h
      exact h
  -- a double is always written with a point or an exponent, so it is not taken for an integer
  have h_integer : ¬p.IsInteger x.negative := by
    intro h_integer
    rw [h_integer.isFloat] at h_float
    exact absurd h_float (by decide)
  rw [h_write]
  exact .float p.isText_text h_integer h_finite h_number

/-- **The written form is a text of the value**, if the value is read back. -/
theorem hasText_writeJson (h : v.reread? = some v) : v.HasText v.writeJson := by
  cases v with
  | int n => exact hasText_integer n
  | float x => exact hasText_writeFloat h
  | text s => exact .text (spells_flatMap_writeChar s.toList)

end Value

end Eligibility
