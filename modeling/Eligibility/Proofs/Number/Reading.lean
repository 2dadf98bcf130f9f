import Eligibility.Grammar.Field
import Eligibility.Proofs.Number.Shortest

/-!
# Reading digits, points and exponents

What the number readers make of the pieces of a number text: runs of digits with zeros around them
(`Digits`), exponents, and the digits in front of a point and behind it. The last section puts these
together: a text of digits, point and exponent is read as the decimal it shows (`read?_of_parts`),
and never as an integer (`readInt64?_eq_none`).
-/

namespace Eligibility

/-! ### Where a run of characters ends -/

/-- Nothing is taken from a text that begins otherwise. -/
theorem takeWhile_of_head? {p : Char → Bool} {cs : List Char} (h : ∀ c ∈ cs.head?, p c = false) :
    cs.takeWhile p = [] ∧ cs.dropWhile p = cs := by
  cases cs with
  | nil => exact ⟨rfl, rfl⟩
  | cons c cs =>
    have hc : ¬p c = true := by
      rw [h c rfl]
      exact Bool.false_ne_true
    exact ⟨List.takeWhile_cons_of_neg hc, List.dropWhile_cons_of_neg hc⟩

/-- A text that starts with digits begins with one. -/
theorem isDigit_head_append {whole : List Char} (h_ne : whole ≠ [])
    (h_whole : ∀ c ∈ whole, c.isDigit) (tail : List Char) :
    ∀ c ∈ (whole ++ tail).head?, c.isDigit := by
  intro c hc
  rw [List.head?_append_of_ne_nil whole h_ne] at hc
  exact h_whole c (List.mem_of_mem_head? hc)

namespace Digits

/-! ### Written digits -/

theorem isDigit_char {d : ℕ} (h : d < 10) : (char d).isDigit := by
  have hd : d = 0 ∨ d = 1 ∨ d = 2 ∨ d = 3 ∨ d = 4 ∨ d = 5 ∨ d = 6 ∨ d = 7 ∨ d = 8 ∨ d = 9 := by
    omega
  rcases hd with rfl | rfl | rfl | rfl | rfl | rfl | rfl | rfl | rfl | rfl <;> decide

theorem isDigit_of_mem_ofNat (n : ℕ) : ∀ c ∈ ofNat n, c.isDigit := by
  fun_induction ofNat n with
  | case1 n h =>
    intro c hc
    rw [List.mem_singleton.mp hc]
    exact isDigit_char h
  | case2 n h ih =>
    intro c hc
    rcases List.mem_append.mp hc with hc | hc
    · exact ih c hc
    · rw [List.mem_singleton.mp hc]
      exact isDigit_char (Nat.mod_lt n (by decide))

theorem ofNat_ne_nil (n : ℕ) : ofNat n ≠ [] := by
  fun_cases ofNat n with
  | case1 h => exact List.cons_ne_nil _ _
  | case2 h => exact List.append_ne_nil_of_right_ne_nil _ (List.cons_ne_nil _ _)

theorem ofNat_digits (n : ℕ) : ofNat n ≠ [] ∧ (ofNat n).all Char.isDigit :=
  ⟨ofNat_ne_nil n, List.all_eq_true.mpr (isDigit_of_mem_ofNat n)⟩

/-- A number is as long as the search for the shortest decimal counts it. -/
theorem length_ofNat {n : ℕ} (h : 0 < n) : (ofNat n).length = Binary64.digitCount n := by
  fun_induction ofNat n with
  | case1 n h_lt =>
    rw [Binary64.digitCount, dif_neg h.ne', Nat.div_eq_of_lt h_lt, Binary64.digitCount, dif_pos rfl]
    rfl
  | case2 n h_ge ih =>
    rw [List.length_append, ih (Nat.div_pos (Nat.le_of_not_lt h_ge) (by decide)),
      Binary64.digitCount.eq_def n, dif_neg h.ne']
    rfl

/-- No zero stands in front of the other digits. -/
theorem head_ofNat (n : ℕ) : ofNat n = ['0'] ∨ ∀ c ∈ (ofNat n).head?, c ≠ '0' := by
  fun_induction ofNat n with
  | case1 n h =>
    obtain rfl | h_pos := Nat.eq_zero_or_pos n
    · exact .inl rfl
    · refine .inr fun c hc => ?_
      obtain rfl := Option.some.inj hc
      intro h_char
      have h_digit := ofChar_char h
      rw [h_char] at h_digit
      exact absurd h_digit h_pos.ne
  | case2 n h ih =>
    refine .inr fun c hc => ?_
    rw [List.head?_append_of_ne_nil _ (ofNat_ne_nil _)] at hc
    refine ih.resolve_left (fun h_zero => ?_) c hc
    -- the digits in front of the last one are not zero
    have h_value := toNat_ofNat (n / 10)
    rw [h_zero] at h_value
    have h_none : toNat ['0'] = 0 := rfl
    omega

/-! ### Values of runs of digits -/

theorem le_toNat_append (cs ds : List Char) : toNat cs ≤ toNat (cs ++ ds) := by
  induction ds using List.reverseRecOn with
  | nil => rw [List.append_nil]
  | append_singleton ds d ih =>
    rw [← List.append_assoc, toNat_concat]
    omega

/-! ### Zeros -/

theorem toNat_append_zeros (cs : List Char) (n : ℕ) :
    toNat (cs ++ List.replicate n '0') = toNat cs * 10 ^ n := by
  induction n with
  | zero => rw [List.replicate_zero, List.append_nil, Nat.pow_zero, Nat.mul_one]
  | succ n ih =>
    have h_zero : ofChar '0' = 0 := rfl
    rw [List.replicate_succ', ← List.append_assoc, toNat_concat, ih, h_zero, Nat.pow_succ]
    ring

theorem toNat_zeros_append (cs : List Char) (n : ℕ) :
    toNat (List.replicate n '0' ++ cs) = toNat cs := by
  induction n with
  | zero => rfl
  | succ n ih =>
    rw [List.replicate_succ, List.cons_append, ← ih]
    rfl

end Digits

/-! ### Exponents -/

theorem Decimal.exponentOf_concat (cs : List Char) (c : Char) :
    Decimal.exponentOf (cs ++ [c])
      = if Decimal.exponentOf cs < 2 ^ 16 then 10 * Decimal.exponentOf cs + Digits.ofChar c
        else Decimal.exponentOf cs := by
  unfold Decimal.exponentOf
  rw [List.foldl_append]
  rfl

/-- An exponent that a double can have is read in full. -/
theorem Decimal.exponentOf_ofNat {n : ℕ} (h : n < 2 ^ 16) :
    Decimal.exponentOf (Digits.ofNat n) = n := by
  fun_induction Digits.ofNat n with
  | case1 n h_lt => simp [Decimal.exponentOf, Digits.ofChar_char h_lt]
  | case2 n h_ge ih =>
    -- the digits before the last are a smaller number, so reading has not stopped
    rw [Decimal.exponentOf_concat, ih (by omega), if_pos (by omega),
      Digits.ofChar_char (Nat.mod_lt n (by decide))]
    omega

/-- Digits have no sign. -/
theorem splitSign_of_isDigit {cs : List Char} (h : ∀ c ∈ cs.head?, c.isDigit) :
    splitSign cs = (false, cs) := by
  unfold splitSign
  split
  · exact absurd (h '-' rfl) (by decide)
  · exact absurd (h '+' rfl) (by decide)
  · rfl

theorem isDigit_head_ofNat (n : ℕ) : ∀ c ∈ (Digits.ofNat n).head?, c.isDigit :=
  fun c hc => Digits.isDigit_of_mem_ofNat n c (List.mem_of_mem_head? hc)

theorem Decimal.readExponent?_digits (n : ℕ) (h : n < 2 ^ 16) (mark : List Char) (negative : Bool)
    (h_mark : splitSign (mark ++ Digits.ofNat n) = (negative, Digits.ofNat n)) :
    Decimal.readExponent? ('e' :: (mark ++ Digits.ofNat n))
      = some (if negative then -(n : ℤ) else n) := by
  rw [Decimal.readExponent?, if_pos (.inl rfl), h_mark]
  simp only
  rw [if_pos (Digits.ofNat_digits n), Decimal.exponentOf_ofNat h]

/-- The exponent part of a layout is read as the exponent. -/
theorem Decimal.readExponent?_exponentPart {layout : Layout} {e : ℤ} (h : e.natAbs < 2 ^ 16)
    (h_plus : layout.plus = [] ∨ layout.plus = ['+']) :
    Decimal.readExponent? (layout.exponentPart e) = some e := by
  unfold Layout.exponentPart Layout.integer
  by_cases h_neg : e < 0
  · rw [if_neg (Int.not_le_of_gt h_neg), if_pos h_neg, List.nil_append]
    -- a negative exponent has a minus of its own, in any layout
    have h_read := readExponent?_digits e.natAbs h ['-'] true rfl
    rw [if_pos rfl] at h_read
    rw [show -(e.natAbs : ℤ) = e by omega] at h_read
    exact h_read
  · rw [if_pos (Int.le_of_not_gt h_neg), if_neg h_neg]
    -- in front of the others stands a plus, if the layout has one
    have h_sign : splitSign (layout.plus ++ Digits.ofNat e.natAbs)
        = (false, Digits.ofNat e.natAbs) := by
      rcases h_plus with h_plus | h_plus
      · rw [h_plus]
        exact splitSign_of_isDigit (isDigit_head_ofNat _)
      · rw [h_plus]
        rfl
    have h_read := readExponent?_digits e.natAbs h layout.plus false h_sign
    rw [if_neg Bool.false_ne_true, Int.natAbs_of_nonneg (Int.le_of_not_gt h_neg)] at h_read
    exact h_read

/-! ### Decimals -/

/-- A text is read as the decimal of its digits before and after the point and its exponent. -/
theorem Decimal.read?_of_parts {whole tail fraction rest : List Char} {e : ℤ} (h_ne : whole ≠ [])
    (h_digits : ∀ c ∈ whole, c.isDigit) (h_tail : ∀ c ∈ tail.head?, c.isDigit = false)
    (h_split : splitFraction tail = (fraction, rest)) (h_exp : readExponent? rest = some e) :
    Decimal.read? (whole ++ tail)
      = some ⟨false, Digits.toNat (whole ++ fraction), e - fraction.length⟩ := by
  obtain ⟨h_take, h_drop⟩ := takeWhile_of_head? h_tail
  unfold Decimal.read?
  -- a text that begins with a digit has no sign
  rw [splitSign_of_isDigit (isDigit_head_append h_ne h_digits tail)]
  simp only [List.takeWhile_append_of_pos h_digits, List.dropWhile_append_of_pos h_digits,
    h_take, h_drop, List.append_nil, h_split, h_exp]
  rw [if_neg fun h => h_ne h.1, Option.map_some]

/-- A minus in front of a decimal is its sign. -/
theorem Decimal.read?_minus {cs : List Char} {m : ℕ} {e : ℤ} (h : ∀ c ∈ cs.head?, c.isDigit)
    (h_read : Decimal.read? cs = some ⟨false, m, e⟩) :
    Decimal.read? ('-' :: cs) = some ⟨true, m, e⟩ := by
  unfold Decimal.read? at h_read ⊢
  rw [splitSign_of_isDigit h] at h_read
  rw [show splitSign ('-' :: cs) = (true, cs) from rfl]
  simp only at h_read ⊢
  -- the same digits and the same exponent are found behind the minus
  split at h_read
  · exact absurd h_read (by simp)
  · next h_some =>
    rw [if_neg h_some]
    obtain ⟨e', h_exp, h_eq⟩ := Option.map_eq_some_iff.mp h_read
    rw [h_exp, Option.map_some]
    simp only [Decimal.mk.injEq, true_and] at h_eq
    rw [h_eq.1, h_eq.2]

/-! ### Integers -/

/-- What holds a point or an exponent is no integer. -/
theorem readInt64?_eq_none {cs : List Char} {c : Char} (hc : c ∈ cs) (h_digit : c.isDigit = false)
    (h_sign : c ≠ '-' ∧ c ≠ '+') : readInt64? cs = none := by
  -- taking off a sign leaves every other character in place
  have h_mem : c ∈ (splitSign cs).2 := by
    unfold splitSign
    split
    · exact (List.mem_cons.mp hc).resolve_left h_sign.1
    · exact (List.mem_cons.mp hc).resolve_left h_sign.2
    · exact hc
  have h_all : ¬(splitSign cs).2.all Char.isDigit := by
    intro h
    rw [List.all_eq_true.mp h c h_mem] at h_digit
    exact absurd h_digit (by simp)
  unfold readInt64? readInteger?
  simp only
  rw [if_neg fun h => h_all h.2, Option.bind_none]

theorem readInteger?_integer (i : ℤ) : readInteger? (Layout.integer i) = some i := by
  have h_digits := Digits.ofNat_digits i.natAbs
  unfold readInteger? Layout.integer
  -- the sign is split off, and the digits are those of the absolute value
  by_cases h_neg : i < 0
  · have h_sign : splitSign ('-' :: Digits.ofNat i.natAbs) = (true, Digits.ofNat i.natAbs) := rfl
    rw [if_pos h_neg, h_sign]
    simp only
    rw [if_pos h_digits, if_pos trivial, Digits.toNat_ofNat]
    congr 1
    omega
  · rw [if_neg h_neg, splitSign_of_isDigit (isDigit_head_ofNat _)]
    simp only
    rw [if_pos h_digits, if_neg Bool.false_ne_true, Digits.toNat_ofNat]
    congr 1
    omega

/-- The text of an integer of 64 bits is read as that integer. -/
theorem readNumber_integer (n : Int64) :
    readNumber (Layout.integer n.toInt) = .number (.int n) := by
  have h_bounds : -2 ^ 63 ≤ n.toInt ∧ n.toInt < 2 ^ 63 := ⟨n.le_toInt, n.toInt_lt⟩
  rw [readNumber, readInt64?, readInteger?_integer, Option.bind_some, if_pos h_bounds,
    Int64.ofInt_toInt]

end Eligibility
