import Eligibility.Proofs.Number.Nearest
import Eligibility.Proofs.Number.Reading
import Mathlib.Data.List.TakeWhile

/-!
# Two readings of a number

A literal in rule text is an integer if it can be, and else a double. A text that is taken for a
number to order by is always a double. The two readings are of the same characters, so they cannot
be far apart: the double is that of the integer (`Binary64.rank_ofDecimal_whole`), or the two are
the same double. A text that has one of the readings has the other, too (`Value.exists_readNumber`).

The sign of zero is the only thing that differs between the double of a whole decimal and that of
its integer, as `-0` is an integer without a sign. Nothing that orders numbers sees it, so the facts
here are about ranks.
-/

namespace Eligibility

namespace Binary64

/-! ### Ranks -/

/-- Being finite is a matter of the rank. -/
theorem isFinite_congr {x y : Binary64} (h : x.rank = y.rank) : x.isFinite = y.isFinite := by
  rw [isFinite, isFinite, ← natAbs_rank, ← natAbs_rank, h]

/-- Finite doubles of one rank lie below the same doubles. -/
theorem less_congr_left {x y : Binary64} (h : x.rank = y.rank) (hx : x.isFinite) (z : Binary64) :
    x.less z = y.less z := by
  have hy : y.isFinite := isFinite_congr h ▸ hx
  rw [less, less, isNaN_eq_false hx, isNaN_eq_false hy, h]

theorem less_congr_right {x y : Binary64} (h : x.rank = y.rank) (hx : x.isFinite) (z : Binary64) :
    z.less x = z.less y := by
  have hy : y.isFinite := isFinite_congr h ▸ hx
  rw [less, less, isNaN_eq_false hx, isNaN_eq_false hy, h]

/-- **A whole decimal is rounded as its integer.** -/
theorem rank_ofDecimal_whole (negative : Bool) (m : ℕ) :
    (ofDecimal negative m 0).rank = (ofInt (if negative then -(m : ℤ) else m)).rank := by
  by_cases h_zero : m = 0
  · -- the two zeros have one rank
    subst h_zero
    cases negative <;> decide +kernel
  · have h_ratio : ofDecimal negative m 0 = ofRatio negative m 1 := by
      rw [ofDecimal, if_neg h_zero, if_neg (by decide), if_neg (by omega), if_pos (Int.le_refl 0),
        Int.toNat_zero, Nat.pow_zero, Nat.mul_one]
    rw [h_ratio, ofInt]
    cases negative with
    | true =>
      have h_sign : decide (-(m : ℤ) < 0) = true := decide_eq_true (by omega)
      rw [if_pos rfl, h_sign, Int.natAbs_neg, Int.natAbs_natCast]
    | false =>
      have h_sign : decide ((m : ℤ) < 0) = false := decide_eq_false (by omega)
      rw [if_neg Bool.false_ne_true, h_sign, Int.natAbs_natCast]

end Binary64

/-! ### Readings -/

/-- An integer is read as a decimal without a point and an exponent. -/
theorem Decimal.read?_of_readInteger? {cs : List Char} {i : ℤ} (h : readInteger? cs = some i) :
    ∃ negative m, Decimal.read? cs = some ⟨negative, m, 0⟩ ∧
      i = if negative then -(m : ℤ) else m := by
  obtain ⟨negative, ds, h_split⟩ : ∃ negative ds, splitSign cs = (negative, ds) := ⟨_, _, rfl⟩
  simp only [readInteger?, h_split] at h
  split at h
  · next h_digits =>
    obtain ⟨h_ne, h_all⟩ := h_digits
    refine ⟨negative, Digits.toNat ds, ?_, (Option.some.inj h).symm⟩
    have h_digit := List.all_eq_true.mp h_all
    -- all characters are taken as digits, and nothing is left for a point or an exponent
    have h_take : ds.takeWhile Char.isDigit = ds := List.takeWhile_eq_self_iff.mpr h_digit
    have h_drop : ds.dropWhile Char.isDigit = [] := List.dropWhile_eq_nil_iff.mpr h_digit
    simp only [Decimal.read?, h_split, h_take, h_drop, Decimal.splitFraction, List.append_nil]
    rw [if_neg fun h_none => h_ne h_none.1]
    rfl
  · exact absurd h (by simp)

theorem readInteger?_of_readInt64? {cs : List Char} {n : Int64} (h : readInt64? cs = some n) :
    readInteger? cs = some n.toInt := by
  obtain ⟨i, h_read, h_range⟩ := Option.bind_eq_some_iff.mp h
  split at h_range
  · next h_bounds =>
    obtain rfl := Option.some.inj h_range
    rw [Int64.toInt_ofInt_of_le h_bounds.1 h_bounds.2]
    exact h_read
  · exact absurd h_range (by simp)

/-- **A literal that is a number is a decimal**, whose double is that of the number. -/
theorem exists_of_readNumber {cs : List Char} {v : Value} (h : readNumber cs = .number v) :
    ∃ d x, Decimal.read? cs = some d ∧ v.orderingBound = some x ∧
      x.rank = d.toBinary64.rank := by
  unfold readNumber at h
  split at h
  · next n h_int =>
    obtain rfl := NumberReading.number.inj h
    obtain ⟨negative, m, h_read, h_eq⟩ :=
      Decimal.read?_of_readInteger? (readInteger?_of_readInt64? h_int)
    -- an integer is also a decimal without exponent, and both readings lead to the same rank
    have h_rank : (Binary64.ofInt n.toInt).rank = (Binary64.ofDecimal negative m 0).rank := by
      rw [Binary64.rank_ofDecimal_whole, h_eq]
    exact ⟨_, _, h_read, if_pos (Binary64.isFinite_ofInt n), h_rank⟩
  · split at h
    · exact absurd h (by simp)
    · next d h_read =>
      split at h
      · next h_finite =>
        obtain rfl := NumberReading.number.inj h
        exact ⟨d, d.toBinary64, h_read, if_pos h_finite, rfl⟩
      · exact absurd h (by simp)

/-- A finite decimal is a literal that is a number. -/
theorem exists_readNumber_of_read? {cs : List Char} {d : Decimal} (h : Decimal.read? cs = some d)
    (h_finite : d.toBinary64.isFinite) : ∃ v, readNumber cs = .number v := by
  unfold readNumber
  cases readInt64? cs with
  | some n => exact ⟨_, rfl⟩
  | none =>
    simp only [h]
    rw [if_pos h_finite]
    exact ⟨_, rfl⟩

/-- **The text of a number.** What a text counts for to the right of an ordering comparison is, up
to the sign of zero, what the number counts for that it is read as. -/
theorem Value.exists_readNumber {s : String} {x : Binary64} (h : (text s).orderingBound = some x) :
    ∃ v y, readNumber (trimBlanks s.toList) = .number v ∧ v.orderingBound = some y ∧
      x.rank = y.rank ∧ x.isFinite ∧ y.isFinite := by
  obtain ⟨h_number, h_finite⟩ := Option.filter_eq_some_iff.mp h
  obtain ⟨d, h_read, rfl⟩ := Option.map_eq_some_iff.mp h_number
  obtain ⟨v, h_literal⟩ := exists_readNumber_of_read? h_read h_finite
  obtain ⟨d', y, h_read', h_bound, h_rank⟩ := exists_of_readNumber h_literal
  obtain rfl : d = d' := Option.some.inj (h_read.symm.trans h_read')
  exact ⟨v, y, h_literal, h_bound, h_rank.symm, h_finite, Binary64.isFinite_congr h_rank ▸ h_finite⟩

end Eligibility
