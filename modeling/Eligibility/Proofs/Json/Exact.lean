import Eligibility.Proofs.Json.Rule
import Eligibility.Proofs.Number.Integer

/-!
# Short doubles are read back

Reading a double from JSON is quick rather than exact, so not every double is read back. Those with
few digits are (`Binary64.readsBack_of_short`): a significand below `2 ^ 53` is a double itself, and
so is a power of ten up to the twenty-second. Then the only step that rounds is the scaling, and it
rounds the exact value of the text.
-/

namespace Eligibility

/-- A common factor does not matter. -/
theorem roundDiv_mul_right {c : ℕ} (hc : 0 < c) (n d : ℕ) :
    roundDiv (n * c) (d * c) = roundDiv n d := by
  have h_div : n * c / (d * c) = n / d := Nat.mul_div_mul_right n d hc
  have h_mod : n * c % (d * c) = n % d * c := Nat.mul_mod_mul_right c n d
  have h_lt : d * c < 2 * (n % d * c) ↔ d < 2 * (n % d) := by
    rw [← Nat.mul_assoc]
    exact Nat.mul_lt_mul_right hc
  have h_eq : 2 * (n % d * c) = d * c ↔ 2 * (n % d) = d := by
    rw [← Nat.mul_assoc]
    exact Nat.mul_left_inj hc.ne'
  simp only [roundDiv, h_div, h_mod, h_lt, h_eq]

namespace Binary64

theorem nearest_mul_right {c : ℕ} (hc : 0 < c) (n d : ℕ) :
    nearest (n * c) (d * c) = nearest n d := by
  have h_div : n * c / (d * c) = n / d := Nat.mul_div_mul_right n d hc
  simp only [nearest, h_div, Nat.mul_right_comm d c, roundDiv_mul_right hc]

/-- An integer of at most fifty-three bits is a double. -/
theorem units_ofInt {m : ℕ} (h : m < 2 ^ 53) : (ofInt m).units = m * unitsPerOne := by
  rw [units, ofInt, ofRatio, magnitude_ofParts _ (nearest_lt _ _), Int.natAbs_natCast]
  exact unitsOf_nearest two_pow_dvd_mul_unitsPerOne (mul_unitsPerOne_lt h) (by decide)

theorem negative_ofInt (m : ℕ) : (ofInt m).negative = false := by
  rw [ofInt, ofRatio, negative_ofParts _ (nearest_lt _ _), decide_eq_false_iff_not]
  omega

/-- Turning the sign over. -/
theorem withSign_ofRatio (negative : Bool) (n d : ℕ) :
    (ofRatio false n d).withSign negative = ofRatio negative n d := by
  unfold withSign
  split
  · next h =>
    rw [h, ofRatio, negative_ofParts _ (nearest_lt _ _), magnitude_ofParts _ (nearest_lt _ _)]
    rfl
  · next h => rw [eq_false_of_ne_true h]

theorem isFinite_ofRatio_congr {n d : ℕ} {negative : Bool} (h : (ofRatio negative n d).isFinite)
    (negative' : Bool) : (ofRatio negative' n d).isFinite := by
  rw [isFinite, ofRatio, magnitude_ofParts _ (nearest_lt _ _)] at h ⊢
  exact h

theorem ofRatio_zero (negative : Bool) {d : ℕ} (hd : 0 < d) :
    ofRatio negative 0 d = ofParts negative 0 := by
  rw [ofRatio, Nat.zero_mul, nearest_zero hd]

/-- A decimal with a small exponent is a ratio. -/
theorem ofDecimal_eq_ofRatio (negative : Bool) {m : ℕ} {e : ℤ} (h : e.natAbs ≤ 22) :
    ofDecimal negative m e
      = if 0 ≤ e then ofRatio negative (m * 10 ^ e.toNat) 1
        else ofRatio negative m (10 ^ (-e).toNat) := by
  unfold ofDecimal
  by_cases h_zero : m = 0
  · rw [if_pos h_zero, h_zero, Nat.zero_mul, ofRatio_zero negative Nat.one_pos,
      ofRatio_zero negative (Nat.pow_pos (by decide)), ite_self]
  · rw [if_neg h_zero, if_neg (by omega), if_neg (by omega)]

/-- A decimal with a small exponent is a ratio with either sign. -/
theorem exists_ratio {e : ℤ} (h : e.natAbs ≤ 22) (m : ℕ) :
    ∃ n d, ∀ negative, ofDecimal negative m e = ofRatio negative n d := by
  by_cases h_sign : 0 ≤ e
  · exact ⟨_, _, fun negative => (ofDecimal_eq_ofRatio negative h).trans (if_pos h_sign)⟩
  · exact ⟨_, _, fun negative => (ofDecimal_eq_ofRatio negative h).trans (if_neg h_sign)⟩

section Exact

variable {x y : Binary64} {m n : ℕ} (hx : x.negative = false) (hy : y.negative = false)
  (hm : x.units = m * unitsPerOne) (hn : y.units = n * unitsPerOne)

include hx hy hm hn

/-- The product of two integers that are doubles. -/
theorem mul_eq_ofRatio : x.mul y = ofRatio false (m * n) 1 := by
  have h_product (u : ℕ) : m * u * (n * u) = m * n * u * u := by ring
  have h_nearest := nearest_mul_right unitsPerOne_pos (m * n * unitsPerOne) 1
  rw [Nat.one_mul] at h_nearest
  rw [mul, hx, hy, hm, hn, h_product, h_nearest, ofRatio]
  rfl

/-- The quotient of two integers that are doubles. -/
theorem div_eq_ofRatio : x.div y = ofRatio false m n := by
  rw [div, hx, hy, hm, hn, nearest_mul_right unitsPerOne_pos, ofRatio]
  rfl

end Exact

end Binary64

namespace Json

open Binary64

/-- A power of ten up to the twenty-second is a double. -/
theorem tenTo_exact {k : ℕ} (h : k ≤ 22) :
    (tenTo k).negative = false ∧ (tenTo k).units = 10 ^ k * unitsPerOne := by
  have h_ratio : tenTo k = ofRatio false (10 ^ k) 1 := by
    rw [tenTo, ofDecimal_eq_ofRatio false (by omega), if_pos (by omega), Nat.one_mul,
      Int.toNat_natCast]
  -- a power of five on top of a shift
  have h_shift : 10 ^ k * unitsPerOne = 5 ^ k * 2 ^ (k + 1074) := by
    rw [unitsPerOne_eq, show 10 ^ k = 5 ^ k * 2 ^ k from mul_pow 5 2 k, Nat.mul_assoc, ← pow_add]
  have h_dvd : 2 ^ (k + 1074) ∣ 10 ^ k * unitsPerOne := by
    rw [h_shift]
    exact Nat.dvd_mul_left _ _
  have h_five : 5 ^ k < 2 ^ 53 :=
    Nat.lt_of_le_of_lt (Nat.pow_le_pow_right (by decide) h) (by decide)
  have h_lt : 10 ^ k * unitsPerOne < 2 ^ (53 + (k + 1074)) := by
    rw [h_shift]
    exact mul_two_pow_lt h_five (k + 1074)
  rw [h_ratio, units, ofRatio, negative_ofParts _ (nearest_lt _ _),
    magnitude_ofParts _ (nearest_lt _ _)]
  exact ⟨rfl, unitsOf_nearest h_dvd h_lt (Nat.le_trans (Nat.add_le_add_right h 1074) (by decide))⟩

/-- **Scaling a short significand rounds once**, from the exact value. -/
theorem scale_exact {m : ℕ} {e : ℤ} (hm : m < 2 ^ 53) (he : e.natAbs ≤ 22)
    (h_finite : (ofDecimal false m e).isFinite) :
    scale (ofInt m) e = some (ofDecimal false m e) := by
  have h_ratio := ofDecimal_eq_ofRatio false (m := m) he
  have h_int := units_ofInt hm
  rw [scale, if_neg (by omega)]
  -- the power of ten is a double itself, so there is one rounding: that of the product or the
  -- quotient
  by_cases h_sign : 0 ≤ e
  · obtain ⟨h_ten, h_units⟩ := tenTo_exact (k := e.toNat) (by omega)
    have h_mul := mul_eq_ofRatio (negative_ofInt m) h_ten h_int h_units
    rw [if_pos h_sign] at h_ratio ⊢
    rw [h_mul, ← h_ratio, Option.filter_some, if_pos h_finite]
  · obtain ⟨h_ten, h_units⟩ := tenTo_exact (k := (-e).toNat) (by omega)
    have h_div := div_eq_ofRatio (negative_ofInt m) h_ten h_int h_units
    rw [if_neg h_sign] at h_ratio ⊢
    rw [if_pos (by omega), h_div, ← h_ratio]

end Json

open Json

/-- **Doubles with few digits are read back.** If the digits of the text of a finite double make a
number below `2 ^ 53`, and its exponent is small, then the text is read as the double. -/
theorem Binary64.readsBack_of_short {x : Binary64} {d : Decimal} (h : x.isFinite)
    (h_text : Decimal.read? (writeFloat x) = some d) (h_mantissa : d.mantissa < 2 ^ 53)
    (h_exponent : d.exponent.natAbs ≤ 22) : x.ReadsBack := by
  obtain ⟨p, h_parts, h_float, h_small⟩ := exists_parts (of_decide_eq_true h)
  have h_write : writeFloat x = if x.negative then '-' :: p.text else p.text := by
    rw [writeFloat, if_pos h, Layout.render, h_parts]
  have h_head : ∀ c ∈ p.text.head?, c.isDigit :=
    isDigit_head_append p.whole_ne_nil p.whole_digits _
  -- the decimal of the text is that of the parts, and it rounds to the double
  have h_read := NumberParts.read?_text h_small
  have h_decimal : d = ⟨x.negative, p.significand, p.power⟩ := by
    rw [h_write] at h_text
    cases h_sign : x.negative with
    | false =>
      rw [h_sign, if_neg Bool.false_ne_true, h_read] at h_text
      exact (Option.some.inj h_text).symm
    | true =>
      rw [h_sign, if_pos rfl, Decimal.read?_minus h_head h_read] at h_text
      exact (Option.some.inj h_text).symm
  have h_value : ofDecimal x.negative p.significand p.power = x := by
    obtain ⟨d', h_render, h_round⟩ := read?_render floatLayout (.inr rfl) h
    rw [writeFloat, if_pos h, h_render] at h_text
    rw [Option.some.inj h_text, h_decimal] at h_round
    exact h_round
  rw [h_decimal] at h_mantissa h_exponent
  -- the reader scales the same digits without a sign
  obtain ⟨n, k, h_ratio⟩ := exists_ratio h_exponent p.significand
  have h_finite : (ofDecimal false p.significand p.power).isFinite := by
    rw [← h_value, h_ratio] at h
    rw [h_ratio]
    exact isFinite_ofRatio_congr h false
  have h_sign : (ofDecimal false p.significand p.power).withSign x.negative = x := by
    rw [h_ratio, withSign_ofRatio, ← h_ratio, h_value]
  have h_number : p.number x.negative = .ok (.float x) := by
    rw [NumberParts.number_eq_floatOf (Nat.lt_trans h_mantissa (by decide)) h_float, floatOf,
      scale_exact h_mantissa h_exponent h_finite]
    simp only [h_sign]
  have h_document : readDocument none (writeFloat x) = .ok (.float x, []) := by
    have h_parts := readDocument_text none p.isText_text x.negative endsNumber_nil
    rw [List.append_nil, h_number] at h_parts
    rw [h_write, h_parts]
    rfl
  rw [ReadsBack, Value.reread?, Value.document?, Value.writeJson, h_document]
  rfl

/-- Not every double is read back: the number `9007199254740991.0` has a digit too many. -/
example : ¬(⟨0x433FFFFFFFFFFFFF⟩ : Binary64).ReadsBack := by decide +kernel

end Eligibility
