import Eligibility.Number.Rounding
import Mathlib.Algebra.Order.Field.Power
import Mathlib.Data.Rat.Cast.Order
import Mathlib.Tactic.Linarith
import Mathlib.Tactic.NormNum
import Mathlib.Tactic.Positivity
import Mathlib.Tactic.Ring

/-!
# Rounding intervals

Around every magnitude lies the interval of the exact values that round to it. It reaches halfway to
the neighbours, and its ends belong to it if the magnitude is even. `Binary64.Around` states this
interval over the rational numbers, in units of `2 ^ -1074`, and without a word about shifts and
significands; that `nearest` takes every value of the interval to its magnitude is
`nearest_of_around`, and `ofDecimal_of_around` is the same for decimals.

Only the bottom of a binade needs care: there the interval is half as wide below the magnitude as
above it, and a value below it is rounded with the smaller shift of the binade beneath.
-/

namespace Eligibility

/-- A rounded quotient lies within one half of the quotient, and where there are two such numbers it
is the even one. -/
theorem roundDiv_eq {n d m : ℕ} (hd : 0 < d)
    (h_low : 2 * (m * d) < 2 * n + d ∨ 2 * (m * d) = 2 * n + d ∧ m % 2 = 0)
    (h_high : 2 * n < 2 * (m * d) + d ∨ 2 * n = 2 * (m * d) + d ∧ m % 2 = 0) :
    roundDiv n d = m := by
  have h_div : n / d * d + n % d = n := Nat.div_add_mod' n d
  have h_mod : n % d < d := Nat.mod_lt n hd
  unfold roundDiv
  generalize n / d = q at h_div ⊢
  generalize n % d = r at h_div h_mod ⊢
  -- the candidates are the quotient and its successor
  have h_le : q ≤ m := by
    by_contra h_lt
    have h_mul : (m + 1) * d ≤ q * d := Nat.mul_le_mul_right d (Nat.lt_of_not_le h_lt)
    rw [Nat.add_mul] at h_mul
    omega
  have h_ge : m ≤ q + 1 := by
    by_contra h_lt
    have h_mul : (q + 2) * d ≤ m * d := Nat.mul_le_mul_right d (Nat.lt_of_not_le h_lt)
    rw [Nat.add_mul] at h_mul
    omega
  obtain rfl | rfl : m = q ∨ m = q + 1 := by omega
  · -- the remainder is below one half, or on it and the quotient is even
    rw [if_neg (by omega)]
  · rw [Nat.add_mul] at h_low h_high
    rw [if_pos (by omega)]

namespace Binary64

/-! ### Shift and significand -/

/-- A magnitude is a significand of at most fifty-three bits, on top of a shift. -/
theorem exists_significand (k : ℕ) :
    ∃ s m, k = s * 2 ^ 52 + m ∧ m < 2 ^ 53 ∧ (s = 0 ∨ 2 ^ 52 ≤ m) := by
  by_cases h : k < 2 ^ 52
  · -- a subnormal magnitude is its own significand
    exact ⟨0, k, by omega, by omega, .inl rfl⟩
  · -- a normal one has a leading bit that is not stored
    exact ⟨k / 2 ^ 52 - 1, 2 ^ 52 + k % 2 ^ 52, by omega, by omega, .inr (by omega)⟩

/-- A significand may also carry over into the next binade. -/
theorem unitsOf_significand {s m : ℕ} (hm : m ≤ 2 ^ 53) (h : s = 0 ∨ 2 ^ 52 ≤ m) :
    unitsOf (s * 2 ^ 52 + m) = m * 2 ^ s := by
  unfold unitsOf
  rcases Nat.lt_or_ge m (2 ^ 52) with h_small | h_normal
  · obtain rfl : s = 0 := by omega
    rw [if_pos (by omega)]
    omega
  rcases Nat.lt_or_ge m (2 ^ 53) with h_lt | h_carry
  · -- the leading bit of the significand counts as one step of the exponent
    have h_exp : (s * 2 ^ 52 + m) / 2 ^ 52 = s + 1 := by omega
    have h_frac : 2 ^ 52 + (s * 2 ^ 52 + m) % 2 ^ 52 = m := by omega
    rw [h_exp, h_frac, if_neg (Nat.succ_ne_zero s), Nat.add_sub_cancel]
  · -- a full carry is the first number of the next binade, with twice the step
    obtain rfl : m = 2 ^ 53 := by omega
    have h_exp : (s * 2 ^ 52 + 2 ^ 53) / 2 ^ 52 = s + 2 := by omega
    have h_frac : 2 ^ 52 + (s * 2 ^ 52 + 2 ^ 53) % 2 ^ 52 = 2 ^ 52 := by omega
    rw [h_exp, h_frac, if_neg (Nat.succ_ne_zero _), show s + 2 - 1 = s + 1 from rfl, Nat.pow_succ]
    omega

/-- The units around a magnitude. The neighbours are equally far away, except at the bottom of a
binade, where the one below is only half as far. -/
theorem exists_neighbours {k : ℕ} (hk : 0 < k) :
    ∃ s m, k = s * 2 ^ 52 + m ∧ m < 2 ^ 53 ∧ (s = 0 ∨ 2 ^ 52 ≤ m) ∧ unitsOf k = m * 2 ^ s ∧
      unitsOf (k + 1) = (m + 1) * 2 ^ s ∧
      ((s = 0 ∨ 2 ^ 52 < m) ∧ unitsOf (k - 1) + 2 ^ s = m * 2 ^ s ∨
        ∃ t, s = t + 1 ∧ m = 2 ^ 52 ∧ unitsOf (k - 1) + 2 ^ t = 2 ^ 53 * 2 ^ t) := by
  obtain ⟨s, m, rfl, hm, hs⟩ := exists_significand k
  have h_next : unitsOf (s * 2 ^ 52 + m + 1) = (m + 1) * 2 ^ s := by
    rw [Nat.add_assoc, unitsOf_significand hm (hs.imp_right Nat.le_succ_of_le)]
  refine ⟨s, m, rfl, hm, hs, unitsOf_significand hm.le hs, h_next, ?_⟩
  by_cases h_bottom : s = 0 ∨ 2 ^ 52 < m
  · -- inside a binade the significand below is one less
    refine .inl ⟨h_bottom, ?_⟩
    obtain ⟨m, rfl⟩ : ∃ m', m = m' + 1 := ⟨m - 1, by omega⟩
    rw [← Nat.add_assoc, Nat.add_sub_cancel, unitsOf_significand (by omega) (by omega)]
    ring
  · obtain ⟨t, rfl⟩ : ∃ t, s = t + 1 := ⟨s - 1, by omega⟩
    obtain rfl : m = 2 ^ 52 := by omega
    -- the magnitude below is the last of the binade beneath, whose step is half as large
    refine .inr ⟨t, rfl, rfl, ?_⟩
    have h_pred : (t + 1) * 2 ^ 52 + 2 ^ 52 - 1 = t * 2 ^ 52 + (2 ^ 53 - 1) := by omega
    rw [h_pred, unitsOf_significand (by omega) (by omega), ← Nat.succ_mul, Nat.succ_eq_add_one,
      Nat.sub_add_cancel (by omega)]

/-- The units of a magnitude up to the end of a binade. -/
theorem unitsOf_lt {k s : ℕ} (h : k ≤ (s + 1) * 2 ^ 52) : unitsOf k < 2 ^ 53 * 2 ^ s := by
  obtain ⟨t, m, rfl, hm, ht⟩ := exists_significand k
  rw [unitsOf_significand hm.le ht]
  have h_shift : t ≤ s := by omega
  calc m * 2 ^ t < 2 ^ 53 * 2 ^ t := Nat.mul_lt_mul_of_pos_right hm (Nat.two_pow_pos t)
    _ ≤ 2 ^ 53 * 2 ^ s := Nat.mul_le_mul_left _ (Nat.pow_le_pow_right (by decide) h_shift)

theorem le_unitsOf {k s : ℕ} (h : (s + 1) * 2 ^ 52 ≤ k) : 2 ^ 52 * 2 ^ s ≤ unitsOf k := by
  obtain ⟨t, m, rfl, hm, ht⟩ := exists_significand k
  rw [unitsOf_significand hm.le ht]
  have h_shift : s ≤ t := by omega
  calc 2 ^ 52 * 2 ^ s ≤ 2 ^ 52 * 2 ^ t :=
        Nat.mul_le_mul_left _ (Nat.pow_le_pow_right (by decide) h_shift)
    _ ≤ m * 2 ^ t := Nat.mul_le_mul_right _ (by omega)

/-! ### The interval of a magnitude -/

/-- The value of `q` units rounds to the magnitude `k`: it lies between the midpoints to the
neighbours of `k`, or on one of them if `k` is even. -/
structure Around (k : ℕ) (q : ℚ) : Prop where
  low : ((unitsOf (k - 1) + unitsOf k : ℕ) : ℚ) < 2 * q ∨
    ((unitsOf (k - 1) + unitsOf k : ℕ) : ℚ) = 2 * q ∧ k % 2 = 0
  high : 2 * q < ((unitsOf k + unitsOf (k + 1) : ℕ) : ℚ) ∨
    2 * q = ((unitsOf k + unitsOf (k + 1) : ℕ) : ℚ) ∧ k % 2 = 0

/-- The ends of the interval, over a common denominator. -/
theorem Around.clear {k n d : ℕ} (hd : 0 < d) (h : Around k (n / d)) :
    ((unitsOf (k - 1) + unitsOf k) * d < 2 * n ∨
      (unitsOf (k - 1) + unitsOf k) * d = 2 * n ∧ k % 2 = 0) ∧
    (2 * n < (unitsOf k + unitsOf (k + 1)) * d ∨
      2 * n = (unitsOf k + unitsOf (k + 1)) * d ∧ k % 2 = 0) := by
  have hd' : (0 : ℚ) < d := Nat.cast_pos.mpr hd
  obtain ⟨h_low, h_high⟩ := h
  rw [← mul_div_assoc] at h_low h_high
  rw [lt_div_iff₀ hd', eq_div_iff hd'.ne'] at h_low
  rw [div_lt_iff₀ hd', div_eq_iff hd'.ne'] at h_high
  exact ⟨by exact_mod_cast h_low, by exact_mod_cast h_high⟩

/-- Rounding with a known shift. -/
theorem nearest_of_shift {n d t m : ℕ} (hd : 0 < d) (h_floor : t = 0 ∨ 2 ^ 52 * (2 ^ t * d) ≤ n)
    (h_ceil : n < 2 ^ 53 * (2 ^ t * d))
    (h_low : 2 * (m * (2 ^ t * d)) < 2 * n + 2 ^ t * d ∨
      2 * (m * (2 ^ t * d)) = 2 * n + 2 ^ t * d ∧ m % 2 = 0)
    (h_high : 2 * n < 2 * (m * (2 ^ t * d)) + 2 ^ t * d ∨
      2 * n = 2 * (m * (2 ^ t * d)) + 2 ^ t * d ∧ m % 2 = 0) :
    nearest n d = min infinite (t * 2 ^ 52 + m) := by
  -- the quotient has fifty-three bits and the shift on top of them, unless nothing is shifted
  have h_shift : (n / d).log2 - 52 = t := by
    have h_lt : n / d < 2 ^ (53 + t) := by
      rw [Nat.div_lt_iff_lt_mul hd, Nat.pow_add, Nat.mul_assoc]
      exact h_ceil
    have h_log : (n / d).log2 < 53 + t := by
      by_cases h_zero : n / d = 0
      · rw [h_zero]
        exact Nat.lt_of_lt_of_le (by decide) (Nat.le_add_right 53 t)
      · exact (Nat.log2_lt h_zero).mpr h_lt
    rcases h_floor with rfl | h_floor
    · omega
    · have h_ge : 2 ^ (52 + t) ≤ n / d := by
        rw [Nat.le_div_iff_mul_le hd, Nat.pow_add, Nat.mul_assoc]
        exact h_floor
      have h_ne : n / d ≠ 0 := Nat.ne_of_gt (Nat.lt_of_lt_of_le (Nat.two_pow_pos _) h_ge)
      have h_log' : 52 + t ≤ (n / d).log2 := (Nat.le_log2 h_ne).mpr h_ge
      omega
  have h_pos : 0 < 2 ^ t * d := Nat.mul_pos (Nat.two_pow_pos t) hd
  simp only [nearest, h_shift]
  rw [Nat.mul_comm d, roundDiv_eq h_pos h_low h_high]

/-- **A value in the interval of a finite magnitude rounds to it.** -/
theorem nearest_of_around {k n d : ℕ} (hk : 0 < k) (hk' : k < infinite) (hd : 0 < d)
    (h : Around k (n / d)) : nearest n d = k := by
  obtain ⟨h_low, h_high⟩ := h.clear hd
  obtain ⟨s, m, h_eq, hm, hs, h_units, h_next, h_prev⟩ := exists_neighbours hk
  -- the ends in multiples of `2 ^ s * d`, the distance of the numbers in this binade
  have h_pos : 0 < 2 ^ s * d := Nat.mul_pos (Nat.two_pow_pos s) hd
  have h_succ : (m + 1) * (2 ^ s * d) ≤ 2 ^ 53 * (2 ^ s * d) := Nat.mul_le_mul_right _ hm
  rw [Nat.succ_mul] at h_succ
  have h_top : (unitsOf k + unitsOf (k + 1)) * d = 2 * (m * (2 ^ s * d)) + 2 ^ s * d := by
    rw [h_units, h_next]
    ring
  rw [h_top] at h_high
  rcases h_prev with ⟨h_inner, h_prev⟩ | ⟨t, rfl, rfl, h_prev⟩
  · -- both neighbours are one step away, so the shift is that of the magnitude
    have h_bottom : (unitsOf (k - 1) + unitsOf k) * d + 2 ^ s * d = 2 * (m * (2 ^ s * d)) := by
      rw [h_units, ← Nat.add_mul, Nat.add_right_comm, h_prev]
      ring
    have h_near : nearest n d = min infinite (s * 2 ^ 52 + m) := by
      refine nearest_of_shift hd ?_ (by omega) (by omega) (by omega)
      refine h_inner.imp_right fun h_lt => ?_
      have h_floor : (2 ^ 52 + 1) * (2 ^ s * d) ≤ m * (2 ^ s * d) :=
        Nat.mul_le_mul_right _ h_lt
      omega
    rw [h_near, ← h_eq, Nat.min_eq_right hk'.le]
  · -- the bottom of a binade: below the magnitude the numbers are twice as dense
    have h_half : 2 ^ (t + 1) * d = 2 * (2 ^ t * d) := by ring
    have h_bottom : (unitsOf (k - 1) + unitsOf k) * d + 2 ^ t * d = 2 ^ 54 * (2 ^ t * d) := by
      rw [h_units, ← Nat.add_mul, Nat.add_right_comm, h_prev]
      ring
    rw [h_half] at h_high
    -- the value may lie in the binade of the magnitude or in the one beneath
    by_cases h_side : 2 ^ 52 * (2 ^ (t + 1) * d) ≤ n
    · have h_near : nearest n d = min infinite ((t + 1) * 2 ^ 52 + 2 ^ 52) := by
        rw [h_half] at h_side
        refine nearest_of_shift hd (.inr ?_) ?_ ?_ ?_ <;> rw [h_half] <;> omega
      rw [h_near, ← h_eq, Nat.min_eq_right hk'.le]
    · -- below the magnitude the smaller shift is used, and rounding carries into the binade
      have h_lt : n < 2 ^ 53 * (2 ^ t * d) := by
        rw [h_half] at h_side
        omega
      have h_near : nearest n d = min infinite (t * 2 ^ 52 + 2 ^ 53) := by
        have h_ge : 2 ^ 54 * (2 ^ t * d) ≤ 2 * n + 2 ^ t * d := by
          rw [← h_bottom]
          exact Nat.add_le_add_right (h_low.elim Nat.le_of_lt fun h => h.1.le) _
        have h_half_ge : 2 * (2 ^ 53 * (2 ^ t * d)) ≤ 2 * n + 2 ^ t * d := by omega
        refine nearest_of_shift hd (.inr (by omega)) h_lt ?_ (.inl (by omega))
        exact (Nat.lt_or_eq_of_le h_half_ge).imp_right fun h_eq => ⟨h_eq, by decide⟩
      have h_carry : t * 2 ^ 52 + 2 ^ 53 = k := by omega
      rw [h_near, h_carry, Nat.min_eq_right hk'.le]

/-! ### Decimals -/

/-- The exact value of a decimal, in units of `2 ^ -1074`. -/
def decimalUnits (c : ℕ) (e : ℤ) : ℚ := c * 10 ^ e * unitsPerOne

theorem pow_ten_eq_of_nonneg {e : ℤ} (h : 0 ≤ e) : (10 : ℚ) ^ e = 10 ^ e.toNat := by
  rw [← zpow_natCast, Int.toNat_of_nonneg h]

theorem pow_ten_eq_of_neg {e : ℤ} (h : e < 0) : (10 : ℚ) ^ e = (10 ^ (-e).toNat)⁻¹ := by
  rw [← zpow_natCast, Int.toNat_of_nonneg (by omega), zpow_neg, inv_inv]

/-- No value of the interval is below half a unit. -/
theorem Around.one_le {k : ℕ} {q : ℚ} (hk : 0 < k) (h : Around k q) : 1 ≤ 2 * q := by
  obtain ⟨s, m, h_eq, hm, hs, h_units, -, -⟩ := exists_neighbours hk
  have h_pos : 0 < m := by omega
  have h_one : 1 ≤ unitsOf (k - 1) + unitsOf k := by
    rw [h_units]
    exact Nat.le_add_left_of_le (Nat.mul_pos h_pos (Nat.two_pow_pos s))
  have h_one' : (1 : ℚ) ≤ ((unitsOf (k - 1) + unitsOf k : ℕ) : ℚ) := by exact_mod_cast h_one
  rcases h.low with h_lt | ⟨h_eq, -⟩
  · exact h_one'.trans h_lt.le
  · exact h_one'.trans h_eq.le

/-- No value of the interval lies above the next binade. -/
theorem Around.lt_pow {k s : ℕ} {q : ℚ} (hk : k < (s + 1) * 2 ^ 52) (h : Around k q) :
    q < 2 ^ (53 + s) := by
  -- twice the number is at most the sum of two neighbours, and these are in the binades up to there
  have h_sum : unitsOf k + unitsOf (k + 1) < 2 * 2 ^ (53 + s) := by
    rw [Nat.pow_add, Nat.two_mul]
    exact Nat.add_lt_add (unitsOf_lt hk.le) (unitsOf_lt (Nat.succ_le_of_lt hk))
  have h_sum' : ((unitsOf k + unitsOf (k + 1) : ℕ) : ℚ) < 2 * 2 ^ (53 + s) := by
    exact_mod_cast h_sum
  have h_le : 2 * q ≤ ((unitsOf k + unitsOf (k + 1) : ℕ) : ℚ) := by
    rcases h.high with h_lt | ⟨h_eq, -⟩
    · exact h_lt.le
    · exact h_eq.le
  linarith

/-- The power is only named where its exponent matters: it is too large to be computed. -/
theorem unitsPerOne_eq : unitsPerOne = 2 ^ 1074 := by
  unfold unitsPerOne
  generalize 1074 = n
  rfl

theorem two_pow_dvd_mul_unitsPerOne {m : ℕ} : 2 ^ 1074 ∣ m * unitsPerOne := by
  rw [unitsPerOne_eq]
  exact dvd_mul_left _ _

theorem unitsPerOne_pos : 0 < unitsPerOne := by
  rw [unitsPerOne_eq]
  exact pow_pos two_pos 1074

theorem cast_unitsPerOne : (unitsPerOne : ℚ) = 2 ^ 1074 := by
  rw [unitsPerOne_eq]
  generalize 1074 = n
  rw [Nat.cast_pow, Nat.cast_ofNat]

theorem two_pow_le_ten_pow (n : ℕ) : (2 : ℚ) ^ (3 * n) ≤ 10 ^ n := by
  rw [pow_mul]
  exact pow_le_pow_left₀ (by norm_num) (by norm_num) n

/-- A decimal that rounds to a magnitude is not larger than the binade allows. -/
theorem exponent_le_of_around {k c s n j : ℕ} {e : ℤ} (hk : k < (s + 1) * 2 ^ 52)
    (hc : 10 ^ j ≤ c) (hn : 53 + s ≤ 3 * n + 1074) (h : Around k (decimalUnits c e)) :
    e + j ≤ n := by
  -- else the decimal is at least the power of two that ends the binade above
  by_contra h_lt
  have hc' : (10 : ℚ) ^ j ≤ c := by exact_mod_cast hc
  have h_pow : (2 : ℚ) ^ (3 * n) ≤ c * 10 ^ e :=
    calc (2 : ℚ) ^ (3 * n) ≤ 10 ^ n := two_pow_le_ten_pow n
      _ = 10 ^ (n : ℤ) := (zpow_natCast _ _).symm
      _ ≤ 10 ^ ((j : ℤ) + e) := zpow_le_zpow_right₀ (by norm_num) (by omega)
      _ = 10 ^ j * 10 ^ e := by rw [zpow_add₀ (by norm_num), zpow_natCast]
      _ ≤ c * 10 ^ e := mul_le_mul_of_nonneg_right hc' (by positivity)
  have h_units : (2 : ℚ) ^ (53 + s) ≤ decimalUnits c e :=
    calc (2 : ℚ) ^ (53 + s) ≤ 2 ^ (3 * n + 1074) := pow_le_pow_right₀ (by norm_num) hn
      _ = 2 ^ (3 * n) * unitsPerOne := by rw [pow_add, cast_unitsPerOne]
      _ ≤ c * 10 ^ e * unitsPerOne := mul_le_mul_of_nonneg_right h_pow (Nat.cast_nonneg _)
  exact absurd (h.lt_pow hk) (not_lt_of_ge h_units)

/-- A decimal that rounds to a positive magnitude does not vanish. -/
theorem lt_exponent_of_around {k c n j : ℕ} {e : ℤ} (hk : 0 < k) (hc : c ≤ 10 ^ j)
    (hn : 1075 < 3 * n) (h : Around k (decimalUnits c e)) : -(n : ℤ) < e + j := by
  -- else the decimal is less than half a unit
  by_contra h_lt
  have hc' : (c : ℚ) ≤ 10 ^ j := by exact_mod_cast hc
  have h_value : (c : ℚ) * 10 ^ e ≤ (10 ^ n)⁻¹ :=
    calc (c : ℚ) * 10 ^ e ≤ 10 ^ j * 10 ^ e := mul_le_mul_of_nonneg_right hc' (by positivity)
      _ = 10 ^ ((j : ℤ) + e) := by rw [zpow_add₀ (by norm_num), zpow_natCast]
      _ ≤ 10 ^ (-(n : ℤ)) := zpow_le_zpow_right₀ (by norm_num) (by omega)
      _ = (10 ^ n)⁻¹ := by rw [zpow_neg, zpow_natCast]
  have h_pow : (unitsPerOne : ℚ) * 2 < 10 ^ n :=
    calc (unitsPerOne : ℚ) * 2 = 2 ^ (1074 + 1) := by rw [cast_unitsPerOne, ← pow_succ]
      _ < 2 ^ (3 * n) := pow_lt_pow_right₀ (by norm_num) hn
      _ ≤ 10 ^ n := two_pow_le_ten_pow n
  have h_units : 2 * decimalUnits c e < 1 :=
    calc 2 * decimalUnits c e = c * 10 ^ e * (unitsPerOne * 2) := by
          rw [decimalUnits, mul_comm, mul_assoc]
      _ ≤ (10 ^ n)⁻¹ * (unitsPerOne * 2) :=
          mul_le_mul_of_nonneg_right h_value (mul_nonneg (Nat.cast_nonneg _) zero_le_two)
      _ < 1 := by rwa [inv_mul_lt_iff₀ (by positivity), mul_one]
  exact absurd (h.one_le hk) (not_le_of_gt h_units)

/-- The decimals of finite doubles have small exponents, wherever the point stands. -/
theorem Around.exponent_bounds {k c j : ℕ} {e : ℤ} (hk : 0 < k) (hk' : k < infinite)
    (h : Around k (decimalUnits c e)) :
    (10 ^ j ≤ c → e + j ≤ 400) ∧ (c ≤ 10 ^ j → -400 < e + j) := by
  refine ⟨fun hc => ?_, fun hc => lt_exponent_of_around (n := 400) hk hc (by omega) h⟩
  exact exponent_le_of_around (s := 2046) (n := 400) hk' hc (by omega) h

theorem decimalUnits_zero (e : ℤ) : decimalUnits 0 e = 0 := by
  unfold decimalUnits
  rw [Nat.cast_zero, zero_mul, zero_mul]

/-- Zero is far from every positive magnitude. -/
theorem ne_zero_of_around {k c : ℕ} {e : ℤ} (hk : 0 < k) (h : Around k (decimalUnits c e)) :
    c ≠ 0 := by
  rintro rfl
  have h_one := h.one_le hk
  rw [decimalUnits_zero, mul_zero] at h_one
  exact absurd h_one (by norm_num)

/-- **A decimal in the interval of a finite magnitude is read as it.** -/
theorem ofDecimal_of_around {k c : ℕ} {e : ℤ} (negative : Bool) (hk : 0 < k) (hk' : k < infinite)
    (h : Around k (decimalUnits c e)) : ofDecimal negative c e = ofParts negative k := by
  have hc := ne_zero_of_around hk h
  have h_log : c ≤ 10 ^ (c.log2 + 1) :=
    calc c ≤ 2 ^ (c.log2 + 1) := Nat.lt_log2_self.le
      _ ≤ 10 ^ (c.log2 + 1) := Nat.pow_le_pow_left (by decide) _
  -- neither of the shortcuts for extreme exponents is taken
  have h_le := (h.exponent_bounds (j := 0) hk hk').1 (Nat.one_le_iff_ne_zero.mpr hc)
  have h_ge := (h.exponent_bounds hk hk').2 h_log
  unfold ofDecimal
  rw [if_neg hc, if_neg (by omega), if_neg (by omega)]
  unfold decimalUnits at h
  split
  · next h_nonneg =>
    unfold ofRatio
    rw [nearest_of_around hk hk' Nat.one_pos]
    -- the fraction that is rounded is the value of the decimal
    rw [pow_ten_eq_of_nonneg h_nonneg] at h
    convert h using 1
    push_cast
    ring
  · next h_neg =>
    unfold ofRatio
    rw [nearest_of_around hk hk' (Nat.pow_pos (by decide))]
    rw [pow_ten_eq_of_neg (by omega)] at h
    convert h using 1
    push_cast
    ring

end Binary64

end Eligibility
