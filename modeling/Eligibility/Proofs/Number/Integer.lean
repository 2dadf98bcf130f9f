import Eligibility.Proofs.Number.Interval

/-!
# Bounds on rounded values

Every integer of sixty-four bits has a nearest double, and it is finite (`Binary64.isFinite_ofInt`).
The double is taken from the exact value, so its magnitude is bounded by that of a power of two above
the value: a value below `2 ^ (s + 53)` has a shift of at most `s` and a significand that rounding
carries to `2 ^ 53` at most (`Binary64.nearest_le`). A power of two below the value bounds it from
the other side (`Binary64.le_nearest`). Where the digits below the shift are all zero, nothing is
rounded (`Binary64.unitsOf_nearest`).
-/

namespace Eligibility

theorem roundDiv_le (n d : Nat) : roundDiv n d ≤ n / d + 1 := by
  simp only [roundDiv]
  split
  · exact Nat.le_refl _
  · exact Nat.le_succ _

theorem le_roundDiv (n d : Nat) : n / d ≤ roundDiv n d := by
  simp only [roundDiv]
  split
  · exact Nat.le_succ _
  · exact Nat.le_refl _

theorem mul_two_pow_lt {m a : Nat} (h : m < 2 ^ a) (b : Nat) : m * 2 ^ b < 2 ^ (a + b) := by
  rw [Nat.pow_add]
  exact Nat.mul_lt_mul_of_pos_right h (Nat.two_pow_pos b)

namespace Binary64

theorem mul_unitsPerOne_lt {m a : Nat} (h : m < 2 ^ a) : m * unitsPerOne < 2 ^ (a + 1074) := by
  rw [unitsPerOne_eq]
  exact mul_two_pow_lt h 1074

theorem nearest_le {n d s t : Nat} (h : n / d < 2 ^ t) (ht : t ≤ s + 53) :
    nearest n d ≤ s * 2 ^ 52 + 2 ^ 53 := by
  have h_log : (n / d).log2 < s + 53 := by
    by_cases h_zero : n / d = 0
    · rw [h_zero]
      exact Nat.lt_of_lt_of_le (by decide) (Nat.le_add_left 53 s)
    · exact Nat.lt_of_lt_of_le ((Nat.log2_lt h_zero).mpr h) ht
  have h_shift : (n / d).log2 - 52 ≤ s := by omega
  have h_mul : ((n / d).log2 - 52) * 2 ^ 52 ≤ s * 2 ^ 52 := Nat.mul_le_mul_right _ h_shift
  -- what is left of the value after the shift has at most fifty-three bits
  have h_quotient : n / d / 2 ^ ((n / d).log2 - 52) < 2 ^ 53 := by
    rw [Nat.div_lt_iff_lt_mul (Nat.two_pow_pos _), ← Nat.pow_add]
    exact Nat.lt_of_lt_of_le Nat.lt_log2_self (Nat.pow_le_pow_right (by decide) (by omega))
  have h_round := roundDiv_le n (d * 2 ^ ((n / d).log2 - 52))
  rw [← Nat.div_div_eq_div_mul] at h_round
  simp only [nearest]
  omega

theorem le_nearest {n d s : Nat} (h : 2 ^ (s + 52) ≤ n / d) (hs : (s + 1) * 2 ^ 52 ≤ infinite) :
    (s + 1) * 2 ^ 52 ≤ nearest n d := by
  have h_ne : n / d ≠ 0 := (Nat.lt_of_lt_of_le (Nat.two_pow_pos _) h).ne'
  have h_log : s + 52 ≤ (n / d).log2 := (Nat.le_log2 h_ne).mpr h
  have h_mul : s * 2 ^ 52 ≤ ((n / d).log2 - 52) * 2 ^ 52 := Nat.mul_le_mul_right _ (by omega)
  -- what is left of the value after the shift has a leading one
  have h_quotient : 2 ^ 52 ≤ n / d / 2 ^ ((n / d).log2 - 52) := by
    rw [Nat.le_div_iff_mul_le (Nat.two_pow_pos _), ← Nat.pow_add]
    exact Nat.le_trans (Nat.pow_le_pow_right (by decide) (by omega)) (Nat.log2_self_le h_ne)
  have h_round := le_roundDiv n (d * 2 ^ ((n / d).log2 - 52))
  rw [← Nat.div_div_eq_div_mul] at h_round
  have h_sum : (s + 1) * 2 ^ 52 ≤ ((n / d).log2 - 52) * 2 ^ 52
      + roundDiv n (d * 2 ^ ((n / d).log2 - 52)) := by
    rw [Nat.succ_mul]
    exact Nat.add_le_add h_mul (h_quotient.trans h_round)
  exact Nat.le_min.mpr ⟨hs, h_sum⟩

theorem roundDiv_mul_left {d : ℕ} (hd : 0 < d) (q : ℕ) : roundDiv (d * q) d = q := by
  simp only [roundDiv, Nat.mul_div_cancel_left q hd, Nat.mul_mod_right]
  exact if_neg (by omega)

theorem nearest_zero {d : ℕ} (hd : 0 < d) : nearest 0 d = 0 := by
  have h_round : roundDiv 0 d = 0 := roundDiv_mul_left hd 0
  simp only [nearest, Nat.zero_div, Nat.log2_zero, Nat.zero_sub, Nat.pow_zero, Nat.mul_one,
    Nat.zero_mul, Nat.zero_add, h_round, Nat.min_zero]

/-- **A number of at most fifty-three bits on top of a shift is not rounded.** -/
theorem unitsOf_nearest {n s : ℕ} (h_dvd : 2 ^ s ∣ n) (h_lt : n < 2 ^ (53 + s)) (hs : s ≤ 2044) :
    unitsOf (nearest n 1) = n := by
  rcases Nat.eq_zero_or_pos n with rfl | h_pos
  · rfl
  have h_log : n.log2 < 53 + s := (Nat.log2_lt h_pos.ne').mpr h_lt
  -- the significand is what is left above the shift that rounding chooses
  obtain ⟨t, ht⟩ : ∃ t, n.log2 - 52 = t := ⟨_, rfl⟩
  obtain ⟨q, hq⟩ : 2 ^ t ∣ n := Nat.dvd_trans (Nat.pow_dvd_pow 2 (by omega)) h_dvd
  have h_small : q < 2 ^ 53 := by
    have h_bits : n < 2 ^ (t + 53) :=
      Nat.lt_of_lt_of_le Nat.lt_log2_self (Nat.pow_le_pow_right (by decide) (by omega))
    rw [hq, Nat.pow_add] at h_bits
    exact Nat.lt_of_mul_lt_mul_left h_bits
  have h_leading : t = 0 ∨ 2 ^ 52 ≤ q := by
    refine or_iff_not_imp_left.mpr fun h_shift => ?_
    have h_bits : 2 ^ (t + 52) ≤ n :=
      Nat.le_trans (Nat.pow_le_pow_right (by decide) (by omega)) (Nat.log2_self_le h_pos.ne')
    rw [hq, Nat.pow_add] at h_bits
    exact Nat.le_of_mul_le_mul_left h_bits (Nat.two_pow_pos t)
  have h_nearest : nearest n 1 = t * 2 ^ 52 + q := by
    have h_le : t * 2 ^ 52 + q ≤ infinite := by
      have h_bound : t ≤ 2044 := by omega
      unfold infinite
      omega
    have h_round : roundDiv n (1 * 2 ^ t) = q := by
      rw [Nat.one_mul, hq]
      exact roundDiv_mul_left (Nat.two_pow_pos t) q
    simp only [nearest, Nat.div_one, ht, h_round]
    exact Nat.min_eq_right h_le
  rw [h_nearest, unitsOf_significand h_small.le h_leading, hq, Nat.mul_comm]

theorem magnitude_ofParts (negative : Bool) {magnitude : Nat} (h : magnitude < 2 ^ 63) :
    (ofParts negative magnitude).magnitude = magnitude := by
  unfold Binary64.magnitude ofParts
  rw [UInt64.toNat_ofNat']
  split <;> omega

theorem negative_ofParts (negative : Bool) {magnitude : Nat} (h : magnitude < 2 ^ 63) :
    (ofParts negative magnitude).negative = negative := by
  unfold Binary64.negative ofParts
  rw [UInt64.toNat_ofNat']
  cases negative with
  | true =>
    rw [if_pos rfl, decide_eq_true_eq]
    omega
  | false =>
    rw [if_neg Bool.false_ne_true, decide_eq_false_iff_not]
    omega

theorem nearest_lt (n d : Nat) : nearest n d < 2 ^ 63 :=
  Nat.lt_of_le_of_lt (Nat.min_le_left _ _) (by decide)

/-- A double that is not finite is beyond this number of units. -/
theorem isFinite_of_units_lt {x : Binary64} (h : x.units < 2 ^ (52 + 2046)) : x.isFinite := by
  rw [isFinite, decide_eq_true_eq]
  by_contra h_infinite
  have h_le : 2 ^ 52 * 2 ^ 2046 ≤ unitsOf x.magnitude := le_unitsOf (Nat.le_of_not_lt h_infinite)
  rw [← pow_add] at h_le
  exact absurd h (Nat.not_lt_of_le h_le)

/-- An integer of sixty-four bits is nowhere near the largest doubles. -/
theorem units_ofInt_lt {i : Int} (h : i.natAbs < 2 ^ 64) : (ofInt i).units < 2 ^ (53 + 1086) := by
  have h_units : i.natAbs * unitsPerOne / 1 < 2 ^ (64 + 1074) := by
    rw [Nat.div_one]
    exact mul_unitsPerOne_lt h
  have h_nearest : nearest (i.natAbs * unitsPerOne) 1 ≤ 1085 * 2 ^ 52 + 2 ^ 53 :=
    nearest_le h_units (by decide)
  rw [units, ofInt, ofRatio, magnitude_ofParts _ (nearest_lt _ _), pow_add]
  exact unitsOf_lt h_nearest

/-- **The double of an integer is finite.** -/
theorem isFinite_ofInt_of_lt {i : Int} (h : i.natAbs < 2 ^ 64) : (ofInt i).isFinite :=
  isFinite_of_units_lt <|
    (units_ofInt_lt h).trans_le (pow_le_pow_right₀ one_le_two (by decide))

theorem natAbs_toInt_lt (n : Int64) : n.toInt.natAbs < 2 ^ 64 := by
  have h_ge := n.le_toInt
  have h_lt := n.toInt_lt
  omega

theorem isFinite_ofInt (n : Int64) : (ofInt n.toInt).isFinite :=
  isFinite_ofInt_of_lt (natAbs_toInt_lt n)

end Binary64

end Eligibility
