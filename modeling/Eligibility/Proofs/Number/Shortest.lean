import Eligibility.Number.Shortest
import Eligibility.Proofs.Number.Interval
import Mathlib.Tactic.FieldSimp

/-!
# Shortest decimals are read back

The decimal that `shortest` finds for a magnitude lies in the rounding interval of the magnitude
(`around_shortest`), so reading it gives the magnitude back.

The search tests every candidate by `names`, and `names_iff_around` says that this test is
membership in the interval. What remains is that the search ends with a candidate that has passed.
Seventeen digits suffice for that: their grid is finer than a rounding interval is wide, so one of
the two points of the grid next to the magnitude is inside.
-/

namespace Eligibility.Binary64

/-! ### Comparing decimals -/

/-- What is compared are whole numbers, over a common denominator. -/
theorem exists_compareDecimal (c : ℕ) (e : ℤ) (h : ℕ) :
    ∃ a b d : ℕ, compareDecimal c e h = compare a b ∧ 0 < d ∧
      (a : ℚ) = 2 * decimalUnits c e * d ∧ (b : ℚ) = h * d := by
  unfold compareDecimal decimalUnits
  split
  · next h_nonneg =>
    -- nothing to clear: all factors are whole
    refine ⟨c * 10 ^ e.toNat * (2 * unitsPerOne), h, 1, rfl, Nat.one_pos, ?_, ?_⟩
    · rw [pow_ten_eq_of_nonneg h_nonneg]
      push_cast
      ring
    · rw [Nat.cast_one, mul_one]
  · next h_neg =>
    have h_ne : (10 : ℚ) ^ (-e).toNat ≠ 0 := by positivity
    -- the power of ten in the denominator is moved to the other side
    have h_pos : 0 < 10 ^ (-e).toNat := Nat.pow_pos (by decide)
    refine ⟨c * (2 * unitsPerOne), h * 10 ^ (-e).toNat, 10 ^ (-e).toNat, rfl, h_pos, ?_, ?_⟩
    · rw [pow_ten_eq_of_neg (Int.lt_of_not_ge h_neg)]
      generalize unitsPerOne = unit
      push_cast
      field_simp
    · push_cast
      rfl

theorem compareDecimal_eq_lt {c : ℕ} {e : ℤ} {h : ℕ} :
    compareDecimal c e h = .lt ↔ 2 * decimalUnits c e < h := by
  obtain ⟨a, b, d, h_cmp, hd, ha, hb⟩ := exists_compareDecimal c e h
  have hd' : (0 : ℚ) < d := Nat.cast_pos.mpr hd
  rw [h_cmp, Nat.compare_eq_lt, ← mul_lt_mul_iff_of_pos_right hd', ← ha, ← hb, Nat.cast_lt]

theorem compareDecimal_eq_gt {c : ℕ} {e : ℤ} {h : ℕ} :
    compareDecimal c e h = .gt ↔ (h : ℚ) < 2 * decimalUnits c e := by
  obtain ⟨a, b, d, h_cmp, hd, ha, hb⟩ := exists_compareDecimal c e h
  have hd' : (0 : ℚ) < d := Nat.cast_pos.mpr hd
  rw [h_cmp, Nat.compare_eq_gt, ← mul_lt_mul_iff_of_pos_right hd', ← ha, ← hb, Nat.cast_lt]

theorem compareDecimal_eq_eq {c : ℕ} {e : ℤ} {h : ℕ} :
    compareDecimal c e h = .eq ↔ 2 * decimalUnits c e = h := by
  obtain ⟨a, b, d, h_cmp, hd, ha, hb⟩ := exists_compareDecimal c e h
  have hd' : (d : ℚ) ≠ 0 := (Nat.cast_pos.mpr hd).ne'
  rw [h_cmp, Nat.compare_eq_eq, ← mul_left_inj' hd', ← ha, ← hb, Nat.cast_inj]

/-- The test of a candidate is membership in the rounding interval. -/
theorem names_iff_around {k c : ℕ} {e : ℤ} : names k c e ↔ Around k (decimalUnits c e) := by
  simp only [names, Bool.and_eq_true, Bool.or_eq_true, beq_iff_eq, compareDecimal_eq_lt,
    compareDecimal_eq_gt, compareDecimal_eq_eq]
  constructor
  · rintro ⟨h_low, h_high⟩
    exact ⟨h_low.imp_right fun h => ⟨h.1.symm, h.2⟩, h_high⟩
  · rintro ⟨h_low, h_high⟩
    exact ⟨h_low.imp_right fun h => ⟨h.1.symm, h.2⟩, h_high⟩

/-! ### Grids -/

/-- All points of a grid are multiples of its step. -/
theorem decimalUnits_eq_mul (c : ℕ) (e : ℤ) : decimalUnits c e = c * decimalUnits 1 e := by
  unfold decimalUnits
  rw [Nat.cast_one, one_mul, mul_assoc]

/-- A grid with `n` more digits is ten to the `n` times as fine. -/
theorem decimalUnits_sub (c : ℕ) (e : ℤ) (n : ℕ) :
    decimalUnits c (e - n) * 10 ^ n = decimalUnits c e := by
  unfold decimalUnits
  have h_pow : (10 : ℚ) ^ (e - n) * 10 ^ n = 10 ^ e := by
    rw [← zpow_natCast, ← zpow_add₀ (by norm_num), Int.sub_add_cancel]
  rw [mul_right_comm, mul_assoc (c : ℚ), h_pow]

/-- The point below a number of units and the one above it. -/
theorem floorOnGrid_spec (u : ℕ) (e : ℤ) :
    decimalUnits (floorOnGrid u e) e ≤ u ∧ u < decimalUnits (floorOnGrid u e + 1) e := by
  have h_unit := unitsPerOne_pos
  unfold floorOnGrid decimalUnits
  -- the two cases are the division algorithm for the step of the grid, which is whole only for
  -- exponents from zero on
  generalize unitsPerOne = unit at h_unit ⊢
  split
  · next h_nonneg =>
    have h_le := Nat.div_mul_le_self u (unit * 10 ^ e.toNat)
    have h_lt := Nat.lt_mul_div_succ u (show 0 < unit * 10 ^ e.toNat by positivity)
    rw [pow_ten_eq_of_nonneg h_nonneg]
    generalize u / (unit * 10 ^ e.toNat) = f at h_le h_lt ⊢
    rw [Nat.mul_comm unit, ← Nat.mul_assoc] at h_le
    rw [Nat.mul_comm, Nat.mul_comm unit, ← Nat.mul_assoc] at h_lt
    exact ⟨by exact_mod_cast h_le, by exact_mod_cast h_lt⟩
  · next h_neg =>
    have h_le := Nat.div_mul_le_self (u * 10 ^ (-e).toNat) unit
    have h_lt := Nat.lt_mul_div_succ (u * 10 ^ (-e).toNat) h_unit
    rw [pow_ten_eq_of_neg (Int.lt_of_not_ge h_neg)]
    generalize u * 10 ^ (-e).toNat / unit = f at h_le h_lt ⊢
    have h_pos : (0 : ℚ) < 10 ^ (-e).toNat := by positivity
    rw [Nat.mul_comm unit] at h_lt
    rw [mul_right_comm, mul_right_comm _ _ (unit : ℚ), ← div_eq_mul_inv, ← div_eq_mul_inv,
      div_le_iff₀ h_pos, lt_div_iff₀ h_pos]
    exact ⟨by exact_mod_cast h_le, by exact_mod_cast h_lt⟩

/-- The number of digits is the exponent of the next power of ten. -/
theorem lt_ten_pow_digitCount (n : ℕ) : n < 10 ^ digitCount n := by
  fun_induction digitCount n with
  | case1 => decide
  | case2 n h ih =>
    rw [Nat.pow_succ]
    omega

theorem ten_pow_digitCount_le {n : ℕ} (h : 0 < n) : 10 ^ digitCount n ≤ 10 * n := by
  fun_induction digitCount n with
  | case1 => exact absurd h (by decide)
  | case2 n h ih =>
    rw [Nat.pow_succ]
    by_cases h_zero : n / 10 = 0
    · rw [h_zero, digitCount, dif_pos rfl]
      omega
    · have := ih (Nat.pos_of_ne_zero h_zero)
      omega

theorem decimalUnits_decimalPoint_le {u : ℕ} (hu : 0 < u) :
    decimalUnits 1 (decimalPoint u) ≤ 10 * u := by
  have h_unit := unitsPerOne_pos
  unfold decimalUnits decimalPoint
  generalize unitsPerOne = unit at h_unit ⊢
  rw [Nat.cast_one, one_mul]
  split
  · next h_large =>
    -- from one on, the point stands behind the digits of the whole part
    have h_le : 10 ^ digitCount (u / unit) * unit ≤ 10 * u :=
      calc 10 ^ digitCount (u / unit) * unit ≤ 10 * (u / unit) * unit :=
            Nat.mul_le_mul_right _ (ten_pow_digitCount_le (Nat.div_pos h_large h_unit))
        _ = 10 * (u / unit * unit) := Nat.mul_assoc _ _ _
        _ ≤ 10 * u := Nat.mul_le_mul_left _ (Nat.div_mul_le_self _ _)
    rw [zpow_natCast]
    exact_mod_cast h_le
  · -- below one, the digits of the reciprocal count the zeros behind the point
    have h_lt := lt_ten_pow_digitCount ((unit - 1) / u)
    rw [Nat.div_lt_iff_lt_mul hu] at h_lt
    generalize digitCount ((unit - 1) / u) = d at h_lt ⊢
    have h_le : unit ≤ 10 ^ d * u := Nat.le_of_pred_lt h_lt
    have h_le' : (unit : ℚ) ≤ 10 ^ d * u := by exact_mod_cast h_le
    rw [sub_eq_add_neg, zpow_add₀ (by norm_num), zpow_one, zpow_neg, zpow_natCast, mul_assoc]
    refine mul_le_mul_of_nonneg_left ?_ (by norm_num)
    rwa [inv_mul_le_iff₀ (by positivity)]

/-! ### Seventeen digits -/

/-- The rounding interval of a magnitude is wider than a fraction of `10 ^ -16` of it. -/
theorem interval_wide {k : ℕ} (hk : 0 < k) :
    unitsOf (k - 1) < unitsOf k ∧ unitsOf k < unitsOf (k + 1) ∧
      2 * unitsOf k + 10 ^ 16 * unitsOf (k - 1) < 10 ^ 16 * unitsOf (k + 1) := by
  obtain ⟨s, m, h_eq, hm, hs, h_units, h_next, h_prev⟩ := exists_neighbours hk
  have h_pos : 0 < 2 ^ s := Nat.two_pow_pos s
  have h_mul : m * 2 ^ s < 2 ^ 53 * 2 ^ s := Nat.mul_lt_mul_of_pos_right hm h_pos
  rw [Nat.succ_mul] at h_next
  -- a significand is below `2 ^ 53`, and `2 ^ 54 < 2 * 10 ^ 16`
  rcases h_prev with ⟨-, h_prev⟩ | ⟨t, rfl, rfl, h_prev⟩
  · omega
  · rw [Nat.pow_succ] at h_units h_next
    have h_pos' : 0 < 2 ^ t := Nat.two_pow_pos t
    omega

/-- On a grid of seventeen digits one of the two points next to the magnitude names it. -/
theorem names_of_fine {k : ℕ} {e : ℤ} (hk : 0 < k)
    (h : decimalUnits 1 e * 10 ^ 16 ≤ unitsOf k) :
    names k (floorOnGrid (unitsOf k) e) e ∨ names k (floorOnGrid (unitsOf k) e + 1) e := by
  obtain ⟨h_floor, h_ceil⟩ := floorOnGrid_spec (unitsOf k) e
  -- the interval around the number is wider than a step of the grid
  obtain ⟨h_prev, h_next, h_wide⟩ := interval_wide hk
  rw [names_iff_around, names_iff_around]
  rw [decimalUnits_eq_mul] at h_floor h_ceil
  generalize floorOnGrid (unitsOf k) e = c at h_floor h_ceil ⊢
  have h_prev' : (unitsOf (k - 1) : ℚ) < unitsOf k := by exact_mod_cast h_prev
  have h_next' : (unitsOf k : ℚ) < unitsOf (k + 1) := by exact_mod_cast h_next
  have h_wide' : (2 * unitsOf k + 10 ^ 16 * unitsOf (k - 1) : ℚ) < 10 ^ 16 * unitsOf (k + 1) := by
    exact_mod_cast h_wide
  by_cases h_low : ((unitsOf (k - 1) + unitsOf k : ℕ) : ℚ) < 2 * decimalUnits c e
  · -- the point below is inside
    refine .inl ⟨.inl h_low, .inl ?_⟩
    rw [decimalUnits_eq_mul]
    push_cast
    linarith
  · -- the point below is too far away, and the next one is only a step of the grid above it
    rw [decimalUnits_eq_mul] at h_low
    refine .inr ⟨.inl ?_, .inl ?_⟩
    · rw [decimalUnits_eq_mul]
      push_cast at h_low h_ceil ⊢
      linarith
    · rw [decimalUnits_eq_mul]
      push_cast at h_low ⊢
      linarith

/-! ### The search -/

/-- A point that the search takes from a grid names the magnitude. -/
theorem names_of_namedOnGrid {tie : TieRule} {k c : ℕ} {e : ℤ}
    (h : namedOnGrid tie k e = some c) : names k c e := by
  unfold namedOnGrid at h
  generalize floorOnGrid (unitsOf k) e = f at h
  simp only at h
  split at h
  · exact absurd h (by simp)
  · next h_floor _ =>
    obtain rfl := Option.some.inj h
    exact h_floor
  · next _ h_ceil =>
    obtain rfl := Option.some.inj h
    exact h_ceil
  · next h_floor h_ceil =>
    -- both points name the magnitude, whichever is nearer
    have h_or : c = f ∨ c = f + 1 := by
      split at h
      · exact .inr (Option.some.inj h).symm
      · exact .inl (Option.some.inj h).symm
      · exact .inr (Option.some.inj h).symm
      · have h_if := Option.some.inj h
        split at h_if
        · exact .inl h_if.symm
        · exact .inr h_if.symm
    rcases h_or with rfl | rfl
    · exact h_floor
    · exact h_ceil

/-- A grid with a point that names the magnitude is not passed over. -/
theorem namedOnGrid_ne_none (tie : TieRule) {k : ℕ} {e : ℤ}
    (h : names k (floorOnGrid (unitsOf k) e) e ∨ names k (floorOnGrid (unitsOf k) e + 1) e) :
    namedOnGrid tie k e ≠ none := by
  unfold namedOnGrid
  generalize floorOnGrid (unitsOf k) e = f at h ⊢
  simp only
  split
  · next h_floor h_ceil => simp [h_floor, h_ceil] at h
  · simp
  · simp
  · split <;> simp

/-- The search ends before its last grid, as one of its grids is fine enough. -/
theorem names_of_shortestFrom {tie : TieRule} {k n fuel : ℕ} {p : ℤ} (hn : n ≤ 17)
    (h_fuel : 17 < n + fuel) (h_fine : namedOnGrid tie k (p - 17) ≠ none) :
    names k (shortestFrom tie k p fuel n).1 (shortestFrom tie k p fuel n).2 := by
  -- on the fuel, which lasts for the grids from `n` digits to seventeen
  induction fuel generalizing n with
  | zero => omega
  | succ fuel ih =>
    unfold shortestFrom
    cases h_grid : namedOnGrid tie k (p - n) with
    | some c => exact names_of_namedOnGrid h_grid
    | none =>
      -- the grid of seventeen digits is not passed over, so this was not the last
      have h_ne : n ≠ 17 := by
        rintro rfl
        exact h_fine h_grid
      exact ih (by omega) (by omega)

/-- Trailing zeros are worth nothing. -/
theorem decimalUnits_stripZeros (c : ℕ) (e : ℤ) :
    decimalUnits (stripZeros c e).1 (stripZeros c e).2 = decimalUnits c e := by
  fun_induction stripZeros c e with
  | case1 c e h ih =>
    -- a zero less in the digits is one more in the exponent
    rw [ih]
    have h_ten : ((c / 10 : ℕ) : ℚ) * 10 = c := by
      exact_mod_cast Nat.div_mul_cancel (Nat.dvd_of_mod_eq_zero h.2)
    unfold decimalUnits
    rw [zpow_add₀ (by norm_num), zpow_one, mul_left_comm, mul_comm (10 ^ e : ℚ), ← h_ten]
  | case2 c e h => rfl

/-- **The shortest decimal of a magnitude rounds to it.** -/
theorem around_shortest (tie : TieRule) {k : ℕ} (hk : 0 < k) :
    Around k (decimalUnits (shortest tie k).1 (shortest tie k).2) := by
  obtain ⟨h_prev, -, -⟩ := interval_wide hk
  have h_point := decimalUnits_decimalPoint_le (Nat.zero_lt_of_lt h_prev)
  -- seventeen digits: the step of the grid is a fraction of `10 ^ -16` of the magnitude
  have h_fine : decimalUnits 1 (decimalPoint (unitsOf k) - 17) * 10 ^ 16 ≤ unitsOf k := by
    have h_step := decimalUnits_sub 1 (decimalPoint (unitsOf k)) 17
    push_cast at h_step
    linarith
  unfold shortest
  rw [if_neg hk.ne']
  simp only
  rw [decimalUnits_stripZeros, ← names_iff_around]
  exact names_of_shortestFrom (by decide) (by decide)
    (namedOnGrid_ne_none tie (names_of_fine hk h_fine))

end Eligibility.Binary64
