import Eligibility.Proofs.Number.Integer
import Mathlib.Data.Nat.Log
import Mathlib.Order.Monotone.Odd

/-!
# The order of doubles

Doubles are ordered by their bits, and integers are rounded before they are ordered with doubles.
Both go by the distance from zero, and are carried over to the other side of it (`mirrored`). So
there are two facts about distances to prove: larger bits are more units
(`Binary64.unitsOf_strictMono`), and more units never round to fewer (`Binary64.nearest_mono`).

The first makes the order of the bits that of the exact values (`Binary64.less_eq`,
`Binary64.equals_eq`). The second, together with doubles being their own rounding, says that an
integer may be rounded onto a double, but never past one (`Binary64.value_ofInt_le`,
`Binary64.le_value_ofInt`).
-/

namespace Eligibility

/-! ### Both sides of zero -/

/-- A map of distances from zero, on either side of zero. -/
def mirrored (f : ℕ → ℕ) (i : ℤ) : ℤ := i.sign * f i.natAbs

section Mirrored

variable {f : ℕ → ℕ}

theorem mirrored_neg (f : ℕ → ℕ) (i : ℤ) : mirrored f (-i) = -mirrored f i := by
  rw [mirrored, mirrored, Int.sign_neg, Int.natAbs_neg, Int.neg_mul]

theorem mirrored_natCast (h_zero : f 0 = 0) (n : ℕ) : mirrored f n = f n := by
  cases n with
  | zero => simp [mirrored, h_zero]
  | succ n =>
    rw [mirrored, Int.natAbs_natCast, Int.natCast_succ, Int.sign_natCast_add_one, Int.one_mul]

/-- A distance with a sign is mapped in the distance. -/
theorem mirrored_ite (h_zero : f 0 = 0) (negative : Bool) (n : ℕ) :
    mirrored f (if negative then -n else n) = if negative then -(f n : ℤ) else f n := by
  cases negative with
  | true => rw [if_pos rfl, if_pos rfl, mirrored_neg, mirrored_natCast h_zero]
  | false => exact mirrored_natCast h_zero n

theorem mirrored_le (h_zero : f 0 = 0) (hf : Monotone f) {i j : ℤ} (h : i ≤ j) :
    mirrored f i ≤ mirrored f j := by
  refine monotone_of_odd_of_monotoneOn_nonneg (mirrored_neg f) (fun i hi j hj h => ?_) h
  lift i to ℕ using hi
  lift j to ℕ using hj
  rw [mirrored_natCast h_zero, mirrored_natCast h_zero]
  exact_mod_cast hf (Int.ofNat_le.mp h)

theorem mirrored_lt_iff (h_zero : f 0 = 0) (hf : StrictMono f) {i j : ℤ} :
    mirrored f i < mirrored f j ↔ i < j := by
  refine (strictMono_of_odd_strictMonoOn_nonneg (mirrored_neg f) fun i hi j hj h => ?_).lt_iff_lt
  lift i to ℕ using hi
  lift j to ℕ using hj
  rw [mirrored_natCast h_zero, mirrored_natCast h_zero]
  exact_mod_cast hf (Int.ofNat_lt.mp h)

end Mirrored

theorem roundDiv_mono {n n' : ℕ} (d : ℕ) (h : n ≤ n') : roundDiv n d ≤ roundDiv n' d := by
  rcases (Nat.div_le_div_right h : n / d ≤ n' / d).lt_or_eq with h_lt | h_eq
  · exact ((roundDiv_le n d).trans h_lt).trans (le_roundDiv n' d)
  · -- with the same quotient, it is the larger remainder that is rounded up
    have h_div : n / d * d + n % d = n := Nat.div_add_mod' n d
    have h_div' : n' / d * d + n' % d = n' := Nat.div_add_mod' n' d
    rw [← h_eq] at h_div'
    have h_mod : n % d ≤ n' % d := by omega
    simp only [roundDiv, ← h_eq]
    split <;> split <;> omega

namespace Binary64

/-! ### The exact value -/

theorem unitsOf_strictMono : StrictMono unitsOf := by
  refine strictMono_nat_of_lt_succ fun k => ?_
  obtain ⟨s, m, rfl, hm, hs⟩ := exists_significand k
  have h_next : unitsOf (s * 2 ^ 52 + (m + 1)) = (m + 1) * 2 ^ s :=
    unitsOf_significand hm (hs.imp_right Nat.le_succ_of_le)
  rw [unitsOf_significand hm.le hs, Nat.add_assoc, h_next]
  exact Nat.mul_lt_mul_of_pos_right (Nat.lt_succ_self m) (Nat.two_pow_pos s)

/-- A number in units of `2 ^ -1074`, with its sign. -/
def scaled (x : Binary64) : ℤ := mirrored unitsOf x.rank

/-- **The exact value** of a finite number. -/
def value (x : Binary64) : ℚ := x.scaled / unitsPerOne

theorem unit_pos : (0 : ℚ) < unitsPerOne := Nat.cast_pos.mpr unitsPerOne_pos

theorem value_lt_value_iff {x y : Binary64} : x.value < y.value ↔ x.rank < y.rank := by
  rw [value, value, div_lt_div_iff_of_pos_right unit_pos, Int.cast_lt]
  exact mirrored_lt_iff rfl unitsOf_strictMono

theorem value_le_value_iff {x y : Binary64} : x.value ≤ y.value ↔ x.rank ≤ y.rank := by
  rw [← not_lt, value_lt_value_iff, not_lt]

theorem value_eq_value_iff {x y : Binary64} : x.value = y.value ↔ x.rank = y.rank := by
  rw [le_antisymm_iff, le_antisymm_iff, value_le_value_iff, value_le_value_iff]

theorem isNaN_eq_false {x : Binary64} (h : x.isFinite) : x.isNaN = false := by
  rw [isFinite, decide_eq_true_eq] at h
  rw [isNaN, decide_eq_false_iff_not]
  exact h.not_gt

section Comparisons

variable {x y : Binary64} (hx : x.isFinite) (hy : y.isFinite)

include hx hy

/-- **Finite doubles are ordered by their exact values.** -/
theorem less_eq : x.less y = decide (x.value < y.value) := by
  simp only [less, isNaN_eq_false hx, isNaN_eq_false hy, value_lt_value_iff, Bool.not_false,
    Bool.true_and]

theorem equals_eq : x.equals y = decide (x.value = y.value) := by
  simp only [equals, isNaN_eq_false hx, isNaN_eq_false hy, value_eq_value_iff, Bool.not_false,
    Bool.true_and]
  exact Bool.beq_eq_decide_eq _ _

end Comparisons

/-! ### Rounding -/

/-- **More units never round to fewer.** -/
theorem nearest_mono (d : ℕ) : Monotone (nearest · d) := by
  intro n n' h
  change nearest n d ≤ nearest n' d
  have h_div : n / d ≤ n' / d := Nat.div_le_div_right h
  have h_log : (n / d).log2 ≤ (n' / d).log2 := by
    rw [Nat.log2_eq_log_two, Nat.log2_eq_log_two]
    exact Nat.log_mono_right h_div
  -- the binade decides, and within one it is the rounded quotient
  obtain ⟨s, hs⟩ : ∃ s, (n / d).log2 - 52 = s := ⟨_, rfl⟩
  rcases (Nat.sub_le_sub_right h_log 52).lt_or_eq with h_shift | h_shift
  · -- the end of the smaller binade is where the larger one starts
    have h_ne : n' / d ≠ 0 := by
      intro h_zero
      rw [h_zero, Nat.log2_zero] at h_shift
      omega
    have h_lt : n / d < 2 ^ ((n / d).log2 + 1) := Nat.lt_log2_self
    have h_small : nearest n d ≤ s * 2 ^ 52 + 2 ^ 53 := nearest_le h_lt (by omega)
    have h_large (t : ℕ) (ht : t ≤ s + 1) : 2 ^ (t + 52) ≤ n' / d :=
      (Nat.le_log2 h_ne).mp (by omega)
    by_cases h_infinite : (s + 1 + 1) * 2 ^ 52 ≤ infinite
    · have h_next := le_nearest (h_large (s + 1) (Nat.le_refl _)) h_infinite
      exact h_small.trans (by omega)
    · -- past the last binade everything is infinite
      have h_last : infinite ≤ nearest n' d := by
        refine le_nearest (h_large 2046 ?_) (Nat.le_refl _)
        unfold infinite at h_infinite
        omega
      exact (Nat.min_le_left _ _).trans h_last
  · simp only [nearest, h_shift]
    exact min_le_min_left _ (Nat.add_le_add_left (roundDiv_mono _ h) _)

/-- **Doubles are not rounded.** -/
theorem nearest_unitsOf {k : ℕ} (hk : k < infinite) : nearest (unitsOf k) 1 = k := by
  rcases Nat.eq_zero_or_pos k with rfl | h_pos
  · exact nearest_zero Nat.one_pos
  · -- the units of a magnitude are inside its interval
    refine nearest_of_around h_pos hk Nat.one_pos ⟨.inl ?_, .inl ?_⟩
    · have h_lt : unitsOf (k - 1) < unitsOf k := unitsOf_strictMono (Nat.sub_lt h_pos Nat.one_pos)
      rw [Nat.cast_one, div_one]
      exact_mod_cast (by omega : unitsOf (k - 1) + unitsOf k < 2 * unitsOf k)
    · have h_lt : unitsOf k < unitsOf (k + 1) := unitsOf_strictMono (Nat.lt_succ_self k)
      rw [Nat.cast_one, div_one]
      exact_mod_cast (by omega : 2 * unitsOf k < unitsOf k + unitsOf (k + 1))

/-- The rank of the double nearest to a number of units. -/
def rankOf (units : ℤ) : ℤ := mirrored (nearest · 1) units

theorem nearest_zero_one : nearest 0 1 = 0 := nearest_zero Nat.one_pos

theorem rankOf_le {i j : ℤ} (h : i ≤ j) : rankOf i ≤ rankOf j :=
  mirrored_le nearest_zero_one (nearest_mono 1) h

theorem rankOf_scaled {x : Binary64} (h : x.isFinite) : rankOf x.scaled = x.rank := by
  have h_lt : x.magnitude < infinite := of_decide_eq_true h
  rw [rankOf, scaled, rank, mirrored_ite (rfl : unitsOf 0 = 0), mirrored_ite nearest_zero_one,
    nearest_unitsOf h_lt]

/-- An integer in units, with its sign apart. -/
theorem int_units (i : ℤ) : i * unitsPerOne
    = if decide (i < 0) then -((i.natAbs * unitsPerOne : ℕ) : ℤ)
      else (i.natAbs * unitsPerOne : ℕ) := by
  rw [Nat.cast_mul]
  by_cases h : i < 0
  · rw [decide_eq_true h, if_pos rfl, ← Int.neg_mul, ← Int.eq_neg_natAbs_of_nonpos h.le]
  · rw [decide_eq_false h, if_neg Bool.false_ne_true, Int.natAbs_of_nonneg (Int.not_lt.mp h)]

theorem rank_ofInt (i : ℤ) : (ofInt i).rank = rankOf (i * unitsPerOne) := by
  rw [rankOf, int_units, mirrored_ite nearest_zero_one, rank, ofInt, ofRatio,
    negative_ofParts _ (nearest_lt _ _), magnitude_ofParts _ (nearest_lt _ _)]

/-- **Rounding keeps the order of the integers**, though it may make two of them equal. -/
theorem value_ofInt_mono {i j : ℤ} (h : i ≤ j) : (ofInt i).value ≤ (ofInt j).value := by
  rw [value_le_value_iff, rank_ofInt, rank_ofInt]
  exact rankOf_le (Int.mul_le_mul_of_nonneg_right h (Int.natCast_nonneg _))

section Doubles

variable {i : ℤ} {x : Binary64} (hx : x.isFinite)

include hx

/-- **An integer is not rounded past a double** that is above it. -/
theorem value_ofInt_le (h : (i : ℚ) ≤ x.value) : (ofInt i).value ≤ x.value := by
  rw [value, le_div_iff₀ unit_pos] at h
  rw [value_le_value_iff, rank_ofInt, ← rankOf_scaled hx]
  exact rankOf_le (by exact_mod_cast h)

theorem le_value_ofInt (h : x.value ≤ i) : x.value ≤ (ofInt i).value := by
  rw [value, div_le_iff₀ unit_pos] at h
  rw [value_le_value_iff, rank_ofInt, ← rankOf_scaled hx]
  exact rankOf_le (by exact_mod_cast h)

end Doubles

/-- **Integers of up to fifty-three bits are not rounded.** -/
theorem value_ofInt {i : ℤ} (h : i.natAbs ≤ 2 ^ 53) : (ofInt i).value = i := by
  -- the bound itself has one bit more, but it is a power of two
  have h_units : unitsOf (nearest (i.natAbs * unitsPerOne) 1) = i.natAbs * unitsPerOne := by
    rcases h.lt_or_eq with h_lt | h_eq
    · exact unitsOf_nearest two_pow_dvd_mul_unitsPerOne (mul_unitsPerOne_lt h_lt) (by decide)
    · rw [h_eq, unitsPerOne_eq, ← pow_add]
      exact unitsOf_nearest dvd_rfl (pow_lt_pow_right₀ one_lt_two (by decide)) (by decide)
  have h_scaled : (ofInt i).scaled = i * unitsPerOne := by
    rw [scaled, rank_ofInt, int_units, rankOf, mirrored_ite nearest_zero_one,
      mirrored_ite (rfl : unitsOf 0 = 0), h_units]
  rw [value, h_scaled, Int.cast_mul, Int.cast_natCast, mul_div_cancel_right₀ _ unit_pos.ne']

end Binary64

end Eligibility
