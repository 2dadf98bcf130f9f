import Eligibility.Proofs.Number.Order
import Mathlib.Algebra.Order.Ring.Abs

/-!
# The nearest double

What the double of an integer should be can be said without bits and shifts: no finite double is
nearer to the integer, and if there is one that is equally near, it is the even one of the two
(`Binary64.IsNearest`). The double of an integer is nearest to it (`Binary64.isNearest_ofInt`), and
no other number is (`Binary64.IsNearest.value_eq`), so rounding is determined by this property
(`Binary64.isNearest_iff`).

That the intervals of the magnitudes (`Binary64.Around`) cover all positive numbers is what is needed
for the first part. For the second, two even magnitudes are never neighbours, so there is a double
between them, and it is nearer to their midpoint.
-/

namespace Eligibility.Binary64

/-- **No finite double is nearer to the number**, and if another one is equally near, this is the
even one. -/
structure IsNearest (x : Binary64) (p : ℚ) : Prop where
  isFinite : x.isFinite
  near : ∀ y : Binary64, y.isFinite → |p - x.value| ≤ |p - y.value|
  even : ∀ y : Binary64, y.isFinite → |p - x.value| = |p - y.value| → x.value ≠ y.value →
    x.magnitude % 2 = 0

/-! ### The intervals cover the line -/

/-- Every number of units lies between two neighbours. -/
theorem exists_unitsOf_le (n : ℕ) : ∃ k, unitsOf k ≤ n ∧ n < unitsOf (k + 1) := by
  have h_exists : ∃ k, n < unitsOf (k + 1) :=
    ⟨n, Nat.lt_of_succ_le (unitsOf_strictMono.le_apply)⟩
  refine ⟨Nat.find h_exists, ?_, Nat.find_spec h_exists⟩
  cases h_find : Nat.find h_exists with
  | zero => exact Nat.zero_le n
  | succ k => exact Nat.le_of_not_lt (Nat.find_min h_exists (h_find ▸ Nat.lt_succ_self k))

theorem around_of_units {k n : ℕ}
    (h_low : unitsOf (k - 1) + unitsOf k < 2 * n ∨
      unitsOf (k - 1) + unitsOf k = 2 * n ∧ k % 2 = 0)
    (h_high : 2 * n < unitsOf k + unitsOf (k + 1) ∨
      2 * n = unitsOf k + unitsOf (k + 1) ∧ k % 2 = 0) : Around k ((n : ℚ) / (1 : ℕ)) := by
  rw [Nat.cast_one, div_one]
  exact ⟨by exact_mod_cast h_low, by exact_mod_cast h_high⟩

/-- **Every number of units rounds to a magnitude**: to that of a neighbour, and from the midpoint
to the even one. -/
theorem exists_around {n : ℕ} (h_pos : 0 < n) (h : n < 2 ^ 52 * 2 ^ 2045) :
    ∃ k, 0 < k ∧ k < infinite ∧ Around k ((n : ℚ) / (1 : ℕ)) := by
  -- the number is between two neighbours, and it belongs to the nearer one, or the even one
  obtain ⟨k, h_le, h_lt⟩ := exists_unitsOf_le n
  have hk : k < (2045 + 1) * 2 ^ 52 := by
    by_contra h_large
    exact absurd (h_le.trans_lt h) (le_unitsOf (Nat.le_of_not_lt h_large)).not_gt
  have h_infinite : k + 1 < infinite := by
    unfold infinite
    omega
  have h_pos' : 0 < k := by
    by_contra h_zero
    obtain rfl : k = 0 := by omega
    exact absurd h_lt (Nat.not_lt_of_le h_pos)
  have h_prev : unitsOf (k - 1) < unitsOf k := unitsOf_strictMono (Nat.sub_lt h_pos' Nat.one_pos)
  have h_next : unitsOf (k + 1) < unitsOf (k + 1 + 1) := unitsOf_strictMono (Nat.lt_succ_self _)
  by_cases h_down : 2 * n < unitsOf k + unitsOf (k + 1) ∨
      2 * n = unitsOf k + unitsOf (k + 1) ∧ k % 2 = 0
  · exact ⟨k, h_pos', by omega, around_of_units (.inl (by omega)) h_down⟩
  · refine ⟨k + 1, k.succ_pos, h_infinite, around_of_units ?_ (.inl (by omega))⟩
    rw [Nat.add_sub_cancel]
    omega

/-- From inside the interval of a magnitude all other doubles are further away, or from its end as
far. -/
theorem natAbs_sub_le_of_around {k n : ℕ} (hk : 0 < k) (h : Around k ((n : ℚ) / (1 : ℕ))) {j : ℤ}
    (hj : j ≠ k) :
    ((n : ℤ) - unitsOf k).natAbs ≤ (n - mirrored unitsOf j).natAbs ∧
      (((n : ℤ) - unitsOf k).natAbs = (n - mirrored unitsOf j).natAbs → k % 2 = 0) := by
  obtain ⟨h_low, h_high⟩ := h.clear Nat.one_pos
  rw [Nat.mul_one] at h_low h_high
  -- any other rank is beyond one of the two neighbours, which are no nearer themselves
  rcases lt_or_gt_of_ne hj with h_lt | h_gt
  · have h_prev : mirrored unitsOf j ≤ unitsOf (k - 1) := by
      rw [← mirrored_natCast (rfl : unitsOf 0 = 0)]
      exact mirrored_le rfl unitsOf_strictMono.monotone (by omega)
    have h_mono : unitsOf (k - 1) < unitsOf k := unitsOf_strictMono (Nat.sub_lt hk Nat.one_pos)
    omega
  · have h_next : unitsOf (k + 1) ≤ mirrored unitsOf j := by
      rw [← mirrored_natCast (rfl : unitsOf 0 = 0)]
      exact mirrored_le rfl unitsOf_strictMono.monotone (by omega)
    have h_mono : unitsOf k < unitsOf (k + 1) := unitsOf_strictMono (Nat.lt_succ_self k)
    omega

/-! ### Integers -/

/-- The distance of an integer and a double. -/
theorem abs_sub_value (i : ℤ) (x : Binary64) :
    |(i : ℚ) - x.value| = ((i * unitsPerOne - x.scaled).natAbs : ℚ) / unitsPerOne := by
  have h_units : (i : ℚ) - x.value = ((i * unitsPerOne - x.scaled : ℤ) : ℚ) / unitsPerOne := by
    rw [value, Int.cast_sub, Int.cast_mul, Int.cast_natCast, sub_div,
      mul_div_cancel_right₀ _ unit_pos.ne']
  rw [h_units, abs_div, abs_of_pos unit_pos, ← Int.cast_abs, Int.abs_eq_natAbs, Int.cast_natCast]

theorem abs_sub_value_le_iff {i : ℤ} {x y : Binary64} :
    |(i : ℚ) - x.value| ≤ |(i : ℚ) - y.value| ↔
      (i * unitsPerOne - x.scaled).natAbs ≤ (i * unitsPerOne - y.scaled).natAbs := by
  rw [abs_sub_value, abs_sub_value, div_le_div_iff_of_pos_right unit_pos, Nat.cast_le]

/-- The same distance on the other side of zero, if the integer is negative. -/
theorem natAbs_units_sub (i j : ℤ) :
    (i * unitsPerOne - mirrored unitsOf j).natAbs
      = (((i.natAbs * unitsPerOne : ℕ) : ℤ)
          - mirrored unitsOf (if i < 0 then -j else j)).natAbs := by
  rw [int_units]
  by_cases h : i < 0
  · rw [if_pos h, decide_eq_true h, if_pos rfl, mirrored_neg]
    omega
  · rw [if_neg h, decide_eq_false h, if_neg Bool.false_ne_true]

theorem magnitude_ofInt (i : ℤ) : (ofInt i).magnitude = nearest (i.natAbs * unitsPerOne) 1 := by
  rw [ofInt, ofRatio, magnitude_ofParts _ (nearest_lt _ _)]

/-- The rank of the double, seen from the side of the integer. -/
theorem rank_ofInt_side (i : ℤ) :
    (if i < 0 then -(ofInt i).rank else (ofInt i).rank) = (ofInt i).magnitude := by
  have h_negative : (ofInt i).negative = decide (i < 0) := by
    rw [ofInt, ofRatio, negative_ofParts _ (nearest_lt _ _)]
  rw [rank, h_negative]
  by_cases h : i < 0 <;> simp [h]

/-- **The double of an integer is nearest to it.** -/
theorem isNearest_ofInt {i : ℤ} (h : i.natAbs < 2 ^ 64) : (ofInt i).IsNearest i := by
  rcases eq_or_ne i 0 with rfl | h_ne
  · have h_value : (ofInt 0).value = ((0 : ℤ) : ℚ) := value_ofInt (by decide)
    refine ⟨isFinite_ofInt_of_lt h, fun y _ => ?_, fun y _ _ _ => ?_⟩
    · rw [h_value, sub_self, abs_zero]
      exact abs_nonneg _
    · rw [magnitude_ofInt, Int.natAbs_zero, Nat.zero_mul, nearest_zero_one]
  have h_pos : 0 < i.natAbs * unitsPerOne :=
    Nat.mul_pos (Int.natAbs_pos.mpr h_ne) unitsPerOne_pos
  have h_lt : i.natAbs * unitsPerOne < 2 ^ 52 * 2 ^ 2045 := by
    rw [← pow_add]
    exact (mul_unitsPerOne_lt h).trans_le (pow_le_pow_right₀ one_le_two (by decide))
  obtain ⟨k, hk, hk', h_around⟩ := exists_around h_pos h_lt
  have h_magnitude : (ofInt i).magnitude = k := by
    rw [magnitude_ofInt, nearest_of_around hk hk' Nat.one_pos h_around]
  -- any other double has another rank, so the interval tells which of the two is nearer
  have h_near (y : Binary64) (h_rank : (ofInt i).rank ≠ y.rank) :
      (i * unitsPerOne - (ofInt i).scaled).natAbs ≤ (i * unitsPerOne - y.scaled).natAbs ∧
      ((i * unitsPerOne - (ofInt i).scaled).natAbs = (i * unitsPerOne - y.scaled).natAbs →
        k % 2 = 0) := by
    have h_other : (if i < 0 then -y.rank else y.rank) ≠ k := by
      rw [← h_magnitude, ← rank_ofInt_side]
      split
      · exact fun h_eq => h_rank (Int.neg_inj.mp h_eq).symm
      · exact h_rank.symm
    rw [scaled, scaled, natAbs_units_sub, natAbs_units_sub, rank_ofInt_side, h_magnitude,
      mirrored_natCast rfl]
    exact natAbs_sub_le_of_around hk h_around h_other
  refine ⟨isFinite_ofInt_of_lt h, fun y _ => ?_, fun y _ h_dist h_value => ?_⟩
  · rw [abs_sub_value_le_iff]
    by_cases h_rank : (ofInt i).rank = y.rank
    · rw [scaled, scaled, h_rank]
    · exact (h_near y h_rank).1
  · rw [h_magnitude]
    rw [Ne, value_eq_value_iff] at h_value
    refine (h_near y h_value).2 (le_antisymm ?_ ?_)
    · exact abs_sub_value_le_iff.mp h_dist.le
    · exact abs_sub_value_le_iff.mp h_dist.ge

/-! ### Uniqueness -/

theorem natAbs_rank (x : Binary64) : x.rank.natAbs = x.magnitude := by
  unfold rank
  split
  · rw [Int.natAbs_neg, Int.natAbs_natCast]
  · rw [Int.natAbs_natCast]

/-- There is a double of every rank in the finite range. -/
theorem exists_rank {j : ℤ} (h : j.natAbs < infinite) :
    ∃ x : Binary64, x.isFinite ∧ x.rank = j := by
  have h_lt : j.natAbs < 2 ^ 63 := h.trans (by decide)
  -- the sign and the absolute value of the rank are the parts of the double
  refine ⟨ofParts (decide (j < 0)) j.natAbs, ?_, ?_⟩
  · rw [isFinite, magnitude_ofParts _ h_lt]
    exact decide_eq_true h
  · rw [rank, negative_ofParts _ h_lt, magnitude_ofParts _ h_lt]
    split
    · next h_neg =>
      rw [decide_eq_true_eq] at h_neg
      omega
    · next h_neg =>
      rw [decide_eq_true_eq] at h_neg
      omega

theorem natAbs_rank_lt {x : Binary64} (h : x.isFinite) : x.rank.natAbs < infinite := by
  rw [natAbs_rank]
  exact of_decide_eq_true h

/-- There is no second nearest double above the first. -/
theorem IsNearest.not_value_lt {x y : Binary64} {p : ℚ} (hx : x.IsNearest p) (hy : y.IsNearest p) :
    ¬x.value < y.value := by
  intro h_lt
  have h_dist : |p - x.value| = |p - y.value| :=
    le_antisymm (hx.near y hy.isFinite) (hy.near x hx.isFinite)
  -- both are even, so they are not neighbours
  have h_even := hx.even y hy.isFinite h_dist h_lt.ne
  have h_even' := hy.even x hx.isFinite h_dist.symm h_lt.ne'
  rw [← natAbs_rank] at h_even h_even'
  have h_rank := value_lt_value_iff.mp h_lt
  have h_x := natAbs_rank_lt hx.isFinite
  have h_y := natAbs_rank_lt hy.isFinite
  obtain ⟨z, hz, h_between⟩ := exists_rank (j := x.rank + 1) (by omega)
  have h_xz : x.value < z.value := value_lt_value_iff.mpr (by omega)
  have h_zy : z.value < y.value := value_lt_value_iff.mpr (by omega)
  -- the number is in the middle of the two, and what is between them is nearer to it
  have h_middle : p - x.value = y.value - p := by
    rcases abs_eq_abs.mp h_dist with h | h
    · exact absurd (sub_right_injective h) h_lt.ne
    · rw [h, neg_sub]
  have h_near := hx.near z hz
  rw [abs_of_pos (a := p - x.value) (by linarith)] at h_near
  exact absurd (abs_lt.mpr ⟨by linarith, by linarith⟩) h_near.not_gt

/-- **Only one number is the nearest double.** -/
theorem IsNearest.value_eq {x y : Binary64} {p : ℚ} (hx : x.IsNearest p) (hy : y.IsNearest p) :
    x.value = y.value :=
  le_antisymm (not_lt.mp (hy.not_value_lt hx)) (not_lt.mp (hx.not_value_lt hy))

theorem IsNearest.congr {x y : Binary64} {p : ℚ} (hx : x.IsNearest p) (hy : y.isFinite)
    (h : x.value = y.value) : y.IsNearest p := by
  have h_magnitude : x.magnitude = y.magnitude := by
    rw [← natAbs_rank, ← natAbs_rank, value_eq_value_iff.mp h]
  refine ⟨hy, ?_, ?_⟩
  · rw [← h]
    exact hx.near
  · rw [← h, ← h_magnitude]
    exact hx.even

/-- **Rounding an integer is finding the nearest double.** -/
theorem isNearest_iff {i : ℤ} (h : i.natAbs < 2 ^ 64) {x : Binary64} (hx : x.isFinite) :
    x.IsNearest i ↔ (ofInt i).value = x.value :=
  ⟨fun h_near => (isNearest_ofInt h).value_eq h_near, (isNearest_ofInt h).congr hx⟩

end Eligibility.Binary64
