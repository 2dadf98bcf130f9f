import Eligibility.Proofs.Evaluation.Strictness
import Eligibility.Proofs.Number.Nearest

/-!
# Comparing numbers

A condition that compares two numbers is decided, and what it says should be the order of the exact
numbers that the values denote (`Value.Denotes`). Two integers are compared exactly, and so are two
doubles. An integer and a double are compared as doubles, which rounds the integer.

Rounding keeps the order (`Value.Approximates.mono`), so it never makes a comparison say the
opposite of what is true; but it can make an integer equal to a double that it differs from, which is
then the double nearest to it. Such a pair is `Value.Conflated`, and conflation is the only way in
which a comparison is not exact: on any other pair it says what is true (`Comparison.says_exact`),
and on a conflated pair it says "equal" (`Comparison.says_conflated`). Small integers are not
conflated with anything (`Value.Conflated.large`).

One of the three comparisons is true in either case, and `<` is transitive. Equality is not: two
integers that are conflated with the same double are still told apart.
-/

namespace Eligibility

namespace Value

/-- **The exact number** that a value stands for: integers, and doubles that are finite. -/
inductive Denotes : Value → ℚ → Prop
  | int (n : Int64) : Denotes (.int n) n.toInt
  | float {x : Binary64} (h_finite : x.isFinite) : Denotes (.float x) x.value

/-- The double is nearest to the integer, and not equal to it. -/
def RoundedOnto (n : Int64) (x : Binary64) : Prop :=
  x.IsNearest n.toInt ∧ (n.toInt : ℚ) ≠ x.value

/-- **An integer and a double that are taken for equal**, on either side, although they differ. -/
def Conflated : Value → Value → Prop
  | .int n, .float x => RoundedOnto n x
  | .float x, .int n => RoundedOnto n x
  | _, _ => False

/-- Two integers need no doubles to be compared. -/
def AreInts : Value → Value → Prop
  | .int _, .int _ => True
  | _, _ => False

end Value

namespace Comparison

/-- The relation of exact numbers that the comparison stands for. -/
def Holds : Comparison → ℚ → ℚ → Prop
  | greater, p, q => q < p
  | less, p, q => p < q
  | equal, p, q => p = q

instance (c : Comparison) (p q : ℚ) : Decidable (c.Holds p q) :=
  match c with
  | greater => inferInstanceAs (Decidable (q < p))
  | less => inferInstanceAs (Decidable (p < q))
  | equal => inferInstanceAs (Decidable (p = q))

/-- **What a comparison says** of a value and a literal: wherever a record holds the value, the
condition has this verdict, under either policy. -/
def Says (c : Comparison) (v w : Value) (b : Bool) : Prop :=
  ∀ (policy : Policy) (name : String) (record : Record), record.get? name = some v →
    evaluateUnder policy (some (.test ⟨name, c, w⟩)) record = .ok b

variable {c : Comparison} {v w : Value} {b b' : Bool}

theorem says_of_decideStrictly
    (h : ∀ name, Condition.decideStrictly ⟨name, c, w⟩ (some v) = .ok b) : c.Says v w b := by
  intro policy name record h_get
  rw [evaluateUnder_some, Rule.trace, h_get]
  cases policy with
  | lenient => rw [Condition.decideUnder_lenient (h name)]
  | strict => rw [Condition.decideUnder_strict, h name]

/-- A comparison does not say two things. -/
theorem Says.unique (h : c.Says v w b) (h' : c.Says v w b') : b = b' := by
  have h_get : (Directory.insert ∅ "" v : Record).get? "" = some v := by
    rw [Directory.get?_insert, if_pos rfl]
  exact Except.ok.inj ((h .lenient _ _ h_get).symm.trans (h' .lenient _ _ h_get))

/-- Whether numbers are compared exactly or after rounding: it is the same if rounding keeps their
order and does not make them equal. -/
theorem holds_congr {p q a b : ℚ} (c : Comparison) (h_le : p ≤ q → a ≤ b) (h_ge : q ≤ p → b ≤ a)
    (h_eq : a = b → p = q) : c.Holds a b ↔ c.Holds p q := by
  have h_lt : a < b ↔ p < q :=
    ⟨fun h => lt_of_not_ge fun h' => (h_ge h').not_gt h,
      fun h => lt_of_le_of_ne (h_le h.le) fun h' => h.ne (h_eq h')⟩
  have h_gt : b < a ↔ q < p :=
    ⟨fun h => lt_of_not_ge fun h' => (h_le h').not_gt h,
      fun h => lt_of_le_of_ne (h_ge h.le) fun h' => h.ne (h_eq h'.symm).symm⟩
  cases c with
  | greater => exact h_gt
  | less => exact h_lt
  | equal => exact ⟨h_eq, fun h => le_antisymm (h_le h.le) (h_ge h.ge)⟩

end Comparison

namespace Value

variable {v w : Value} {p q : ℚ}

/-! ### Values as doubles -/

/-- Rounding takes an integer to the double nearest to it. -/
theorem roundedOnto_iff {n : Int64} {x : Binary64} (h_finite : x.isFinite) :
    RoundedOnto n x ↔ (Binary64.ofInt n.toInt).value = x.value ∧ (n.toInt : ℚ) ≠ x.value :=
  and_congr_left' (Binary64.isNearest_iff (Binary64.natAbs_toInt_lt n) h_finite)

/-- A value with the exact number that it denotes and the double that it is compared by. -/
inductive Approximates : Value → ℚ → Binary64 → Prop
  | int (n : Int64) : Approximates (.int n) n.toInt (Binary64.ofInt n.toInt)
  | float {x : Binary64} (h_finite : x.isFinite) : Approximates (.float x) x.value x

theorem Denotes.exists_double (h : v.Denotes p) : ∃ x, v.Approximates p x := by
  cases h with
  | int n => exact ⟨_, .int n⟩
  | float h_finite => exact ⟨_, .float h_finite⟩

section Approximates

variable {x y : Binary64} (hv : v.Approximates p x) (hw : w.Approximates q y)

include hv

theorem Approximates.number?_eq : v.number? = some x := by
  cases hv with
  | int n => rfl
  | float h_finite => rfl

theorem Approximates.isFinite : x.isFinite := by
  cases hv with
  | int n => exact Binary64.isFinite_ofInt n
  | float h_finite => exact h_finite

/-- A number is a bound to order by. -/
theorem Approximates.orderingBound_eq : v.orderingBound = some x := by
  have h_bound : (some x).filter Binary64.isFinite = some x := if_pos hv.isFinite
  cases hv with
  | int n => exact h_bound
  | float h_finite => exact h_bound

include hw

/-- **Rounding keeps the order of numbers.** -/
theorem Approximates.mono (h : p ≤ q) : x.value ≤ y.value := by
  -- rounding an integer does not carry it past a double
  cases hv with
  | int m =>
    cases hw with
    | int n => exact Binary64.value_ofInt_mono (by exact_mod_cast h)
    | float h_finite => exact Binary64.value_ofInt_le h_finite h
  | float h_finite =>
    cases hw with
    | int n => exact Binary64.le_value_ofInt h_finite h
    | float h_finite' => exact h

/-- Numbers are conflated if they differ and their doubles do not. -/
theorem Approximates.conflated_iff :
    v.Conflated w ↔ ¬v.AreInts w ∧ x.value = y.value ∧ p ≠ q := by
  cases hv with
  | int m =>
    cases hw with
    | int n => simp [Conflated, AreInts]
    | float h_finite => simp [Conflated, AreInts, roundedOnto_iff h_finite]
  | float h_finite =>
    cases hw with
    | int n => simp [Conflated, AreInts, roundedOnto_iff h_finite, eq_comm]
    | float h_finite' => simp [Conflated, AreInts]

variable (h_ints : ¬v.AreInts w)

include h_ints

/-- The order of numbers that are not both integers is that of their doubles. -/
theorem Approximates.ordered_eq (greater : Bool) :
    Condition.ordered greater v w x y
      = if greater then decide (y.value < x.value) else decide (x.value < y.value) := by
  rw [← Binary64.less_eq hw.isFinite hv.isFinite, ← Binary64.less_eq hv.isFinite hw.isFinite]
  cases hv <;> cases hw
  · exact absurd trivial h_ints
  all_goals rfl

theorem Approximates.equals_eq : v.equals w = decide (x.value = y.value) := by
  rw [← Binary64.equals_eq hv.isFinite hw.isFinite]
  cases hv <;> cases hw
  · exact absurd trivial h_ints
  all_goals rfl

end Approximates

/-! ### Conflated numbers -/

theorem Conflated.symm (h : v.Conflated w) : w.Conflated v := by
  cases v <;> cases w <;> exact h

theorem Conflated.ne (h : v.Conflated w) (hv : v.Denotes p) (hw : w.Denotes q) : p ≠ q := by
  obtain ⟨x, hx⟩ := hv.exists_double
  obtain ⟨y, hy⟩ := hw.exists_double
  exact ((hx.conflated_iff hy).mp h).2.2

theorem AreInts.trans {u : Value} (h : u.AreInts v) (h' : v.AreInts w) : u.AreInts w := by
  cases u <;> cases v <;> cases w <;> trivial

/-- The integer of a conflated pair is too large for the significand of a double. -/
theorem Conflated.large (h : v.Conflated w) (hv : v.Denotes p) (hw : w.Denotes q) :
    2 ^ 53 < |p| ∨ 2 ^ 53 < |q| := by
  -- a smaller integer is a double itself, and rounding leaves it alone
  have h_large {n : Int64} {x : Binary64} (h : RoundedOnto n x) : 2 ^ 53 < |(n.toInt : ℚ)| := by
    by_contra h_le
    have h_small : n.toInt.natAbs ≤ 2 ^ 53 := by
      rw [not_lt, ← Int.cast_abs, Int.abs_eq_natAbs] at h_le
      exact_mod_cast h_le
    have h_value := ((roundedOnto_iff h.1.isFinite).mp h).1
    exact h.2 ((Binary64.value_ofInt h_small).symm.trans h_value)
  cases hv with
  | int m =>
    cases hw with
    | int n => exact h.elim
    | float h_finite => exact .inl (h_large h)
  | float h_finite =>
    cases hw with
    | int n => exact .inr (h_large h)
    | float h_finite' => exact h.elim

end Value

namespace Comparison

variable {c : Comparison} {u v w : Value} {p q r : ℚ} {x y : Binary64}

/-! ### What a comparison says -/

/-- Numbers are compared by the order or by the equality of values. -/
theorem decideStrictly_number (name : String) (c : Comparison) (hv : v.Approximates p x)
    (hw : w.Approximates q y) :
    Condition.decideStrictly ⟨name, c, w⟩ (some v) = .ok (match c with
      | greater => Condition.ordered true v w x y
      | less => Condition.ordered false v w x y
      | equal => v.equals w) := by
  -- both sides are numbers, so neither of the two faults of an ordering comes up
  have h_number := hv.number?_eq
  have h_bound := hw.orderingBound_eq
  cases c with
  | greater => simp [Condition.decideStrictly, isOrdering, h_number, h_bound]
  | less =>
    simp only [Condition.decideStrictly, isOrdering, h_number, h_bound]
    rfl
  | equal => rfl

theorem decideStrictly_ints (name : String) (c : Comparison) (m n : Int64) :
    Condition.decideStrictly ⟨name, c, .int n⟩ (some (.int m))
      = .ok (decide (c.Holds m.toInt n.toInt)) := by
  rw [decideStrictly_number name c (.int m) (.int n)]
  cases c with
  | greater => simp [Condition.ordered, Holds, Int64.lt_iff_toInt_lt]
  | less => simp [Condition.ordered, Holds, Int64.lt_iff_toInt_lt]
  | equal => simp [Value.equals, Holds, Int64.toInt_inj, Bool.beq_eq_decide_eq]

/-- **Integers are compared exactly.** -/
theorem says_ints (c : Comparison) (m n : Int64) :
    c.Says (.int m) (.int n) (decide (c.Holds m.toInt n.toInt)) :=
  says_of_decideStrictly fun name => decideStrictly_ints name c m n

/-- **Other numbers are compared as doubles.** -/
theorem says_doubles (c : Comparison) (hv : v.Approximates p x) (hw : w.Approximates q y)
    (h_ints : ¬v.AreInts w) : c.Says v w (decide (c.Holds x.value y.value)) := by
  refine says_of_decideStrictly fun name => ?_
  rw [decideStrictly_number name c hv hw, hv.ordered_eq hw h_ints, hv.ordered_eq hw h_ints,
    hv.equals_eq hw h_ints]
  cases c with
  | greater => rfl
  | less => rfl
  | equal => rfl

/-- **A comparison of numbers that are not conflated is exact.** -/
theorem says_exact (hv : v.Denotes p) (hw : w.Denotes q) (h : ¬v.Conflated w) (c : Comparison) :
    c.Says v w (decide (c.Holds p q)) := by
  by_cases h_ints : v.AreInts w
  · cases hv with
    | int m =>
      cases hw with
      | int n => exact says_ints c m n
      | float h_finite => exact h_ints.elim
    | float h_finite => exact h_ints.elim
  · obtain ⟨x, hx⟩ := hv.exists_double
    obtain ⟨y, hy⟩ := hw.exists_double
    -- the doubles may agree for different numbers only where the two are conflated
    have h_eq : x.value = y.value → p = q := fun h_value =>
      by_contra fun h_ne => h ((hx.conflated_iff hy).mpr ⟨h_ints, h_value, h_ne⟩)
    have h_holds := holds_congr c (hx.mono hy) (hy.mono hx) h_eq
    rw [← decide_eq_decide.mpr h_holds]
    exact says_doubles c hx hy h_ints

/-- **Conflated numbers compare as equal**, and as nothing else. -/
theorem says_conflated (hv : v.Denotes p) (hw : w.Denotes q) (h : v.Conflated w) (c : Comparison) :
    c.Says v w (decide (c = .equal)) := by
  obtain ⟨x, hx⟩ := hv.exists_double
  obtain ⟨y, hy⟩ := hw.exists_double
  obtain ⟨h_ints, h_value, -⟩ := (hx.conflated_iff hy).mp h
  -- the two doubles are the same, so they are equal and nothing else
  have h_holds : c.Holds x.value y.value ↔ c = .equal := by
    cases c <;> simp [Holds, h_value]
  rw [← decide_eq_decide.mpr h_holds]
  exact says_doubles c hx hy h_ints

/-- A number and another are in one of the three relations. -/
theorem exists_holds (p q : ℚ) : ∃ c : Comparison, ∀ c' : Comparison, c'.Holds p q ↔ c' = c := by
  rcases lt_trichotomy p q with h | h | h
  · exact ⟨less, fun c' => by cases c' <;> simp [Holds, h, h.le, h.ne]⟩
  · exact ⟨equal, fun c' => by cases c' <;> simp [Holds, h]⟩
  · exact ⟨greater, fun c' => by cases c' <;> simp [Holds, h, h.le, h.ne']⟩

/-- **One comparison is true**, and the other two are false. -/
theorem exists_says (hv : v.Denotes p) (hw : w.Denotes q) :
    ∃ c, ∀ c' : Comparison, c'.Says v w (decide (c' = c)) := by
  by_cases h : v.Conflated w
  · exact ⟨equal, says_conflated hv hw h⟩
  · obtain ⟨c, hc⟩ := exists_holds p q
    refine ⟨c, fun c' => ?_⟩
    rw [← decide_eq_decide.mpr (hc c')]
    exact says_exact hv hw h c'

/-! ### The order -/

/-- The order tells conflated numbers neither way. -/
theorem not_conflated_of_less (hv : v.Denotes p) (hw : w.Denotes q) (h : less.Says v w true) :
    ¬v.Conflated w := by
  intro h_conflated
  exact absurd (h.unique (says_conflated hv hw h_conflated less)) (by decide)

theorem lt_of_less (hv : v.Denotes p) (hw : w.Denotes q) (h : less.Says v w true) : p < q :=
  of_decide_eq_true (h.unique (says_exact hv hw (not_conflated_of_less hv hw h) less)).symm

/-- **The order is transitive**, across integers and doubles. -/
theorem less_trans (hu : u.Denotes p) (hv : v.Denotes q) (hw : w.Denotes r)
    (h : less.Says u v true) (h' : less.Says v w true) : less.Says u w true := by
  have h_pq := lt_of_less hu hv h
  have h_qr := lt_of_less hv hw h'
  have h_conflated : ¬u.Conflated w := by
    intro h_conflated
    obtain ⟨x, hx⟩ := hu.exists_double
    obtain ⟨y, hy⟩ := hv.exists_double
    obtain ⟨z, hz⟩ := hw.exists_double
    obtain ⟨h_ints, h_xz, -⟩ := (hx.conflated_iff hz).mp h_conflated
    -- the number between the two has the same double as they
    have h_xy : x.value ≤ y.value := hx.mono hy h_pq.le
    have h_yz : y.value ≤ z.value := hy.mono hz h_qr.le
    -- and as one of the two steps is not between integers, it is conflated as well
    by_cases h_first : u.AreInts v
    · have h_second : ¬v.AreInts w := fun h => h_ints (h_first.trans h)
      refine not_conflated_of_less hv hw h' ((hy.conflated_iff hz).mpr ⟨h_second, ?_, h_qr.ne⟩)
      exact le_antisymm h_yz (h_xz ▸ h_xy)
    · refine not_conflated_of_less hu hv h ((hx.conflated_iff hy).mpr ⟨h_first, ?_, h_pq.ne⟩)
      exact le_antisymm h_xy (h_xz ▸ h_yz)
  have h_holds : less.Holds p r := h_pq.trans h_qr
  have h_says := says_exact hu hw h_conflated less
  rwa [decide_eq_true h_holds] at h_says

/-- The two orders are the converse of each other. -/
theorem greater_iff (hv : v.Denotes p) (hw : w.Denotes q) (b : Bool) :
    greater.Says v w b ↔ less.Says w v b := by
  -- the two comparisons give one answer, conflated or not, and no other
  have h_same : ∃ b, greater.Says v w b ∧ less.Says w v b := by
    by_cases h : v.Conflated w
    · exact ⟨false, says_conflated hv hw h greater, says_conflated hw hv h.symm less⟩
    · exact ⟨decide (q < p), says_exact hv hw h greater,
        says_exact hw hv (fun h' => h h'.symm) less⟩
  obtain ⟨b', h_greater, h_less⟩ := h_same
  constructor
  · intro h
    rwa [h.unique h_greater]
  · intro h
    rwa [h.unique h_less]

/-! ### Equality -/

theorem says_equals (v w : Value) : equal.Says v w (v.equals w) :=
  says_of_decideStrictly fun _ => rfl

/-- **Numbers compare as equal if they are, or if they are conflated.** -/
theorem equals_iff (hv : v.Denotes p) (hw : w.Denotes q) :
    v.equals w = true ↔ p = q ∨ v.Conflated w := by
  by_cases h : v.Conflated w
  · exact iff_of_true ((says_equals v w).unique (says_conflated hv hw h equal)) (.inr h)
  · rw [(says_equals v w).unique (says_exact hv hw h equal), decide_eq_true_iff, or_iff_left h]
    exact Iff.rfl

end Comparison

/-- **Comparing numbers.** A comparison of two numbers, each an integer or a finite double, says
whether their exact values are so related. The only exception is an integer beyond `2 ^ 53` with the
double nearest to it, where the two differ: they are said to be equal. In any case one of the three
comparisons is true and the other two are false, the order is transitive, and equality is reflexive
and symmetric; where nothing is rounded onto another number, it is transitive, too. -/
theorem Comparison.says_of_denotes {u v w : Value} {p q r : ℚ} (hu : u.Denotes p)
    (hv : v.Denotes q) (hw : w.Denotes r) :
    (¬u.Conflated v → ∀ c : Comparison, c.Says u v (decide (c.Holds p q))) ∧
    (u.Conflated v → p ≠ q ∧ (2 ^ 53 < |p| ∨ 2 ^ 53 < |q|) ∧
      ∀ c : Comparison, c.Says u v (decide (c = equal))) ∧
    (∃ c, ∀ c' : Comparison, c'.Says u v (decide (c' = c))) ∧
    (∀ b, greater.Says u v b ↔ less.Says v u b) ∧
    (less.Says u v true → less.Says v w true → less.Says u w true) ∧
    u.equals u = true ∧ u.equals v = v.equals u ∧
    (¬u.Conflated v → ¬v.Conflated w →
      u.equals v = true → v.equals w = true → u.equals w = true) := by
  have h_symm : u.equals v = v.equals u := by
    rw [Bool.eq_iff_iff, equals_iff hu hv, equals_iff hv hu]
    exact or_congr eq_comm ⟨.symm, .symm⟩
  refine ⟨says_exact hu hv, fun h => ⟨h.ne hu hv, h.large hu hv, says_conflated hu hv h⟩,
    exists_says hu hv, greater_iff hu hv, less_trans hu hv hw, (equals_iff hu hu).mpr (.inl rfl),
    h_symm, fun h_uv h_vw h h' => ?_⟩
  rw [equals_iff hu hv, or_iff_left h_uv] at h
  rw [equals_iff hv hw, or_iff_left h_vw] at h'
  exact (equals_iff hu hw).mpr (.inl (h.trans h'))

/-! ### The first integer that is rounded -/

/-- The double `2 ^ 53`. -/
def Binary64.twoPow53 : Binary64 := ⟨0x4340000000000000⟩

theorem Binary64.value_twoPow53 : twoPow53.value = 9007199254740992 := by
  have h_bits : twoPow53 = Binary64.ofInt 9007199254740992 := by decide +kernel
  rw [h_bits, Binary64.value_ofInt (by decide)]
  rfl

theorem Value.denotes_twoPow53 : (Value.float .twoPow53).Denotes 9007199254740992 := by
  have h_denotes := Value.Denotes.float (x := .twoPow53) (by decide)
  rwa [Binary64.value_twoPow53] at h_denotes

/-- The integer above `2 ^ 53` is rounded down to it. -/
theorem Value.conflated_twoPow53 : (Value.float .twoPow53).Conflated (.int 9007199254740993) := by
  have h_rank : (Binary64.ofInt (Int64.toInt 9007199254740993)).rank = Binary64.twoPow53.rank := by
    decide +kernel
  refine (Value.roundedOnto_iff (by decide)).mpr ⟨Binary64.value_eq_value_iff.mpr h_rank, ?_⟩
  rw [Binary64.value_twoPow53]
  decide

/-- The integer `2 ^ 53` is compared exactly with the double; the next one is said to be equal to
the double, although the two integers are ordered. -/
theorem Comparison.says_of_denotes_twoPow53 :
    let u : Value := .int 9007199254740992
    let v : Value := .float .twoPow53
    let w : Value := .int 9007199254740993
    u.Denotes 9007199254740992 ∧ v.Denotes 9007199254740992 ∧ w.Denotes 9007199254740993 ∧
      ¬u.Conflated v ∧ equal.Says u v true ∧ v.Conflated w ∧ equal.Says v w true ∧
      less.Says v w false ∧ less.Says u w true := by
  intro u v w
  have hu : u.Denotes 9007199254740992 := .int 9007199254740992
  have hw : w.Denotes 9007199254740993 := .int 9007199254740993
  -- the lower integer is the double itself
  have h_uv : ¬u.Conflated v := fun h => h.2 (by rw [Binary64.value_twoPow53]; rfl)
  obtain ⟨h_exact, -⟩ := says_of_denotes hu Value.denotes_twoPow53 hw
  obtain ⟨-, h_conflated, -⟩ := says_of_denotes Value.denotes_twoPow53 hw hu
  -- two integers are compared as such, so they differ by one
  obtain ⟨h_ints, -⟩ := says_of_denotes hu hw Value.denotes_twoPow53
  obtain ⟨-, -, h_equal⟩ := h_conflated Value.conflated_twoPow53
  exact ⟨hu, Value.denotes_twoPow53, hw, h_uv, h_exact h_uv equal, Value.conflated_twoPow53,
    h_equal equal, h_equal less, h_ints id less⟩

/-- **Not every comparison of numbers is exact.** An integer can be said to be equal to a double
that is less, and two integers that are told apart can both be equal to one double. -/
theorem Comparison.not_exact :
    (Value.int 9007199254740993).Denotes 9007199254740993 ∧
      (Value.float .twoPow53).Denotes 9007199254740992 ∧
      equal.Says (.int 9007199254740993) (.float .twoPow53) true ∧
      greater.Says (.int 9007199254740993) (.float .twoPow53) false ∧
      (Value.int 9007199254740992).equals (.float .twoPow53) = true ∧
      (Value.float .twoPow53).equals (.int 9007199254740993) = true ∧
      (Value.int 9007199254740992).equals (.int 9007199254740993) = false := by
  have h_int : (Value.int 9007199254740993).Denotes 9007199254740993 := .int 9007199254740993
  have h_says := says_conflated h_int Value.denotes_twoPow53 Value.conflated_twoPow53.symm
  have h_below : (Value.int 9007199254740992).Denotes 9007199254740992 := .int 9007199254740992
  exact ⟨h_int, Value.denotes_twoPow53, h_says equal, h_says greater,
    (equals_iff h_below Value.denotes_twoPow53).mpr (.inl rfl),
    (equals_iff Value.denotes_twoPow53 h_int).mpr (.inr Value.conflated_twoPow53), by decide⟩

end Eligibility
