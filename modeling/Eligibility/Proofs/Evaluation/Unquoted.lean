import Eligibility.Proofs.Blob.Normal
import Eligibility.Proofs.Evaluation.Extension
import Eligibility.Proofs.Evaluation.Numeric
import Eligibility.Proofs.Grammar.Canonical
import Eligibility.Proofs.Number.Literal

/-!
# What canonical text means

A stored rule may have the text of a number to the right of an ordering comparison, and its
canonical text is read as a rule that has the number there (`Rule.unquoted`). The two rules are not
the same, but they should decide alike.

A condition orders by the double of the text, and the number is compared by the same double
(`Value.exists_readNumber`), with one exception: an integer in the record is compared with an
integer in the rule exactly. So the two come apart where the text is that of an integer, the record
has an integer as well, and rounding makes the two equal although they are not. Such a condition is
blurred (`Condition.BlurredBy`): with the text it is false, and with the number it is true
(`Condition.decideStrictly_of_blurredBy`). All others decide alike, and fail alike
(`Condition.decideStrictly_unquoted_iff`), and so does the rule that they are in, as no more than
the outcomes of its conditions counts for its own (`Rule.outcome_unquoted`).
-/

namespace Eligibility

/-- A name that some rule text has. -/
def IsBareName (name : String) : Prop :=
  ∃ (limits : Limits) (text : String) (r : Rule),
    Rule.parse limits text = .ok r ∧ ∃ c ∈ r.conditions, c.name = name

/-- **The comparison is true, and rounding hides it.** To its right is the text of an integer, the
record has an integer that is so related to it, and one double is nearest to both. -/
def Condition.BlurredBy (c : Condition) (record : Record) : Prop :=
  ∃ (s : String) (k n : Int64), c.comparison.isOrdering ∧ c.value = .text s ∧
    readNumber (trimBlanks s.toList) = .number (.int n) ∧ record.get? c.name = some (.int k) ∧
    c.comparison.Holds k.toInt n.toInt ∧
    ∃ x : Binary64, x.IsNearest k.toInt ∧ x.IsNearest n.toInt

/-! ### Names and literals -/

/-- Of the names that rule text has, it is known what they are made of. -/
theorem isBareName_iff {name : String} :
    IsBareName name ↔ (Condition.mk name .equal (.int 0)).IsPrintable := by
  constructor
  · rintro ⟨limits, text, r, h_parse, c, hc, rfl⟩
    exact { Rule.isPrintable_of_parse h_parse c hc with value := trivial }
  · intro h
    -- the name is bare if a condition with it can be printed, and zero is printed in any condition
    obtain ⟨r, h_conditions⟩ : ∃ r : Rule, r.conditions = [⟨name, .equal, .int 0⟩] :=
      ⟨.test ⟨name, .equal, .int 0⟩, Rule.conditions_eq_leaves _⟩
    have h_print : r.IsPrintable := by
      rw [Rule.IsPrintable, h_conditions]
      exact List.forall_mem_singleton.mpr h
    have h_parse := Rule.parse_render_of_isPrintable h_print r.depth
    rw [if_pos (Nat.sub_le _ 1)] at h_parse
    exact ⟨_, _, r, h_parse, _, h_conditions ▸ List.mem_singleton.mpr rfl, rfl⟩

instance : DecidablePred IsBareName := fun _ => decidable_of_iff' _ isBareName_iff

/-- A condition with such a name is printable if its literal is. -/
theorem IsBareName.isPrintable {name : String} (h : IsBareName name) {comparison : Comparison}
    {v : Value} (hv : v.IsPrintable comparison) : (Condition.mk name comparison v).IsPrintable :=
  { isBareName_iff.mp h with value := hv }

/-- The literal of a stored condition can be printed unquoted. -/
theorem Value.isPrintable_unquoted {v : Value} {comparison : Comparison}
    (h_bound : comparison.isOrdering → v.orderingBound.isSome)
    (h_float : ∀ x, v = .float x → x.isFinite) :
    (v.unquoted comparison).IsPrintable comparison := by
  cases v with
  | int n => trivial
  | float x => exact h_float x rfl
  | text s =>
    unfold Value.unquoted
    by_cases h_ordering : comparison.isOrdering
    · -- a text with a bound to order by is read as a number
      obtain ⟨x, hx⟩ := Option.isSome_iff_exists.mp (h_bound h_ordering)
      obtain ⟨w, -, h_read, -⟩ := Value.exists_readNumber hx
      simp only [if_pos h_ordering, h_read]
      exact isPrintable_of_readNumber h_read comparison
    · simp only [if_neg h_ordering]
      cases comparison with
      | equal => rfl
      | _ => exact absurd rfl h_ordering

theorem Value.unquoted_text {s : String} {comparison : Comparison} {v : Value}
    (h_ordering : comparison.isOrdering) (h : readNumber (trimBlanks s.toList) = .number v) :
    (text s).unquoted comparison = v := by
  rw [unquoted, if_pos h_ordering, h]

/-- Only the text of a number to the right of an ordering comparison is changed. -/
theorem Condition.unquoted_cases {c : Condition} (h : c.IsStorable) :
    c.unquoted = c ∨ ∃ s v x y, c.comparison.isOrdering ∧ c.value = .text s ∧
      readNumber (trimBlanks s.toList) = .number v ∧ c.unquoted = ⟨c.name, c.comparison, v⟩ ∧
      c.value.orderingBound = some x ∧ v.orderingBound = some y ∧ x.rank = y.rank ∧
      x.isFinite ∧ y.isFinite := by
  obtain ⟨name, comparison, v⟩ := c
  cases v with
  | int n => exact .inl rfl
  | float x => exact .inl rfl
  | text s =>
    by_cases h_ordering : comparison.isOrdering
    · obtain ⟨x, hx⟩ := Option.isSome_iff_exists.mp (h.bound h_ordering)
      obtain ⟨v, y, h_read, hy, h_rank, h_finite⟩ := Value.exists_readNumber hx
      refine .inr ⟨s, v, x, y, h_ordering, rfl, h_read, ?_, hx, hy, h_rank, h_finite⟩
      rw [Condition.unquoted, Value.unquoted_text h_ordering h_read]
    · -- the quotes are taken off to the right of an ordering only
      refine .inl ?_
      rw [Condition.unquoted, Value.unquoted, if_neg h_ordering]

/-! ### Conditions -/

/-- Nothing is above or below itself. -/
theorem Comparison.not_holds_self {comparison : Comparison} (h : comparison.isOrdering) (p : ℚ) :
    ¬comparison.Holds p p := by
  cases comparison with
  | greater => exact lt_irrefl p
  | less => exact lt_irrefl p
  | equal => exact absurd h (by decide)

namespace Condition

variable {name : String} {comparison : Comparison} {u v : Value} {x y z : Binary64} {k n : Int64}
  {s : String}

/-- An ordering condition orders by the double of its literal, unless it has two integers. -/
theorem decideStrictly_ordering (h_ordering : comparison.isOrdering) (hu : u.number? = some z)
    (hv : v.orderingBound = some x) (h_ints : ¬u.AreInts v) :
    decideStrictly ⟨name, comparison, v⟩ (some u)
      = .ok (if comparison == .greater then x.less z else z.less x) := by
  -- but for two integers, the doubles are all that is compared
  have h_ordered (greater : Bool) :
      ordered greater u v z x = if greater then x.less z else z.less x := by
    cases u with
    | int k =>
      cases v with
      | int n => exact absurd trivial h_ints
      | _ => rfl
    | _ => rfl
  simp only [decideStrictly, h_ordering, hu, hv, h_ordered, Bool.not_true, Bool.false_eq_true,
    if_false]

/-- It orders nothing that is not a number, whatever its literal. -/
theorem decideStrictly_of_number?_eq_none (h_ordering : comparison.isOrdering)
    (hu : u.number? = none) (v : Value) :
    decideStrictly ⟨name, comparison, v⟩ (some u)
      = .error (.invalidAttribute name comparison u.kind) := by
  simp only [decideStrictly, h_ordering, hu, Bool.not_true, Bool.false_eq_true, if_false]

/-- Finite doubles are ordered by their values. -/
theorem ite_less_eq_holds (h_ordering : comparison.isOrdering) (hx : x.isFinite)
    (hz : z.isFinite) :
    (if comparison == .greater then x.less z else z.less x)
      = decide (comparison.Holds z.value x.value) := by
  cases comparison with
  | greater => exact Binary64.less_eq hx hz
  | less => exact Binary64.less_eq hz hx
  | equal => exact absurd h_ordering (by decide)

/-- **With the text of an integer, an integer is compared as a double.** -/
theorem decideStrictly_text (h_ordering : comparison.isOrdering)
    (h_bound : (Value.text s).orderingBound = some x) (hx : x.isFinite)
    (h_rank : x.rank = (Binary64.ofInt n.toInt).rank) :
    decideStrictly ⟨name, comparison, .text s⟩ (some (.int k))
      = .ok (decide (comparison.Holds (Binary64.ofInt k.toInt).value
          (Binary64.ofInt n.toInt).value)) := by
  rw [decideStrictly_ordering h_ordering rfl h_bound id,
    ite_less_eq_holds h_ordering hx (Binary64.isFinite_ofInt k),
    Binary64.value_eq_value_iff.mpr h_rank]

/-- Rounding two integers hides how they compare only if one double is nearest to both. -/
theorem holds_ofInt_iff (h_ordering : comparison.isOrdering)
    (h_clear : comparison.Holds k.toInt n.toInt →
      ¬∃ x : Binary64, x.IsNearest k.toInt ∧ x.IsNearest n.toInt) :
    comparison.Holds (Binary64.ofInt k.toInt).value (Binary64.ofInt n.toInt).value ↔
      comparison.Holds k.toInt n.toInt := by
  have h_nearest := Binary64.isNearest_ofInt (Binary64.natAbs_toInt_lt k)
  by_cases h_eq : (Binary64.ofInt k.toInt).value = (Binary64.ofInt n.toInt).value
  · -- then neither is the case
    have h_both : (Binary64.ofInt k.toInt).IsNearest n.toInt :=
      (Binary64.isNearest_iff (Binary64.natAbs_toInt_lt n) h_nearest.isFinite).mpr h_eq.symm
    rw [h_eq]
    exact iff_of_false (Comparison.not_holds_self h_ordering _) fun h_holds =>
      h_clear h_holds ⟨_, h_nearest, h_both⟩
  · have hk : (Value.int k).Approximates k.toInt (Binary64.ofInt k.toInt) := .int k
    have hn : (Value.int n).Approximates n.toInt (Binary64.ofInt n.toInt) := .int n
    -- rounding is monotone, so integers with different doubles are in the order of these
    exact Comparison.holds_congr comparison (hk.mono hn) (hn.mono hk) fun h => absurd h h_eq

variable {c : Condition} {record : Record}

/-- **A condition decides alike unquoted**, unless it is blurred, and it is undecidable for the same
cause. -/
theorem decideStrictly_unquoted (h : c.IsStorable) (h_clear : ¬c.BlurredBy record) :
    c.unquoted.decideStrictly (record.get? c.name) = c.decideStrictly (record.get? c.name) := by
  rcases unquoted_cases h with h_eq | ⟨s, v, x, y, h_ordering, h_value, h_read, h_eq, hx, hy,
    h_rank, hx_finite, hy_finite⟩
  · rw [h_eq]
  · rw [h_eq]
    obtain ⟨name, comparison, w⟩ := c
    obtain rfl : w = .text s := h_value
    cases h_get : record.get? name with
    | none => rfl
    | some u =>
      cases hu : u.number? with
      | none =>
        rw [decideStrictly_of_number?_eq_none h_ordering hu,
          decideStrictly_of_number?_eq_none h_ordering hu]
      | some z =>
        by_cases h_ints : u.AreInts v
        · cases u with
          | int k =>
            cases v with
            | int n =>
              -- with the number the comparison is exact, and with its text it is rounded
              have h_bound : (Value.int n).orderingBound = some (Binary64.ofInt n.toInt) :=
                (Value.Approximates.int n).orderingBound_eq
              obtain rfl := Option.some.inj (h_bound.symm.trans hy)
              rw [decideStrictly_text h_ordering hx hx_finite h_rank,
                Comparison.decideStrictly_ints name comparison k n]
              refine congrArg Except.ok (decide_eq_decide.mpr ?_)
              exact (holds_ofInt_iff h_ordering fun h_holds h_nearest => h_clear
                ⟨s, k, n, h_ordering, rfl, h_read, h_get, h_holds, h_nearest⟩).symm
            | _ => exact h_ints.elim
          | _ => exact h_ints.elim
        · have h_text : ¬u.AreInts (.text s) := by
            cases u <;> exact id
          rw [decideStrictly_ordering h_ordering hu hx h_text,
            decideStrictly_ordering h_ordering hu hy h_ints,
            Binary64.less_congr_left h_rank hx_finite, Binary64.less_congr_right h_rank hx_finite]

/-- **A blurred condition is false, and unquoted it is true.** -/
theorem decideStrictly_of_blurredBy (h : c.IsStorable) (h_blurred : c.BlurredBy record) :
    c.decideStrictly (record.get? c.name) = .ok false ∧
      c.unquoted.decideStrictly (record.get? c.name) = .ok true := by
  obtain ⟨s, k, n, h_ordering, h_value, h_read, h_get, h_holds, x, hk, hn⟩ := h_blurred
  obtain ⟨name, comparison, w⟩ := c
  obtain rfl : w = .text s := h_value
  have h_record : record.get? name = some (.int k) := h_get
  -- the text is that of the integer, and its double that of both integers
  obtain ⟨y, hy⟩ := Option.isSome_iff_exists.mp (h.bound h_ordering)
  obtain ⟨v, z, h_read', hz, h_rank, hy_finite, -⟩ := Value.exists_readNumber hy
  obtain rfl : Value.int n = v := NumberReading.number.inj (h_read.symm.trans h_read')
  have h_bound : (Value.int n).orderingBound = some (Binary64.ofInt n.toInt) :=
    (Value.Approximates.int n).orderingBound_eq
  obtain rfl := Option.some.inj (h_bound.symm.trans hz)
  have hk_value := (Binary64.isNearest_iff (Binary64.natAbs_toInt_lt k) hk.isFinite).mp hk
  have hn_value := (Binary64.isNearest_iff (Binary64.natAbs_toInt_lt n) hn.isFinite).mp hn
  have h_unquoted : unquoted ⟨name, comparison, .text s⟩ = ⟨name, comparison, .int n⟩ := by
    rw [unquoted, Value.unquoted_text h_ordering h_read]
  refine ⟨?_, ?_⟩
  · show decideStrictly ⟨name, comparison, .text s⟩ (record.get? name) = .ok false
    rw [h_record, decideStrictly_text h_ordering hy hy_finite h_rank, hk_value, hn_value,
      decide_eq_false (Comparison.not_holds_self h_ordering _)]
  · show decideStrictly (unquoted ⟨name, comparison, .text s⟩) (record.get? name) = .ok true
    rw [h_unquoted, h_record, Comparison.decideStrictly_ints name comparison k n,
      decide_eq_true h_holds]

/-- Being blurred is the only way in which a condition and what its text says come apart. -/
theorem decideStrictly_unquoted_iff (h : c.IsStorable) :
    c.unquoted.decideStrictly (record.get? c.name) = c.decideStrictly (record.get? c.name) ↔
      ¬c.BlurredBy record := by
  refine ⟨fun h_alike h_blurred => ?_, decideStrictly_unquoted h⟩
  obtain ⟨h_false, h_true⟩ := decideStrictly_of_blurredBy h h_blurred
  rw [h_false, h_true] at h_alike
  exact absurd (Except.ok.inj h_alike) (by decide)

/-- One of the two integers is too large for the significand of a double. -/
theorem BlurredBy.large (h : c.BlurredBy record) :
    ∃ (s : String) (k n : Int64), c.value = .text s ∧
      readNumber (trimBlanks s.toList) = .number (.int n) ∧
      record.get? c.name = some (.int k) ∧ (2 ^ 53 < k.toInt.natAbs ∨ 2 ^ 53 < n.toInt.natAbs) := by
  obtain ⟨s, k, n, h_ordering, h_value, h_read, h_get, h_holds, x, hk, hn⟩ := h
  refine ⟨s, k, n, h_value, h_read, h_get, ?_⟩
  by_contra h_small
  rw [not_or, not_lt, not_lt] at h_small
  -- small integers are their own doubles, so one double would be two of them
  have hk_value := (Binary64.isNearest_iff (Binary64.natAbs_toInt_lt k) hk.isFinite).mp hk
  have hn_value := (Binary64.isNearest_iff (Binary64.natAbs_toInt_lt n) hn.isFinite).mp hn
  rw [Binary64.value_ofInt h_small.1] at hk_value
  rw [Binary64.value_ofInt h_small.2] at hn_value
  rw [hk_value, hn_value] at h_holds
  exact Comparison.not_holds_self h_ordering _ h_holds

end Condition

/-! ### Rules -/

theorem Rule.outcome_trace_test (policy : Policy) (record : Record) (c : Condition) :
    ((Rule.test c).trace policy record).outcome = c.decideUnder policy (record.get? c.name) := by
  rw [Rule.trace]
  cases c.decideUnder policy (record.get? c.name) with
  | ok b => rfl
  | error e => rfl

/-- **The outcome of a rule is that of its conditions.** If they decide alike unquoted, it does. -/
theorem Rule.outcome_unquoted {policy : Policy} {record : Record} {r : Rule}
    (h : ∀ c ∈ r.leaves,
      c.unquoted.decideStrictly (record.get? c.name) = c.decideStrictly (record.get? c.name)) :
    (r.unquoted.trace policy record).outcome = (r.trace policy record).outcome := by
  induction r with
  | test c =>
    rw [Rule.unquoted, Rule.outcome_trace_test, Rule.outcome_trace_test]
    unfold Condition.decideUnder
    rw [← h c (List.mem_singleton.mpr rfl)]
    rfl
  | join op left right ihl ihr =>
    have h_left := ihl fun c hc => h c (List.mem_append_left _ hc)
    have h_right := ihr fun c hc => h c (List.mem_append_right _ hc)
    rw [Rule.unquoted, Rule.trace_join, Rule.trace_join]
    cases h_outcome : (left.trace policy record).outcome with
    | error e => simp only [Trace.andThen, h_left, h_outcome]
    | ok b =>
      rw [Trace.andThen_of_ok h_outcome, Trace.andThen_of_ok (h_left.trans h_outcome)]
      -- the right side runs in both, or in none
      by_cases h_settled : op.settledBy b
      · rw [if_pos h_settled, if_pos h_settled]
      · rw [if_neg h_settled, if_neg h_settled]
        exact h_right

/-- A lone condition that is decided has this verdict under either policy. -/
theorem evaluateUnder_test {c : Condition} {record : Record} {b : Bool}
    (h : c.decideStrictly (record.get? c.name) = .ok b) (policy : Policy) :
    evaluateUnder policy (some (.test c)) record = .ok b := by
  rw [evaluateUnder_some, Rule.outcome_trace_test]
  cases policy with
  | lenient => exact Condition.decideUnder_lenient h
  | strict => rw [Condition.decideUnder_strict, h]

/-- **Unquoted, a rule accepts no less.** What a blurred condition says changes from false to true,
and both connectives are monotone. -/
theorem evaluate_unquoted {record : Record} {r : Rule} (h : ∀ c ∈ r.leaves, c.IsStorable)
    (h_true : evaluate (some r) record = true) : evaluate (some r.unquoted) record = true := by
  induction r with
  | test c =>
    have h_storable := h c (List.mem_singleton.mpr rfl)
    -- a condition that is blurred becomes true, and any other keeps its verdict
    by_cases h_blurred : c.BlurredBy record
    · have h_unquoted := (Condition.decideStrictly_of_blurredBy h_storable h_blurred).2
      exact Except.ok.inj ((evaluateUnder_lenient _ _).symm.trans
        (evaluateUnder_test h_unquoted .lenient))
    · have h_alike : ((Rule.test c).unquoted.trace .lenient record).outcome
          = ((Rule.test c).trace .lenient record).outcome := by
        refine Rule.outcome_unquoted fun d hd => ?_
        obtain rfl := List.mem_singleton.mp hd
        exact Condition.decideStrictly_unquoted h_storable h_blurred
      rw [Rule.outcome_trace_lenient, Rule.outcome_trace_lenient, h_true] at h_alike
      exact Except.ok.inj h_alike
  | join op left right ihl ihr =>
    have h_left := ihl fun c hc => h c (List.mem_append_left _ hc)
    have h_right := ihr fun c hc => h c (List.mem_append_right _ hc)
    rw [Rule.unquoted]
    -- either connective is monotone in both sides
    cases op with
    | and =>
      rw [evaluate_and, Bool.and_eq_true] at h_true ⊢
      exact h_true.imp h_left h_right
    | or =>
      rw [evaluate_or, Bool.or_eq_true] at h_true ⊢
      exact h_true.imp h_left h_right

/-- **What canonical text means.** A rule that is read from bytes, with names that rule text has
and no infinite literals, has a canonical text that is a rule, within levels of nesting that are one
less than its depth. It is the rule itself, but for the texts of numbers that are numbers there. On
every record that blurs none of its conditions the two give the same verdict, and strictly they give
the same result. A condition that is blurred has an integer beyond `2 ^ 53` on one of its sides: it
is false, and what its text says is true. In any case what the rule accepts, its text accepts. -/
theorem Rule.parse_render_of_ofBlob {bytes : List UInt8} {r : Rule} {m : Nat}
    (h : Rule.ofBlob bytes = .ok r) (h_names : ∀ c ∈ r.conditions, IsBareName c.name)
    (h_floats : ∀ c ∈ r.conditions, ∀ x, c.value = .float x → x.isFinite) (hm : r.depth - 1 ≤ m) :
    Rule.parse ⟨m⟩ r.render = .ok r.unquoted ∧
    (∀ record : Record, (∀ c ∈ r.conditions, ¬c.BlurredBy record) →
      evaluate (some r.unquoted) record = evaluate (some r) record ∧
      evaluateStrictly (some r.unquoted) record = evaluateStrictly (some r) record) ∧
    (∀ c ∈ r.conditions, ∀ record : Record, c.BlurredBy record →
      (∃ (s : String) (k n : Int64), c.value = .text s ∧
        readNumber (trimBlanks s.toList) = .number (.int n) ∧
        record.get? c.name = some (.int k) ∧
        (2 ^ 53 < k.toInt.natAbs ∨ 2 ^ 53 < n.toInt.natAbs)) ∧
      ∀ policy, evaluateUnder policy (some (.test c)) record = .ok false ∧
        evaluateUnder policy (some (.test c.unquoted)) record = .ok true) ∧
    ∀ record : Record, evaluate (some r) record = true →
      evaluate (some r.unquoted) record = true := by
  have h_storable := Rule.isStorable_of_ofBlob h
  have h_leaves : ∀ c ∈ r.leaves, c.IsStorable := by rwa [← Rule.conditions_eq_leaves]
  -- all that was stored can be printed without quotes, as the names and the doubles are assumed to
  have h_print : ∀ c ∈ r.leaves, c.unquoted.IsPrintable := by
    intro c hc
    rw [← Rule.conditions_eq_leaves] at hc
    exact (h_names c hc).isPrintable
      (Value.isPrintable_unquoted (h_storable c hc).bound (h_floats c hc))
  refine ⟨?_, fun record h_clear => ?_, fun c hc record h_blurred => ⟨h_blurred.large, ?_⟩,
    fun record => evaluate_unquoted h_leaves⟩
  · rw [Rule.parse_render_unquoted h_print, if_pos hm]
  · -- where no condition is blurred, each has its old verdict or its old fault
    have h_alike (policy : Policy) : evaluateUnder policy (some r.unquoted) record
        = evaluateUnder policy (some r) record := by
      rw [evaluateUnder_some, evaluateUnder_some]
      refine Rule.outcome_unquoted fun c hc => ?_
      rw [← Rule.conditions_eq_leaves] at hc
      exact Condition.decideStrictly_unquoted (h_storable c hc) (h_clear c hc)
    refine ⟨?_, h_alike .strict⟩
    rw [evaluate, evaluate, h_alike]
  · obtain ⟨h_false, h_true⟩ := Condition.decideStrictly_of_blurredBy (h_storable c hc) h_blurred
    exact fun policy => ⟨evaluateUnder_test h_false policy, evaluateUnder_test h_true policy⟩

/-! ### The first integer that is blurred -/

/-- The integer above `2 ^ 53` is above it, but not as a double. -/
theorem Condition.blurredBy_twoPow53 {record : Record} {name : String}
    (h : record.get? name = some (.int 9007199254740993)) :
    (Condition.mk name .greater (.text "9007199254740992")).BlurredBy record := by
  refine ⟨_, 9007199254740993, 9007199254740992, rfl, rfl, by decide +kernel, h, ?_,
    .twoPow53, Value.conflated_twoPow53.1, ?_⟩
  · show ((Int64.toInt 9007199254740992 : ℤ) : ℚ) < (Int64.toInt 9007199254740993 : ℤ)
    decide
  · have h_exact : (Binary64.ofInt (Int64.toInt 9007199254740992)).value
        = Binary64.twoPow53.value := Binary64.value_eq_value_iff.mpr (by decide +kernel)
    exact (Binary64.isNearest_iff (by decide) (by decide)).mpr h_exact

/-- Two numbers in quotes: a rule and its text are alike on a record with small numbers, and come
apart on the integer above `2 ^ 53`. -/
theorem Rule.parse_render_of_ofBlob_quoted :
    let c : Condition := ⟨"a", .greater, .text "9007199254740992"⟩
    let r : Rule := .join .or (.test c) (.test ⟨"b", .less, .text " 4e1 "⟩)
    let s : Rule := .join .or (.test ⟨"a", .greater, .int 9007199254740992⟩)
      (.test ⟨"b", .less, .float (.ofInt 40)⟩)
    let small : Record := Directory.insert (Directory.insert ∅ "a" (.int 5)) "b" (.int 30)
    let large : Record := Directory.insert ∅ "a" (.int 9007199254740993)
    Rule.ofBlob r.toBlob = .ok r ∧ (∀ d ∈ r.conditions, IsBareName d.name) ∧
      (∀ d ∈ r.conditions, ∀ x, d.value = .float x → x.isFinite) ∧ r.depth - 1 ≤ 1 ∧
      Rule.parse ⟨1⟩ r.render = .ok s ∧
      evaluateStrictly (some s) small = evaluateStrictly (some r) small ∧
      c.BlurredBy large ∧ evaluateStrictly (some (.test c)) large = .ok false ∧
      evaluateStrictly (some (.test c.unquoted)) large = .ok true := by
  intro c r s small large
  have h_storable : ∀ d ∈ r.conditions, d.IsStorable := by
    rw [Rule.conditions_eq_leaves]
    decide +kernel
  have h_short : (Payload.ofRule r).write.length < 2 ^ 32 := by
    have h_flatten : Entry.flatten r
        = [.test c, .test ⟨"b", .less, .text " 4e1 "⟩, .chain .or 2] := by
      simp [r, Entry.flatten_join, Entry.chainOperands]
    rw [Payload.ofRule, h_flatten]
    decide +kernel
  have h_names : ∀ d ∈ r.conditions, IsBareName d.name := by
    rw [Rule.conditions_eq_leaves]
    decide +kernel
  have h_floats : ∀ d ∈ r.conditions, ∀ x, d.value = .float x → x.isFinite := by
    rw [Rule.conditions_eq_leaves]
    intro d hd x hx
    rcases List.mem_pair.mp hd with rfl | rfl <;> cases hx
  have h_depth : r.depth - 1 ≤ 1 := by
    rw [Rule.depth_eq_height]
    decide
  have h_unquoted : r.unquoted = s := by decide +kernel
  -- on small numbers both readings of the bound agree
  have h_clear : ∀ d ∈ r.conditions, ¬d.BlurredBy small := by
    intro d hd
    refine (Condition.decideStrictly_unquoted_iff (h_storable d hd)).mp ?_
    rw [Rule.conditions_eq_leaves] at hd
    rcases List.mem_pair.mp hd with rfl | rfl <;> decide +kernel
  -- the value is the bound's successor, and both have one nearest double
  have h_blurred : c.BlurredBy large := Condition.blurredBy_twoPow53 (by decide)
  have h_blob := ofBlob_toBlob_of_isStorable h_storable h_short
  obtain ⟨h_parse, h_alike, h_apart, -⟩ :=
    Rule.parse_render_of_ofBlob h_blob h_names h_floats h_depth
  have hc : c ∈ r.conditions := by
    rw [Rule.conditions_eq_leaves]
    exact List.mem_cons_self
  obtain ⟨-, h_verdicts⟩ := h_apart c hc large h_blurred
  rw [h_unquoted] at h_parse h_alike
  exact ⟨h_blob, h_names, h_floats, h_depth, h_parse, (h_alike small h_clear).2, h_blurred,
    (h_verdicts .strict).1, (h_verdicts .strict).2⟩

/-- **The canonical text of a stored rule may say something else.** The text of an integer to the
right of `>` is compared as a double, and in the canonical text it is an integer, which is compared
exactly. The rule does not find that the integer above `2 ^ 53` is above it; its text does. -/
theorem Rule.not_parse_render_alike :
    let r : Rule := .test ⟨"a", .greater, .text "9007199254740992"⟩
    let s : Rule := .test ⟨"a", .greater, .int 9007199254740992⟩
    let record : Record := Directory.insert ∅ "a" (.int 9007199254740993)
    Rule.ofBlob r.toBlob = .ok r ∧ (∀ c ∈ r.conditions, IsBareName c.name) ∧
      (∀ c ∈ r.conditions, ∀ x, c.value = .float x → x.isFinite) ∧
      (∀ m, Rule.parse ⟨m⟩ r.render = .ok s) ∧
      evaluate (some r) record = false ∧ evaluate (some s) record = true ∧
      evaluateStrictly (some r) record = .ok false ∧
      evaluateStrictly (some s) record = .ok true := by
  intro r s record
  have h_conditions : r.conditions = [⟨"a", .greater, .text "9007199254740992"⟩] :=
    Rule.conditions_eq_leaves r
  have h_storable : ∀ c ∈ r.conditions, c.IsStorable := by
    rw [h_conditions]
    decide +kernel
  have h_names : ∀ c ∈ r.conditions, IsBareName c.name := by
    rw [h_conditions]
    decide +kernel
  have h_unquoted : r.unquoted = s := by decide +kernel
  have h_print : ∀ c ∈ r.leaves, c.unquoted.IsPrintable := by decide +kernel
  have h_depth (m : Nat) : r.depth - 1 ≤ m := by
    rw [Rule.depth_eq_height]
    exact Nat.zero_le m
  -- the text in quotes comes back as an integer, under any limit
  have h_parse (m : Nat) : Rule.parse ⟨m⟩ r.render = .ok s := by
    rw [Rule.parse_render_unquoted h_print, if_pos (h_depth m), h_unquoted]
  have h_get : record.get? "a" = some (.int 9007199254740993) := by decide
  have h_blurred := Condition.blurredBy_twoPow53 h_get
  obtain ⟨h_false, h_true⟩ := Condition.decideStrictly_of_blurredBy
    (h_storable _ (h_conditions ▸ List.mem_singleton.mpr rfl)) h_blurred
  -- stored, it orders by a double, and the value is no greater than that; as an integer, it is
  have h_rule (policy : Policy) : evaluateUnder policy (some r) record = .ok false :=
    evaluateUnder_test h_false policy
  have h_text (policy : Policy) : evaluateUnder policy (some s) record = .ok true := by
    rw [← h_unquoted]
    exact evaluateUnder_test h_true policy
  refine ⟨ofBlob_toBlob_of_isStorable h_storable (by decide +kernel), h_names, ?_, h_parse, ?_, ?_,
    h_rule .strict, h_text .strict⟩
  · rw [h_conditions]
    intro c hc x hx
    obtain rfl := List.mem_singleton.mp hc
    cases hx
  · rw [evaluate, h_rule]
  · rw [evaluate, h_text]

end Eligibility
