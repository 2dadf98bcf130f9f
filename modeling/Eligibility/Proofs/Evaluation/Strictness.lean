import Mathlib.Data.List.TakeWhile
import Eligibility.Proofs.Evaluation.ShortCircuit

/-!
# Strict and lenient evaluation

A condition is undecidable for one of three causes, each of which is looked for only where those
before it do not apply (`Condition.UndecidedBy`). A lenient evaluation takes such a condition to be
false and goes on; a strict one stops there. So the two do the same up to the first undecidable
condition that the lenient one visits, and what the lenient one does after it is of no account:
**the strict trace is the lenient trace, cut at its first undecidable condition**
(`Rule.trace_strict`).

Cutting is defined on traces alone, from what they say about their conditions. It goes through
`Trace.andThen`, because a part that is cut off is an error and an error is the end of the trace;
hence the statement follows by recursion on the rule, connective by connective, although after the
cut the two evaluations no longer run side by side.
-/

namespace Eligibility

namespace Condition

/-- What a record holds under the attribute, if anything, does not decide the condition: it holds
nothing, or `>` or `<` meets something that is no number, or there is no number to order by. -/
def IsUndecidable (c : Condition) (observed : Option Value) : Prop :=
  observed = none ∨
    c.comparison.isOrdering ∧ (observed.bind Value.number? = none ∨ c.value.orderingBound = none)

instance (c : Condition) (observed : Option Value) : Decidable (c.IsUndecidable observed) :=
  inferInstanceAs (Decidable (_ ∨ _))

/-- **Why a condition is undecidable**, as the error that says so. A literal is to blame only if the
attribute is not, and an attribute only if there is one. -/
inductive UndecidedBy (c : Condition) : Option Value → EvalError → Prop
  | missing : c.UndecidedBy none (.missingAttribute c.name)
  | unordered {v : Value} (h_ordering : c.comparison.isOrdering) (h_number : v.number? = none) :
      c.UndecidedBy (some v) (.invalidAttribute c.name c.comparison v.kind)
  | unbounded {v : Value} (h_ordering : c.comparison.isOrdering) (h_number : v.number?.isSome)
      (h_bound : c.value.orderingBound = none) :
      c.UndecidedBy (some v) (.invalidLiteral c.name c.comparison c.value)

/-- An undecidable condition has a cause, and only such a condition has one. -/
theorem isUndecidable_iff {c : Condition} {observed : Option Value} :
    c.IsUndecidable observed ↔ ∃ e, c.UndecidedBy observed e := by
  constructor
  · rintro (rfl | ⟨h_ordering, h⟩)
    · exact ⟨_, .missing⟩
    · cases observed with
      | none => exact ⟨_, .missing⟩
      | some v =>
        -- the literal is to blame only where the attribute holds a number
        cases h_number : v.number? with
        | none => exact ⟨_, .unordered h_ordering h_number⟩
        | some x =>
          have h_bound : c.value.orderingBound = none := h.resolve_left (by simp [h_number])
          exact ⟨_, .unbounded h_ordering (by rw [h_number]; rfl) h_bound⟩
  · rintro ⟨e, h⟩
    cases h with
    | missing => exact .inl rfl
    | unordered h_ordering h_number => exact .inr ⟨h_ordering, .inl h_number⟩
    | unbounded h_ordering _ h_bound => exact .inr ⟨h_ordering, .inr h_bound⟩

/-- **A strict decision fails for the cause** for which the condition is undecidable. -/
theorem decideStrictly_eq_error_iff {c : Condition} {observed : Option Value} {e : EvalError} :
    c.decideStrictly observed = .error e ↔ c.UndecidedBy observed e := by
  constructor
  · intro h
    unfold decideStrictly at h
    split at h
    · cases h
      exact .missing
    · -- there is a value, so only an ordering can fail: on the value, or on the bound
      next v =>
      split at h
      · exact absurd h (by simp)
      · next h_ordering =>
        replace h_ordering : c.comparison.isOrdering := by simpa using h_ordering
        split at h
        · next h_number =>
          cases h
          exact .unordered h_ordering h_number
        · next h_number h_bound =>
          cases h
          exact .unbounded h_ordering (by rw [h_number]; rfl) h_bound
        · exact absurd h (by simp)
  · intro h
    cases h with
    | missing => rfl
    | unordered h_ordering h_number => simp [decideStrictly, h_ordering, h_number]
    | unbounded h_ordering h_number h_bound =>
      obtain ⟨x, h_number⟩ := Option.isSome_iff_exists.mp h_number
      simp [decideStrictly, h_ordering, h_number, h_bound]

/-- A condition that is not undecidable is decided, whatever the policy. -/
theorem exists_decideStrictly {c : Condition} {observed : Option Value}
    (h : ¬c.IsUndecidable observed) : ∃ b, c.decideStrictly observed = .ok b := by
  cases h_decide : c.decideStrictly observed with
  | ok b => exact ⟨b, rfl⟩
  | error e => exact absurd (isUndecidable_iff.mpr ⟨e, decideStrictly_eq_error_iff.mp h_decide⟩) h

theorem decideUnder_strict (c : Condition) (observed : Option Value) :
    c.decideUnder .strict observed = c.decideStrictly observed := by
  unfold decideUnder
  cases c.decideStrictly observed with
  | ok b => rfl
  | error e => rfl

theorem decideUnder_lenient {c : Condition} {observed : Option Value} {b : Bool}
    (h : c.decideStrictly observed = .ok b) : c.decideUnder .lenient observed = .ok b := by
  unfold decideUnder
  rw [h]

end Condition

/-! ### Cutting a trace -/

/-- The condition was undecidable when it was visited. -/
def Visit.IsUndecidable (v : Visit) : Prop := v.condition.IsUndecidable v.observed

instance : DecidablePred Visit.IsUndecidable :=
  fun v => inferInstanceAs (Decidable (v.condition.IsUndecidable v.observed))

namespace Trace

/-- The trace up to the first undecidable condition. If there is one, what a strict decision says
about it is the outcome. -/
def cut (t : Trace) : Trace where
  outcome :=
    match t.visits.find? (·.IsUndecidable) with
    | none => t.outcome
    | some v => v.condition.decideStrictly v.observed
  visits := t.visits.takeWhile (¬ ·.IsUndecidable)

/-- Without an undecidable condition there is nothing to cut. -/
theorem cut_of_forall {t : Trace} (h : ∀ v ∈ t.visits, ¬v.IsUndecidable) : t.cut = t := by
  have h_find : t.visits.find? (·.IsUndecidable) = none := by
    rw [List.find?_eq_none]
    exact fun v hv => by simpa using h v hv
  have h_take : t.visits.takeWhile (¬ ·.IsUndecidable) = t.visits := by
    rw [List.takeWhile_eq_self_iff]
    exact fun v hv => by simpa using h v hv
  unfold cut
  rw [h_find, h_take]

/-- The first undecidable condition ends the trace, and neither the rest of the trace nor its
outcome matters. -/
theorem cut_of_split {t : Trace} {front back : List Visit} {v : Visit}
    (h_split : t.visits = front ++ v :: back) (h_front : ∀ w ∈ front, ¬w.IsUndecidable)
    (hv : v.IsUndecidable) : t.cut = ⟨v.condition.decideStrictly v.observed, front⟩ := by
  have h_find : t.visits.find? (·.IsUndecidable) = some v := by
    rw [h_split, List.find?_append, List.find?_eq_none.mpr fun w hw => by simpa using h_front w hw,
      Option.none_or, List.find?_cons_of_pos (by simpa using hv)]
  have h_take : t.visits.takeWhile (¬ ·.IsUndecidable) = front := by
    rw [h_split, List.takeWhile_append_of_pos fun w hw => by simpa using h_front w hw,
      List.takeWhile_cons_of_neg (by simpa using hv), List.append_nil]
  unfold cut
  rw [h_find, h_take]

/-- A trace has no undecidable condition, or a first one. -/
theorem forall_or_exists_first (visits : List Visit) :
    (∀ v ∈ visits, ¬v.IsUndecidable) ∨ ∃ front v back, visits = front ++ v :: back ∧
      (∀ w ∈ front, ¬w.IsUndecidable) ∧ v.IsUndecidable := by
  cases h_find : visits.find? (·.IsUndecidable) with
  | none => exact .inl fun v hv => by simpa using List.find?_eq_none.mp h_find v hv
  | some v =>
    obtain ⟨hv, front, back, h_split, h_front⟩ := List.find?_eq_some_iff_append.mp h_find
    exact .inr ⟨front, v, back, h_split, fun w hw => by simpa using h_front w hw, by simpa using hv⟩

theorem andThen_of_ok {t : Trace} {b : Bool} (h : t.outcome = .ok b) (next : Bool → Trace) :
    t.andThen next = ⟨(next b).outcome, t.visits ++ (next b).visits⟩ := by
  unfold andThen
  rw [h]

/-- **Cutting goes through sequencing**: where the first trace is cut, the second no longer runs. -/
theorem cut_andThen {t : Trace} {b : Bool} (h : t.outcome = .ok b) (next : Bool → Trace) :
    (t.andThen next).cut = t.cut.andThen fun b => (next b).cut := by
  have h_visits : (t.andThen next).visits = t.visits ++ (next b).visits := by
    rw [andThen_of_ok h]
  rcases forall_or_exists_first t.visits with h_all | ⟨front, v, back, h_split, h_front, hv⟩
  · rw [cut_of_forall h_all, andThen_of_ok h fun b => (next b).cut]
    -- the first trace stays, so the cut is in the second, if there is one
    rcases forall_or_exists_first (next b).visits with
      h_next | ⟨front, v, back, h_split, h_front, hv⟩
    · have h_both : ∀ v ∈ (t.andThen next).visits, ¬v.IsUndecidable := by
        rw [h_visits]
        exact fun v hv => (List.mem_append.mp hv).elim (h_all v) (h_next v)
      rw [cut_of_forall h_both, cut_of_forall h_next, andThen_of_ok h]
    · have h_both : ∀ w ∈ t.visits ++ front, ¬w.IsUndecidable := fun w hw =>
        (List.mem_append.mp hw).elim (h_all w) (h_front w)
      rw [cut_of_split h_split h_front hv,
        cut_of_split (by rw [h_visits, h_split, List.append_assoc]) h_both hv]
  · -- the first trace ends with an error, and so does the whole
    obtain ⟨e, h_cause⟩ := Condition.isUndecidable_iff.mp hv
    rw [cut_of_split h_split h_front hv,
      cut_of_split (by rw [h_visits, h_split, List.append_assoc, List.cons_append]) h_front hv,
      Condition.decideStrictly_eq_error_iff.mpr h_cause]
    rfl

end Trace

namespace Rule

/-! ### The two evaluations -/

/-- A visit tells what the record holds. -/
theorem observed_of_mem_visits {policy : Policy} {record : Record} {r : Rule} {v : Visit}
    (h : v ∈ (r.trace policy record).visits) : v.observed = record.get? v.condition.name := by
  induction r with
  | test c =>
    rw [trace] at h
    -- a condition that fails is not visited
    cases h_decide : c.decideUnder policy (record.get? c.name) with
    | error e =>
      rw [h_decide] at h
      exact absurd h (by simp)
    | ok b =>
      rw [h_decide] at h
      obtain rfl := List.mem_singleton.mp h
      rfl
  | join op left right ihl ihr =>
    rw [trace_join] at h
    unfold Trace.andThen at h
    split at h
    · -- the visit belongs to the left side, or to the right side if that has run
      rcases List.mem_append.mp h with h | h
      · exact ihl h
      · simp only at h
        split at h
        · exact absurd h (by simp [Trace.value])
        · exact ihr h
    · exact ihl h

/-- **Strict evaluation is lenient evaluation, cut at the first undecidable condition.** -/
theorem trace_strict (record : Record) (r : Rule) :
    r.trace .strict record = (r.trace .lenient record).cut := by
  induction r with
  | test c =>
    by_cases h : c.IsUndecidable (record.get? c.name)
    · -- the strict trace is empty, and the lenient one is the condition at which it is cut
      obtain ⟨b, h_lenient⟩ := c.exists_decideUnder_lenient (record.get? c.name)
      obtain ⟨e, h_cause⟩ := Condition.isUndecidable_iff.mp h
      have h_error := Condition.decideStrictly_eq_error_iff.mpr h_cause
      have h_visits : ((Rule.test c).trace .lenient record).visits
          = [] ++ ⟨c, record.get? c.name, b⟩ :: [] := by
        rw [trace, h_lenient]
        rfl
      rw [Trace.cut_of_split h_visits (List.forall_mem_nil _) h, trace, c.decideUnder_strict,
        h_error]
    · obtain ⟨b, h_strict⟩ := Condition.exists_decideStrictly h
      have h_visits : ∀ v ∈ ((Rule.test c).trace .lenient record).visits, ¬v.IsUndecidable := by
        rw [trace, Condition.decideUnder_lenient h_strict]
        exact List.forall_mem_singleton.mpr h
      rw [Trace.cut_of_forall h_visits, trace, trace, c.decideUnder_strict,
        Condition.decideUnder_lenient h_strict, h_strict]
  | join op left right ihl ihr =>
    obtain ⟨b, h_left⟩ := left.exists_trace_lenient record
    rw [trace_join, trace_join, Trace.cut_andThen h_left, ihl, ihr]
    -- the sides are cut alike, and a value that settles the connective has nothing to cut
    congr 1
    funext b
    split
    · rfl
    · rfl

/-- A visited condition was undecidable if the record does not decide it. -/
theorem isUndecidable_visit_iff {policy : Policy} {record : Record} {r : Rule} {v : Visit}
    (h : v ∈ (r.trace policy record).visits) :
    v.IsUndecidable ↔ v.condition.IsUndecidable (record.get? v.condition.name) := by
  rw [Visit.IsUndecidable, observed_of_mem_visits h]

/-- Where every visited condition is decidable, being strict makes no difference. -/
theorem trace_strict_of_forall {record : Record} {r : Rule}
    (h : ∀ v ∈ (r.trace .lenient record).visits,
      ¬v.condition.IsUndecidable (record.get? v.condition.name)) :
    r.trace .strict record = r.trace .lenient record := by
  rw [trace_strict]
  exact Trace.cut_of_forall fun v hv => (isUndecidable_visit_iff hv).not.mpr (h v hv)

/-- The first undecidable condition is where a strict evaluation stops. -/
theorem trace_strict_of_split {record : Record} {r : Rule} {front back : List Visit} {v : Visit}
    (h_split : (r.trace .lenient record).visits = front ++ v :: back)
    (h_front : ∀ w ∈ front, ¬w.condition.IsUndecidable (record.get? w.condition.name))
    (hv : v.condition.IsUndecidable (record.get? v.condition.name)) :
    ∃ e, v.condition.UndecidedBy (record.get? v.condition.name) e ∧
      r.trace .strict record = ⟨.error e, front⟩ := by
  have h_mem : ∀ w ∈ front ++ [v], w ∈ (r.trace .lenient record).visits := by
    intro w hw
    rw [h_split, List.append_cons]
    exact List.mem_append_left _ hw
  have h_mem_v := h_mem v (List.mem_append_right _ List.mem_cons_self)
  -- the visits hold what the record has, so both notions of undecidable agree on them
  have h_decidable : ∀ w ∈ front, ¬w.IsUndecidable := fun w hw =>
    (isUndecidable_visit_iff (h_mem w (List.mem_append_left _ hw))).not.mpr (h_front w hw)
  obtain ⟨e, h_cause⟩ := Condition.isUndecidable_iff.mp hv
  refine ⟨e, h_cause, ?_⟩
  rw [trace_strict, Trace.cut_of_split h_split h_decidable ((isUndecidable_visit_iff h_mem_v).mpr hv),
    observed_of_mem_visits h_mem_v, Condition.decideStrictly_eq_error_iff.mpr h_cause]

/-- A strict evaluation is the lenient one, or it has failed for the cause of a condition that the
lenient one visits. -/
theorem trace_strict_cases (record : Record) (r : Rule) :
    r.trace .strict record = r.trace .lenient record ∨
      ∃ v ∈ (r.trace .lenient record).visits, ∃ e,
        v.condition.UndecidedBy (record.get? v.condition.name) e ∧
          (r.trace .strict record).outcome = .error e := by
  -- either nothing is cut off, or the cut is at the first visit that cannot be decided
  rcases Trace.forall_or_exists_first (r.trace .lenient record).visits with
    h_all | ⟨front, v, back, h_split, h_front, hv⟩
  · left
    rw [trace_strict, Trace.cut_of_forall h_all]
  · have h_mem : v ∈ (r.trace .lenient record).visits := by
      rw [h_split]
      exact List.mem_append_right _ List.mem_cons_self
    obtain ⟨e, h_cause⟩ := Condition.isUndecidable_iff.mp hv
    refine .inr ⟨v, h_mem, e, observed_of_mem_visits h_mem ▸ h_cause, ?_⟩
    rw [trace_strict, Trace.cut_of_split h_split h_front hv]
    exact Condition.decideStrictly_eq_error_iff.mpr h_cause

/-- The error of a strict evaluation is the cause of a condition that the lenient one visits. -/
theorem exists_undecidedBy {record : Record} {r : Rule} {e : EvalError}
    (h : (r.trace .strict record).outcome = .error e) :
    ∃ v ∈ (r.trace .lenient record).visits,
      v.condition.UndecidedBy (record.get? v.condition.name) e := by
  obtain ⟨b, h_lenient⟩ := r.exists_trace_lenient record
  rcases trace_strict_cases record r with h_same | ⟨v, h_mem, e', h_cause, h_error⟩
  · rw [h_same, h_lenient] at h
    exact absurd h (by simp)
  · obtain rfl : e = e' := Except.error.inj (h.symm.trans h_error)
    exact ⟨v, h_mem, h_cause⟩

end Rule

/-- **Strict and lenient evaluation.** If no condition that the lenient evaluation visits is
undecidable, the strict one visits the same conditions and has the same verdict. Otherwise it has
visited those before the first undecidable one, and fails for the cause of that one. So a strict
verdict is the lenient one, and a strict error is the cause of a condition that was reached. -/
theorem Evaluation.strict_eq_lenient_cut (record : Record) (r : Rule) :
    let lenient := explain .lenient (some r) record
    let strict := explain .strict (some r) record
    let undecidable (v : Visit) := v.condition.IsUndecidable (record.get? v.condition.name)
    ((∀ v ∈ lenient.visited, ¬undecidable v) →
      evaluateStrictly (some r) record = .ok (evaluate (some r) record) ∧
        strict.visited = lenient.visited) ∧
    (∀ front v back, lenient.visited = front ++ v :: back → (∀ w ∈ front, ¬undecidable w) →
      undecidable v →
      ∃ e, v.condition.UndecidedBy (record.get? v.condition.name) e ∧
        evaluateStrictly (some r) record = .error e ∧ strict.visited = front) ∧
    (∀ b, evaluateStrictly (some r) record = .ok b → evaluate (some r) record = b) ∧
    ∀ e, evaluateStrictly (some r) record = .error e →
      ∃ v ∈ lenient.visited, v.condition.UndecidedBy (record.get? v.condition.name) e := by
  -- the lenient run always comes to a verdict
  have h_verdict : (r.trace .lenient record).outcome = .ok (evaluate (some r) record) := by
    rw [← evaluateUnder_some, evaluateUnder_lenient]
  simp only [explain_some, evaluateStrictly, evaluateUnder_some]
  refine ⟨fun h_all => ?_, fun front v back h_split h_front hv => ?_, fun b h_ok => ?_,
    fun e h_error => Rule.exists_undecidedBy h_error⟩
  · rw [Rule.trace_strict_of_forall h_all]
    exact ⟨h_verdict, rfl⟩
  · obtain ⟨e, h_cause, h_trace⟩ := Rule.trace_strict_of_split h_split h_front hv
    rw [h_trace]
    exact ⟨e, h_cause, rfl, rfl⟩
  · -- a strict verdict is that of a run that was not cut
    rcases Rule.trace_strict_cases record r with h_same | ⟨v, -, e, -, h_error⟩
    · rw [h_same, h_verdict] at h_ok
      exact Except.ok.inj h_ok
    · rw [h_error] at h_ok
      exact absurd h_ok (by simp)

/-- A text where a number is needed stops the strict evaluation, behind a condition that is false and
one that is true, while the lenient one goes on to the right side of `OR`. -/
theorem Evaluation.strict_eq_lenient_cut_unordered :
    let a : Condition := ⟨"a", .equal, .int 1⟩
    let b : Condition := ⟨"b", .greater, .int 2⟩
    let c : Condition := ⟨"a", .equal, .int 0⟩
    let r : Rule := .join .or (.test c) (.join .and (.test a) (.join .or (.test b) (.test a)))
    let record : Record := Directory.insert (Directory.insert ∅ "a" (.int 1)) "b" (.text "x")
    let front : List Visit := [⟨c, some (.int 1), false⟩, ⟨a, some (.int 1), true⟩]
    (explain .lenient (some r) record).visited
        = front ++ ⟨b, some (.text "x"), false⟩ :: [⟨a, some (.int 1), true⟩] ∧
      ∃ e, b.UndecidedBy (record.get? "b") e ∧ evaluateStrictly (some r) record = .error e ∧
        (explain .strict (some r) record).visited = front := by
  intro a b c r record front
  have h_visited : (explain .lenient (some r) record).visited
      = front ++ ⟨b, some (.text "x"), false⟩ :: [⟨a, some (.int 1), true⟩] := by
    rw [explain_some]
    rfl
  exact ⟨h_visited, (Evaluation.strict_eq_lenient_cut record r).2.1 _ _ _ h_visited
    (by decide) (by decide)⟩

end Eligibility
