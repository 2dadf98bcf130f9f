import Eligibility.Proofs.Evaluation.Combine

/-!
# Evaluating on other data

An evaluation looks at the record only under the names that the rule reads, so records that agree on
these are as good as the same (`Rule.trace_congr`).

A record can also be extended by attributes that it does not hold. Rules have no negation, and a
condition whose attribute is missing is false, so more data makes more conditions true and none
false: a lenient verdict that is true stays true (`evaluate_of_extendedBy`). The two evaluations may
go different ways for it, since a condition that has become true opens or closes a right side;
so the verdicts are compared connective by connective, and not the visits.

A strict evaluation that has come to its end has found every attribute that it looked for, and it
finds the same in the extended record. Hence it is the same evaluation, visit by visit, and the only
errors that an extension can mend are those of missing attributes (`Rule.trace_strict_of_extendedBy`).
-/

namespace Eligibility

/-- The records hold the same under these names. -/
def Record.AgreesOn (record : Record) (names : List String) (record' : Record) : Prop :=
  ∀ name ∈ names, record.get? name = record'.get? name

/-- What the record holds, the other one holds as well. -/
def Record.ExtendedBy (record record' : Record) : Prop :=
  ∀ name v, record.get? name = some v → record'.get? name = some v

/-- A new attribute extends a record. -/
theorem Record.extendedBy_insert {record : Record} {name : String} (h : record.get? name = none)
    (v : Value) : record.ExtendedBy (Directory.insert record name v) := by
  intro other w h_get
  rw [Directory.get?_insert, if_neg, h_get]
  rintro rfl
  exact absurd (h.symm.trans h_get) (by simp)

namespace Rule

/-! ### Records that agree -/

/-- **Only the attributes of a rule matter.** -/
theorem trace_congr (policy : Policy) {record record' : Record} {r : Rule}
    (h : ∀ c ∈ r.leaves, record.get? c.name = record'.get? c.name) :
    r.trace policy record = r.trace policy record' := by
  induction r with
  | test c => rw [trace, trace, h c List.mem_cons_self]
  | join op left right ihl ihr =>
    have h_left := ihl fun c hc => h c (List.mem_append_left _ hc)
    have h_right := ihr fun c hc => h c (List.mem_append_right _ hc)
    rw [trace_join, trace_join, h_left, h_right]

theorem trace_of_agreesOn (policy : Policy) {record record' : Record} {r : Rule}
    (h : record.AgreesOn r.attributes record') :
    r.trace policy record = r.trace policy record' := by
  refine trace_congr policy fun c hc => h c.name (mem_attributes_iff.mpr ⟨c, ?_, rfl⟩)
  rwa [conditions_eq_leaves]

/-! ### Records that are extended -/

variable {record record' : Record}

/-- **A strict evaluation that misses no attribute is the same on more data.** -/
theorem trace_strict_of_extendedBy (h : record.ExtendedBy record') {r : Rule}
    (h_found : ∀ name, (r.trace .strict record).outcome ≠ .error (.missingAttribute name)) :
    r.trace .strict record' = r.trace .strict record := by
  induction r with
  | test c =>
    rw [trace, trace]
    cases h_get : record.get? c.name with
    | none =>
      -- the attribute would be the missing one
      refine absurd ?_ (h_found c.name)
      rw [trace, h_get]
      rfl
    | some v => rw [h c.name v h_get]
  | join op left right ihl ihr =>
    rw [trace_join] at h_found ⊢
    rw [trace_join]
    cases h_outcome : (left.trace .strict record).outcome with
    | error e =>
      -- the error of the left side is that of the whole
      have h_left : left.trace .strict record' = left.trace .strict record := by
        refine ihl fun name h_missing => h_found name ?_
        rw [Trace.andThen, h_missing]
      rw [h_left, Trace.andThen, Trace.andThen, h_outcome]
    | ok b =>
      have h_left : left.trace .strict record' = left.trace .strict record := by
        refine ihl fun name h_missing => ?_
        exact absurd (h_outcome.symm.trans h_missing) (by simp)
      rw [Trace.andThen_of_ok h_outcome] at h_found ⊢
      rw [h_left, Trace.andThen_of_ok h_outcome]
      by_cases h_settled : op.settledBy b
      · rw [if_pos h_settled, if_pos h_settled]
      · -- the right side runs, and its outcome is that of the whole
        rw [if_neg h_settled] at h_found
        rw [if_neg h_settled, if_neg h_settled, ihr h_found]

end Rule

variable {record record' : Record}

/-- A condition that is true on a record is true on more data. -/
theorem evaluate_test_of_extendedBy (h : record.ExtendedBy record') {c : Condition}
    (h_true : evaluate (some (.test c)) record = true) :
    evaluate (some (.test c)) record' = true := by
  have h_trace := (Rule.test c).outcome_trace_lenient record
  cases h_get : record.get? c.name with
  | none =>
    -- without its attribute the condition is false
    rw [h_true, Rule.trace, h_get] at h_trace
    exact absurd (Except.ok.inj h_trace) (by decide)
  | some v =>
    have h_same : ∀ d ∈ (Rule.test c).leaves, record.get? d.name = record'.get? d.name := by
      intro d hd
      obtain rfl := List.mem_singleton.mp hd
      rw [h_get, h d.name v h_get]
    rw [Rule.trace_congr .lenient h_same] at h_trace
    rw [← h_true]
    exact Except.ok.inj (((Rule.test c).outcome_trace_lenient record').symm.trans h_trace)

theorem evaluate_and (record : Record) (left right : Rule) :
    evaluate (some (.join .and left right)) record
      = (evaluate (some left) record && evaluate (some right) record) := by
  rw [evaluate_join]
  cases evaluate (some left) record <;> rfl

theorem evaluate_or (record : Record) (left right : Rule) :
    evaluate (some (.join .or left right)) record
      = (evaluate (some left) record || evaluate (some right) record) := by
  rw [evaluate_join]
  cases evaluate (some left) record <;> rfl

/-- **A true verdict stays true on more data.** Both connectives are monotone. -/
theorem evaluate_of_extendedBy (h : record.ExtendedBy record') {r : Rule}
    (h_true : evaluate (some r) record = true) : evaluate (some r) record' = true := by
  induction r with
  | test c => exact evaluate_test_of_extendedBy h h_true
  | join op left right ihl ihr =>
    -- either connective is monotone in both sides
    cases op with
    | and =>
      rw [evaluate_and, Bool.and_eq_true] at h_true ⊢
      exact h_true.imp ihl ihr
    | or =>
      rw [evaluate_or, Bool.or_eq_true] at h_true ⊢
      exact h_true.imp ihl ihr

/-- **Evaluating on other data.** Records that agree on the attributes of the rule give the same
verdicts, errors and visits. On an extended record a lenient verdict that was true stays true, and a
strict verdict stays what it was, with the same visits. What an extension can do is to make a false
verdict true, and to replace a strict error by a verdict. -/
theorem Evaluation.verdict_stable (r : Rule) :
    (∀ (policy : Policy) (record record' : Record), record.AgreesOn r.attributes record' →
      evaluateUnder policy (some r) record = evaluateUnder policy (some r) record' ∧
        evaluate (some r) record = evaluate (some r) record' ∧
        explain policy (some r) record = explain policy (some r) record') ∧
    (∀ record record' : Record, record.ExtendedBy record' →
      (evaluate (some r) record = true → evaluate (some r) record' = true) ∧
      ∀ v, evaluateStrictly (some r) record = .ok v →
        evaluateStrictly (some r) record' = .ok v ∧
          (explain .strict (some r) record').visited = (explain .strict (some r) record).visited) ∧
    ∃ (s : Rule) (record record' : Record) (e : EvalError), record.ExtendedBy record' ∧
      evaluate (some s) record = false ∧ evaluate (some s) record' = true ∧
      evaluateStrictly (some s) record = .error e ∧ evaluateStrictly (some s) record' = .ok true := by
  refine ⟨fun policy record record' h => ?_, fun record record' h => ⟨evaluate_of_extendedBy h,
    fun v h_verdict => ?_⟩, ?_⟩
  · -- what is read is the same, so the traces are the same
    have h_lenient : Except.ok (ε := EvalError) (evaluate (some r) record)
        = .ok (evaluate (some r) record') := by
      rw [← r.outcome_trace_lenient, ← r.outcome_trace_lenient, Rule.trace_of_agreesOn .lenient h]
    rw [evaluateUnder_some, evaluateUnder_some, explain_some, explain_some,
      Rule.trace_of_agreesOn policy h]
    exact ⟨rfl, Except.ok.inj h_lenient, rfl⟩
  · rw [evaluateStrictly, evaluateUnder_some] at h_verdict
    -- the only outcome that an extension may change is a missing attribute, and here is a verdict
    have h_trace : r.trace .strict record' = r.trace .strict record :=
      Rule.trace_strict_of_extendedBy h fun name h_missing =>
        absurd (h_verdict.symm.trans h_missing) (by simp)
    rw [evaluateStrictly, evaluateUnder_some, explain_some, explain_some, h_trace]
    exact ⟨h_verdict, rfl⟩
  · -- a lone condition on an attribute that comes in
    let c : Condition := ⟨"a", .equal, .int 1⟩
    refine ⟨.test c, ∅, Directory.insert ∅ "a" (.int 1), .missingAttribute "a",
      Record.extendedBy_insert rfl _, ?_, ?_, ?_, ?_⟩
    · exact Except.ok.inj (((Rule.test c).outcome_trace_lenient ∅).symm.trans rfl)
    · exact Except.ok.inj (((Rule.test c).outcome_trace_lenient _).symm.trans rfl)
    · rw [evaluateStrictly, evaluateUnder_some]
      rfl
    · rw [evaluateStrictly, evaluateUnder_some]
      rfl

/-- Verdicts that are reached before a missing attribute is looked for stay when that attribute comes
in: a true one behind a condition that is false, and a false one. An attribute that the rule does not
read makes no difference at all. -/
theorem Evaluation.verdict_stable_skipped :
    let a : Condition := ⟨"a", .equal, .int 1⟩
    let b : Condition := ⟨"b", .greater, .int 2⟩
    let c : Condition := ⟨"a", .equal, .int 0⟩
    let r : Rule := .join .or (.test c) (.join .or (.test a) (.test b))
    let s : Rule := .join .and (.test c) (.test b)
    let record : Record := Directory.insert ∅ "a" (.int 1)
    let extended : Record := Directory.insert record "b" (.text "x")
    let other : Record := Directory.insert record "z" (.int 0)
    record.AgreesOn r.attributes other ∧
      explain .strict (some r) record = explain .strict (some r) other ∧
      record.ExtendedBy extended ∧ evaluate (some r) record = true ∧
      evaluate (some r) extended = true ∧ evaluateStrictly (some r) record = .ok true ∧
      evaluateStrictly (some r) extended = .ok true ∧
      (explain .strict (some r) extended).visited
        = [⟨c, some (.int 1), false⟩, ⟨a, some (.int 1), true⟩] ∧
      evaluateStrictly (some s) record = .ok false ∧
      evaluateStrictly (some s) extended = .ok false ∧
      (explain .strict (some s) extended).visited = [⟨c, some (.int 1), false⟩] := by
  intro a b c r s record extended other
  obtain ⟨h_agrees, h_extended, -⟩ := Evaluation.verdict_stable r
  -- the added attribute is none that the rule reads
  have h_other : record.AgreesOn r.attributes other := by
    intro name h_name
    have h_read : name = "a" ∨ name = "b" := by
      obtain ⟨d, hd, rfl⟩ := Rule.mem_attributes_iff.mp h_name
      rw [Rule.conditions_eq_leaves] at hd
      have h_leaf : d = c ∨ d = a ∨ d = b := by simpa [r, Rule.leaves] using hd
      rcases h_leaf with rfl | rfl | rfl
      · exact .inl rfl
      · exact .inl rfl
      · exact .inr rfl
    rcases h_read with rfl | rfl <;> decide
  -- the attribute that is added is read by the rule, but only by a condition that is skipped
  have h_new : record.ExtendedBy extended := Record.extendedBy_insert rfl _
  have h_true : evaluate (some r) record = true :=
    Except.ok.inj ((r.outcome_trace_lenient record).symm.trans rfl)
  have h_strict : evaluateStrictly (some r) record = .ok true := by
    rw [evaluateStrictly, evaluateUnder_some]
    rfl
  have h_false : evaluateStrictly (some s) record = .ok false := by
    rw [evaluateStrictly, evaluateUnder_some]
    rfl
  obtain ⟨h_again, h_visits⟩ := (h_extended record extended h_new).2 true h_strict
  obtain ⟨h_again', h_visits'⟩ :=
    ((Evaluation.verdict_stable s).2.1 record extended h_new).2 false h_false
  refine ⟨h_other, (h_agrees .strict record other h_other).2.2, h_new, h_true,
    (h_extended record extended h_new).1 h_true, h_strict, h_again, h_visits.trans ?_,
    h_false, h_again', h_visits'.trans ?_⟩
  · rw [explain_some]
    rfl
  · rw [explain_some]
    rfl

end Eligibility
