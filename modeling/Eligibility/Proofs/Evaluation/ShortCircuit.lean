import Eligibility.Evaluation.Report
import Eligibility.Proofs.Rule.Walk

/-!
# Evaluation is short-circuit evaluation

What a rule means is said by recursion on it: `Rule.trace` is its outcome together with the
conditions that are decided for it. A condition is decided once; `AND` goes on to its right side
after a true left side and `OR` after a false one; and an error is the end of it.

The evaluation that runs has a stack of connectives instead, and when a right side takes the place
of its connective, the stack forgets that there was one. What relates the two is `Evaluation.owed`,
the rest of the recursion as the stack has it: what the waiting connectives make of a value that
comes up to them. Descending into a rule is then its trace followed by what is owed (`descend_eq`),
for any stack and any visitor.

From the recursion it is plain that the visited conditions are some of the rule's, in order, and
that a verdict is the result of the last of them (`Rule.visits_sublist`, `Rule.getLast?_visits`).
-/

namespace Eligibility

/-- An outcome and the conditions that were decided on the way. -/
structure Trace where
  outcome : Except EvalError Bool
  visits : List Visit

namespace Trace

/-- Goes on with the value, if there is one. -/
def andThen (t : Trace) (next : Bool → Trace) : Trace :=
  match t.outcome with
  | .ok b => ⟨(next b).outcome, t.visits ++ (next b).visits⟩
  | .error e => ⟨.error e, t.visits⟩

/-- A value that needs no condition. -/
def value (b : Bool) : Trace := ⟨.ok b, []⟩

theorem andThen_value (t : Trace) : t.andThen value = t := by
  obtain ⟨outcome, visits⟩ := t
  cases outcome with
  | ok b => simp only [andThen, value, List.append_nil]
  | error e => rfl

theorem andThen_assoc (t : Trace) (next last : Bool → Trace) :
    (t.andThen next).andThen last = t.andThen fun b => (next b).andThen last := by
  obtain ⟨outcome, visits⟩ := t
  cases outcome with
  | error e => rfl
  | ok b =>
    unfold andThen
    simp only
    cases (next b).outcome with
    | error e => rfl
    | ok b' => simp only [List.append_assoc]

/-- The outcome, and what a visitor makes of the conditions. -/
def replay {σ : Type} (t : Trace) (visit : σ → Visit → σ) (state : σ) :
    Except EvalError Bool × σ :=
  (t.outcome, t.visits.foldl visit state)

end Trace

/-- **The meaning of a rule**: conditions are decided from left to right, and a right side only if
the left side leaves the connective open. -/
def Rule.trace (policy : Policy) (record : Record) : Rule → Trace
  | .test c =>
    match c.decideUnder policy (record.get? c.name) with
    | .ok b => ⟨.ok b, [⟨c, record.get? c.name, b⟩]⟩
    | .error e => ⟨.error e, []⟩
  | .join .and left right =>
    (left.trace policy record).andThen fun b =>
      if b then right.trace policy record else .value false
  | .join .or left right =>
    (left.trace policy record).andThen fun b =>
      if b then .value true else right.trace policy record

theorem Rule.trace_join (policy : Policy) (record : Record) (op : Connective) (left right : Rule) :
    (Rule.join op left right).trace policy record
      = (left.trace policy record).andThen fun b =>
          if op.settledBy b then .value b else right.trace policy record := by
  -- the two connectives differ only in the verdict that settles them
  cases op with
  | and =>
    rw [Rule.trace]
    congr 1
    funext b
    cases b <;> rfl
  | or =>
    rw [Rule.trace]
    congr 1
    funext b
    cases b <;> rfl

namespace Evaluation

variable {σ : Type} (policy : Policy) (record : Record) (visit : σ → Visit → σ)

/-! ### What is owed to the stack -/

/-- What the waiting connectives make of a value, the innermost first. -/
def owed : List (Connective × Rule) → Bool → Trace
  | [], b => .value b
  | (op, right) :: waiting, b =>
    if op.settledBy b then owed waiting b
    else (right.trace policy record).andThen (owed waiting)

/-- A value that comes up settles connectives until a right side has to run, and after that right
side the rest is still owed. -/
theorem owed_cons (op : Connective) (right : Rule) (waiting : List (Connective × Rule)) (b : Bool) :
    owed policy record ((op, right) :: waiting) b
      = (if op.settledBy b then Trace.value b else right.trace policy record).andThen
          (owed policy record waiting) := by
  rw [owed]
  split
  · rfl
  · rfl

/-- Descending is right if ascending on the same stack is. -/
theorem descend_eq_of_ascend_eq {waiting : List (Connective × Rule)}
    (h : ∀ (b : Bool) (state : σ), ascend policy record visit b waiting state
      = (owed policy record waiting b).replay visit state) (r : Rule) (state : σ) :
    descend policy record visit r waiting state
      = ((r.trace policy record).andThen (owed policy record waiting)).replay visit state := by
  -- for any stack, as the left side runs on one that is longer
  induction r generalizing waiting state with
  | test c =>
    rw [descend, Rule.trace]
    cases c.decideUnder policy (record.get? c.name) with
    -- an error goes past all that wait
    | error e => rfl
    | ok b =>
      simp only
      rw [h]
      rfl
  | join op left right ihl ihr =>
    -- the left side runs on a stack with one more connective, which asks for the right side
    have h_waiting : ∀ (b : Bool) (state : σ),
        ascend policy record visit b ((op, right) :: waiting) state
          = (owed policy record ((op, right) :: waiting) b).replay visit state := by
      intro b state
      rw [ascend, owed]
      split
      · exact h b state
      · exact ihr h state
    rw [descend, ihl h_waiting, Rule.trace_join, Trace.andThen_assoc]
    congr 2
    funext b
    exact owed_cons policy record op right waiting b

/-- Ascending hands the value to what is owed. -/
theorem ascend_eq (waiting : List (Connective × Rule)) (b : Bool) (state : σ) :
    ascend policy record visit b waiting state
      = (owed policy record waiting b).replay visit state := by
  -- on the stack, which is shorter whenever a connective is settled or its right side runs
  induction waiting generalizing b state with
  | nil =>
    rw [ascend]
    rfl
  | cons w waiting ih =>
    obtain ⟨op, right⟩ := w
    rw [ascend, owed]
    split
    · exact ih b state
    · -- the right side runs on what is left of the stack, where ascending is right already
      exact descend_eq_of_ascend_eq policy record visit ih right state

/-- **The stack machine computes the recursion**, on any stack and for any visitor. -/
theorem descend_eq (r : Rule) (waiting : List (Connective × Rule)) (state : σ) :
    descend policy record visit r waiting state
      = ((r.trace policy record).andThen (owed policy record waiting)).replay visit state :=
  descend_eq_of_ascend_eq policy record visit (ascend_eq policy record visit waiting) r state

theorem run_some (r : Rule) (state : σ) :
    run policy record visit (some r) state = (r.trace policy record).replay visit state := by
  rw [run, descend_eq]
  congr 1
  exact Trace.andThen_value _

end Evaluation

/-! ### Visited conditions -/

theorem Rule.visits_sublist (policy : Policy) (record : Record) (r : Rule) :
    ((r.trace policy record).visits.map Visit.condition).Sublist r.leaves := by
  induction r with
  | test c =>
    rw [Rule.trace]
    cases c.decideUnder policy (record.get? c.name) with
    | error e => exact List.nil_sublist _
    | ok b => exact List.Sublist.refl _
  | join op left right ihl ihr =>
    rw [Rule.trace_join, Rule.leaves]
    unfold Trace.andThen
    cases (left.trace policy record).outcome with
    | error e => exact ihl.trans (List.sublist_append_left _ _)
    | ok b =>
      simp only [List.map_append]
      -- the left side has visited its own conditions, and the right side its own or none
      refine ihl.append ?_
      split
      · exact List.nil_sublist _
      · exact ihr

/-- A verdict is the result of the condition that was decided last. -/
theorem Rule.getLast?_visits (policy : Policy) (record : Record) (r : Rule) {v : Bool}
    (h : (r.trace policy record).outcome = .ok v) :
    (r.trace policy record).visits.getLast?.map Visit.result = some v := by
  induction r generalizing v with
  | test c =>
    rw [Rule.trace] at h ⊢
    -- a lone condition that has a verdict is itself the last one decided
    cases h_decide : c.decideUnder policy (record.get? c.name) with
    | error e =>
      rw [h_decide] at h
      exact absurd h (by simp)
    | ok b =>
      rw [h_decide] at h
      exact congrArg some (Except.ok.inj h)
  | join op left right ihl ihr =>
    rw [Rule.trace_join, Trace.andThen] at h ⊢
    cases h_left : (left.trace policy record).outcome with
    | error e =>
      rw [h_left] at h
      exact absurd h (by simp)
    | ok b =>
      rw [h_left] at h
      simp only at h ⊢
      by_cases h_settled : op.settledBy b
      · -- the left side is all that was decided
        rw [if_pos h_settled] at h ⊢
        obtain rfl : b = v := Except.ok.inj h
        rw [Trace.value, List.append_nil]
        exact ihl h_left
      · -- the right side was decided last
        rw [if_neg h_settled] at h ⊢
        obtain ⟨last, h_last, h_result⟩ := Option.map_eq_some_iff.mp (ihr h)
        rw [List.getLast?_append, h_last, Option.some_or, Option.map_some, h_result]

/-! ### Policies and reports -/

theorem Condition.exists_decideUnder_lenient (c : Condition) (observed : Option Value) :
    ∃ b, c.decideUnder .lenient observed = .ok b := by
  unfold decideUnder
  cases c.decideStrictly observed with
  | error e => exact ⟨false, rfl⟩
  | ok b => exact ⟨b, rfl⟩

/-- A lenient evaluation does not fail. -/
theorem Rule.exists_trace_lenient (record : Record) (r : Rule) :
    ∃ b, (r.trace .lenient record).outcome = .ok b := by
  induction r with
  | test c =>
    obtain ⟨b, h_decide⟩ := c.exists_decideUnder_lenient (record.get? c.name)
    rw [Rule.trace, h_decide]
    exact ⟨b, rfl⟩
  | join op left right ihl ihr =>
    obtain ⟨b, h_left⟩ := ihl
    -- the left side has a value, and so has the right side if it runs
    rw [Rule.trace_join, Trace.andThen, h_left]
    simp only
    split
    · exact ⟨b, rfl⟩
    · exact ihr

theorem foldl_collect (visits : List Visit) :
    visits.foldl (fun vs v => v :: vs) [] = visits.reverse := by
  rw [← List.foldr_reverse]
  exact List.foldr_cons_nil

/-- A report holds the trace of the rule. -/
theorem explain_some (policy : Policy) (record : Record) (r : Rule) :
    explain policy (some r) record
      = ⟨(r.trace policy record).outcome, (r.trace policy record).visits⟩ := by
  unfold explain
  rw [Evaluation.run_some, Trace.replay, foldl_collect]
  simp only [List.reverse_reverse]

theorem evaluateUnder_some (policy : Policy) (record : Record) (r : Rule) :
    evaluateUnder policy (some r) record = (r.trace policy record).outcome := by
  unfold evaluateUnder
  rw [Evaluation.run_some]
  rfl

/-- A report has the outcome of the evaluation, also where there is no rule. -/
theorem outcome_explain (policy : Policy) (rule : Option Rule) (record : Record) :
    (explain policy rule record).outcome = evaluateUnder policy rule record := by
  cases rule with
  | none => rfl
  | some r => rw [explain_some, evaluateUnder_some]

theorem evaluateUnder_lenient (rule : Option Rule) (record : Record) :
    evaluateUnder .lenient rule record = .ok (evaluate rule record) := by
  cases rule with
  | none => rfl
  | some r =>
    obtain ⟨b, h_outcome⟩ := r.exists_trace_lenient record
    rw [evaluate, evaluateUnder_some, h_outcome]

/-- **Evaluation is short-circuit evaluation.** For any visitor, the run has the outcome of the
recursive semantics and visits the same conditions in the same order, with what the record held and
the result of each. A report has the outcome of the evaluation. The visited conditions are some of
the rule's, in their order, and a verdict is the result of the last of them. -/
theorem Evaluation.run_eq_trace (policy : Policy) (record : Record) (r : Rule) :
    (∀ {σ : Type} (visit : σ → Visit → σ) (state : σ),
      run policy record visit (some r) state
        = ((r.trace policy record).outcome, (r.trace policy record).visits.foldl visit state)) ∧
    explain policy (some r) record
      = ⟨(r.trace policy record).outcome, (r.trace policy record).visits⟩ ∧
    (∀ rule, (explain .lenient rule record).outcome = .ok (evaluate rule record)) ∧
    (∀ rule, (explain .strict rule record).outcome = evaluateStrictly rule record) ∧
    ((explain policy (some r) record).visited.map Visit.condition).Sublist r.conditions ∧
    ∀ v, (explain policy (some r) record).outcome = .ok v →
      (explain policy (some r) record).visited.getLast?.map Visit.result = some v := by
  refine ⟨fun visit state => run_some policy record visit r state, explain_some policy record r,
    fun rule => ?_, fun rule => outcome_explain .strict rule record, ?_, fun v h => ?_⟩
  · rw [outcome_explain, evaluateUnder_lenient]
  · -- what is skipped is left out, and the rest is in the order of the rule
    rw [explain_some, Rule.conditions_eq_leaves]
    exact r.visits_sublist policy record
  · rw [explain_some] at h ⊢
    exact r.getLast?_visits policy record h

/-- A group to the right of `AND` that stops at its first true side. -/
theorem Evaluation.run_eq_trace_nested :
    let a : Condition := ⟨"a", .equal, .int 1⟩
    let b : Condition := ⟨"b", .equal, .int 2⟩
    let r : Rule := .join .and (.test a) (.join .or (.test b) (.test a))
    let record : Record := Directory.insert (Directory.insert ∅ "a" (.int 1)) "b" (.int 2)
    (explain .strict (some r) record).outcome = .ok true ∧
      (explain .strict (some r) record).visited.getLast?.map Visit.result = some true := by
  intro a b r record
  have h_outcome : (explain .strict (some r) record).outcome = .ok true := by
    rw [explain_some]
    rfl
  exact ⟨h_outcome, (Evaluation.run_eq_trace .strict record r).2.2.2.2.2 true h_outcome⟩

end Eligibility
