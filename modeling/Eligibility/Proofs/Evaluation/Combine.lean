import Eligibility.Proofs.Evaluation.Strictness
import Eligibility.Proofs.Rule.Combine

/-!
# Evaluating combined rules

Combining many rules makes one deep rule, and evaluating it is the same as running the rules one
after the other until the connective is settled or an error comes up (`Evaluation.explain_combine`).
`Evaluation.inTurn` is this run, put together from the reports on the single rules.

The evaluation of the deep rule goes down its left spine first, past all of its connectives. What
then waits on the stack are the later rules, in order and all under one connective, and what is owed
to such a stack is the run over these rules (`Rule.trace_foldl_join`).

The second half is about grouping and order. Sequencing of traces is associative, and a value that
settles the inner of two equal connectives settles the outer one. So regrouping a rule, at any depth
and any number of times, changes nothing at all: neither the verdict nor the error nor what is
visited (`Rule.Regroups.trace_eq`). Order does matter to what is visited and to which error comes
up, but not to the lenient verdict, and so not to two strict verdicts either.
-/

namespace Eligibility

/-- A trace as a report. -/
def Trace.report (t : Trace) : Report := ⟨t.outcome, t.visits⟩

theorem explain_eq_report (policy : Policy) (record : Record) (r : Rule) :
    explain policy (some r) record = (r.trace policy record).report :=
  explain_some policy record r

namespace Evaluation

variable (policy : Policy) (record : Record)

/-! ### One rule after the other -/

/-- Is a run over rules at its end with this outcome of one of them? So it is with an error, with a
false rule under `AND` and with a true one under `OR`. -/
def isLast (op : Connective) : Except EvalError Bool → Bool
  | .error _ => true
  | .ok b =>
    match op with
    | .and => !b
    | .or => b

/-- Runs rules from left to right, each on its own, until one of them is the last. The conditions
that those visited which were run are put together. No rules are false. -/
def inTurn (op : Connective) : List Rule → Report
  | [] => ⟨.ok false, []⟩
  | [r] => explain policy (some r) record
  | r :: s :: rs =>
    let first := explain policy (some r) record
    if isLast op first.outcome then first
    else
      let others := inTurn op (s :: rs)
      ⟨others.outcome, first.visited ++ others.visited⟩

/-- A value that settles a connective settles all of them, whatever their right sides are. -/
theorem owed_settled {op : Connective} {b : Bool} (h : op.settledBy b) (rs : List Rule) :
    owed policy record (rs.map (Prod.mk op)) b = .value b := by
  induction rs with
  | nil => rfl
  | cons r rs ih => rw [List.map_cons, owed, if_pos h, ih]

/-- **The left spine.** The trace of rules joined from the left is that of the first one, and then
what is owed to a stack that holds the others. -/
theorem trace_foldl_join (op : Connective) (r : Rule) (rs : List Rule) :
    (rs.foldl (Rule.join op) r).trace policy record
      = (r.trace policy record).andThen (owed policy record (rs.map (Prod.mk op))) := by
  induction rs generalizing r with
  | nil => exact (Trace.andThen_value _).symm
  | cons s rs ih =>
    rw [List.foldl_cons, ih, Rule.trace_join, Trace.andThen_assoc]
    congr 1
    funext b
    exact (owed_cons policy record op s _ b).symm

/-- The run over rules is the trace of the rule that they are combined into. -/
theorem inTurn_cons (op : Connective) (r : Rule) (rs : List Rule) :
    inTurn policy record op (r :: rs)
      = ((rs.foldl (Rule.join op) r).trace policy record).report := by
  rw [trace_foldl_join]
  induction rs generalizing r with
  | nil =>
    rw [inTurn, explain_eq_report]
    exact congrArg Trace.report (Trace.andThen_value _).symm
  | cons s rs ih =>
    rw [inTurn, ih, explain_eq_report]
    -- the first rule fails, or it settles the connective, or the others are run
    cases h_first : (r.trace policy record).outcome with
    | error e =>
      simp only [Trace.report, h_first, isLast, if_true, Trace.andThen]
    | ok b =>
      rw [Trace.andThen_of_ok h_first]
      have h_last : isLast op (.ok b) = op.settledBy b := by
        cases op <;> rfl
      simp only [Trace.report, h_first, h_last]
      by_cases h_settled : op.settledBy b
      · rw [owed_settled policy record h_settled, if_pos h_settled, Trace.value, List.append_nil]
      · rw [List.map_cons, owed, if_neg h_settled, if_neg h_settled]

theorem explain_combine_eq_inTurn (op : Connective) (rs : List Rule) :
    explain policy (Rule.combine op rs) record = inTurn policy record op rs := by
  cases rs with
  | nil => rfl
  | cons r rs => rw [inTurn_cons, Rule.combine, explain_eq_report]

end Evaluation

/-! ### Lenient verdicts -/

/-- All values under `AND`, and any of them under `OR`. -/
def Connective.overall (op : Connective) (values : List Bool) : Bool :=
  match op with
  | and => values.all id
  | or => values.any id

theorem Connective.overall_cons (op : Connective) (b : Bool) (bs : List Bool) :
    op.overall (b :: bs) = if op.settledBy b then b else op.overall bs := by
  cases op <;> cases b <;> rfl

theorem Connective.overall_perm (op : Connective) {bs cs : List Bool} (h : bs.Perm cs) :
    op.overall bs = op.overall cs := by
  cases op with
  | and => exact h.all_eq
  | or => exact h.any_eq

theorem Rule.outcome_trace_lenient (record : Record) (r : Rule) :
    (r.trace .lenient record).outcome = .ok (evaluate (some r) record) := by
  rw [← evaluateUnder_some, evaluateUnder_lenient]

/-- The verdict on a joined rule is that on its left side, unless this leaves it open. -/
theorem evaluate_join (record : Record) (op : Connective) (left right : Rule) :
    evaluate (some (.join op left right)) record
      = if op.settledBy (evaluate (some left) record) then evaluate (some left) record
        else evaluate (some right) record := by
  refine Except.ok.inj (ε := EvalError) ?_
  rw [← Rule.outcome_trace_lenient, Rule.trace_join,
    Trace.andThen_of_ok (left.outcome_trace_lenient record)]
  split
  · rfl
  · exact right.outcome_trace_lenient record

/-- The lenient verdict on combined rules is that on all of them, or on any of them. -/
theorem evaluate_combine (record : Record) (op : Connective) {rs : List Rule} (h : rs ≠ []) :
    evaluate (Rule.combine op rs) record
      = op.overall (rs.map fun r => evaluate (some r) record) := by
  obtain ⟨r, rs, rfl⟩ := List.exists_cons_of_ne_nil h
  clear h
  rw [Rule.combine]
  induction rs generalizing r with
  | nil =>
    rw [List.foldl_nil, List.map_singleton, Connective.overall_cons]
    cases op <;> cases evaluate (some r) record <;> rfl
  | cons s rs ih =>
    -- the first two rules count as one
    rw [List.foldl_cons, ih, List.map_cons, List.map_cons, List.map_cons, Connective.overall_cons,
      Connective.overall_cons, Connective.overall_cons, evaluate_join]
    by_cases h_settled : op.settledBy (evaluate (some r) record)
    · rw [if_pos h_settled, if_pos h_settled, if_pos h_settled]
    · rw [if_neg h_settled, if_neg h_settled]

/-- **Evaluating combined rules** is running them in turn: the report has the outcome of that run,
and it tells of the same conditions. The lenient verdict is that on all or on any of the rules. The
combined rule has the conditions of all the rules, in order, and one joint for every rule after the
first. -/
theorem Evaluation.explain_combine (policy : Policy) (record : Record) (op : Connective)
    (rs : List Rule) :
    explain policy (Rule.combine op rs) record = inTurn policy record op rs ∧
    evaluateUnder policy (Rule.combine op rs) record = (inTurn policy record op rs).outcome ∧
    (rs ≠ [] →
      evaluate (Rule.combine op rs) record
        = op.overall (rs.map fun r => evaluate (some r) record) ∧
      ∃ r, Rule.combine op rs = some r ∧ r.conditions = rs.flatMap Rule.conditions ∧
        r.operatorCount = (rs.map Rule.operatorCount).sum + (rs.length - 1)) := by
  refine ⟨explain_combine_eq_inTurn policy record op rs, ?_,
    fun h => ⟨evaluate_combine record op h, Rule.exists_combine op h⟩⟩
  rw [← outcome_explain, explain_combine_eq_inTurn]

/-- Three rules, of which the second is itself joined and the last asks for an attribute that the
record does not hold. Under `OR` the second one is true and the last one is not run. Under `AND`, and
with the first one put behind it, the last one stops a strict evaluation. -/
theorem Evaluation.explain_combine_three :
    let a : Condition := ⟨"a", .equal, .int 1⟩
    let b : Condition := ⟨"b", .equal, .int 2⟩
    let c : Condition := ⟨"c", .greater, .int 0⟩
    let both : Rule := .join .and (.test a) (.test a)
    let rs : List Rule := [.test b, both, .test c]
    let record : Record := Directory.insert (Directory.insert ∅ "a" (.int 1)) "b" (.int 3)
    let true_a : Visit := ⟨a, some (.int 1), true⟩
    explain .strict (Rule.combine .or rs) record
        = ⟨.ok true, [⟨b, some (.int 3), false⟩, true_a, true_a]⟩ ∧
      explain .strict (Rule.combine .and [both, .test c, .test b]) record
        = ⟨.error (.missingAttribute "c"), [true_a, true_a]⟩ ∧
      evaluateUnder .strict (Rule.combine .and [both, .test c, .test b]) record
        = .error (.missingAttribute "c") ∧
      rs ≠ [] ∧ evaluate (Rule.combine .or rs) record = true ∧
      evaluate (Rule.combine .and rs) record = false ∧
      ∃ r, Rule.combine .or rs = some r ∧
        r.conditions.map Condition.name = ["b", "a", "a", "c"] ∧ r.operatorCount = 3 := by
  intro a b c both rs record true_a
  have h_ne : rs ≠ [] := List.cons_ne_nil _ _
  obtain ⟨h_verdict, r, h_some, h_conditions, h_count⟩ :=
    (Evaluation.explain_combine .lenient record .or rs).2.2 h_ne
  have h_verdict' := ((Evaluation.explain_combine .lenient record .and rs).2.2 h_ne).1
  have h_or := (Evaluation.explain_combine .strict record .or rs).1
  obtain ⟨h_and, h_error, -⟩ :=
    Evaluation.explain_combine .strict record .and [both, .test c, .test b]
  -- the runs over the single rules
  have h_stopped : Evaluation.inTurn .strict record .and [both, .test c, .test b]
      = ⟨.error (.missingAttribute "c"), [true_a, true_a]⟩ := by
    simp only [Evaluation.inTurn, explain_some]
    rfl
  have ha : evaluate (some (.test a)) record = true :=
    Except.ok.inj (((Rule.test a).outcome_trace_lenient record).symm.trans rfl)
  have hb : evaluate (some (.test b)) record = false :=
    Except.ok.inj (((Rule.test b).outcome_trace_lenient record).symm.trans rfl)
  refine ⟨h_or.trans ?_, h_and.trans h_stopped, h_error.trans ?_, h_ne, h_verdict.trans ?_,
    h_verdict'.trans ?_, r, h_some, ?_, h_count.trans ?_⟩
  · simp only [rs, Evaluation.inTurn, explain_some]
    rfl
  · rw [h_stopped]
  · simp only [rs, both, List.map_cons, List.map_nil, evaluate_join, ha, hb]
    rfl
  · simp only [rs, both, List.map_cons, List.map_nil, evaluate_join, ha, hb]
    rfl
  · rw [h_conditions]
    simp only [rs, List.flatMap_cons, Rule.conditions_eq_leaves]
    rfl
  · simp only [rs, both, List.map_cons, List.map_nil, Rule.operatorCount_join,
      Rule.operatorCount_test]
    rfl

/-! ### Grouping -/

namespace Rule

/-- The rules are the same up to grouping: a joint inside of another one of the same connective may
change sides, at any place and any number of times. -/
inductive Regroups : Rule → Rule → Prop
  | assoc (op : Connective) (a b c : Rule) :
      Regroups (.join op (.join op a b) c) (.join op a (.join op b c))
  | left {op : Connective} {r s other : Rule} (h : Regroups r s) :
      Regroups (.join op r other) (.join op s other)
  | right {op : Connective} {r s other : Rule} (h : Regroups r s) :
      Regroups (.join op other r) (.join op other s)
  | refl (r : Rule) : Regroups r r
  | symm {r s : Rule} (h : Regroups r s) : Regroups s r
  | trans {r s t : Rule} (h : Regroups r s) (h' : Regroups s t) : Regroups r t

/-- A value that settles the inner joint settles the outer one, and if it does not, the outer joint
sees the value of the second side either way. -/
theorem trace_assoc (policy : Policy) (record : Record) (op : Connective) (a b c : Rule) :
    (join op (join op a b) c).trace policy record
      = (join op a (join op b c)).trace policy record := by
  rw [trace_join, trace_join, trace_join, Trace.andThen_assoc]
  congr 1
  funext v
  by_cases h : op.settledBy v
  · rw [if_pos h, if_pos h]
    -- the value passes the outer joint, with nothing visited
    show Trace.andThen (.value v) _ = _
    rw [Trace.value, Trace.andThen_of_ok rfl, if_pos h]
    rfl
  · rw [if_neg h, if_neg h, trace_join]

/-- **Grouping has no meaning**: regrouped rules have the same trace. -/
theorem Regroups.trace_eq {r s : Rule} (h : r.Regroups s) (policy : Policy) (record : Record) :
    r.trace policy record = s.trace policy record := by
  induction h with
  | assoc op a b c => exact trace_assoc policy record op a b c
  | left _ ih => rw [trace_join, trace_join, ih]
  | right _ ih => rw [trace_join, trace_join, ih]
  | refl => rfl
  | symm _ ih => exact ih.symm
  | trans _ _ ih ih' => exact ih.trans ih'

/-- What stands in front of the rules that are joined to it can be regrouped. -/
theorem Regroups.foldl_join {r s : Rule} (h : r.Regroups s) (op : Connective) (rs : List Rule) :
    (rs.foldl (join op) r).Regroups (rs.foldl (join op) s) := by
  induction rs generalizing r s with
  | nil => exact h
  | cons t rs ih => exact ih (.left h)

/-- Rules that are joined from the left one by one can as well be joined on their own first. -/
theorem regroups_foldl_join (op : Connective) (r s : Rule) (rs : List Rule) :
    (join op r (rs.foldl (join op) s)).Regroups ((s :: rs).foldl (join op) r) := by
  induction rs generalizing s with
  | nil => exact .refl _
  | cons t rs ih =>
    -- `s` and `t` are joined first, and then `r` and `s` instead
    exact (ih (join op s t)).trans (Regroups.foldl_join (.symm (.assoc op r s t)) op rs)

/-- Two combined rules, combined, are all the rules combined, up to grouping. -/
theorem exists_combine_append (op : Connective) {rs ss : List Rule} (hr : rs ≠ []) (hs : ss ≠ []) :
    ∃ r s all, combine op rs = some r ∧ combine op ss = some s ∧
      combine op (rs ++ ss) = some all ∧ (join op r s).Regroups all := by
  obtain ⟨r, rs, rfl⟩ := List.exists_cons_of_ne_nil hr
  obtain ⟨s, ss, rfl⟩ := List.exists_cons_of_ne_nil hs
  refine ⟨_, _, (s :: ss).foldl (join op) (rs.foldl (join op) r), rfl, rfl, ?_,
    regroups_foldl_join op _ s ss⟩
  rw [List.cons_append, combine, List.foldl_append]

end Rule

theorem explain_eq_of_regroups {r s : Rule} (h : r.Regroups s) (policy : Policy)
    (record : Record) : explain policy (some r) record = explain policy (some s) record := by
  rw [explain_eq_report, explain_eq_report, h.trace_eq]

/-! ### Order -/

/-- Order does not show in the lenient verdict. -/
theorem evaluate_combine_perm (record : Record) (op : Connective) {rs ss : List Rule}
    (h : rs.Perm ss) :
    evaluate (Rule.combine op rs) record = evaluate (Rule.combine op ss) record := by
  by_cases hr : rs = []
  · subst hr
    rw [h.nil_eq]
  · have hs : ss ≠ [] := fun hs => hr (hs ▸ h).eq_nil
    rw [evaluate_combine record op hr, evaluate_combine record op hs]
    exact op.overall_perm (h.map _)

/-- A strict verdict is the lenient one. -/
theorem evaluate_of_evaluateStrictly {record : Record} {rule : Option Rule} {b : Bool}
    (h : evaluateStrictly rule record = .ok b) : evaluate rule record = b := by
  cases rule with
  | none => exact Except.ok.inj h
  | some r =>
    rw [evaluateStrictly, evaluateUnder_some] at h
    rcases Rule.trace_strict_cases record r with h_same | ⟨v, -, e, -, h_error⟩
    · rw [h_same, Rule.outcome_trace_lenient] at h
      exact Except.ok.inj h
    · rw [h_error] at h
      exact absurd h (by simp)

/-- **Grouping and order.** Rules that are the same up to grouping have the same report under either
policy, with the same outcome and the same visits. So it is no matter whether rules are combined at
once or in two parts. In any order, combined rules have the same lenient verdict, and the same
strict one where both orders have one. -/
theorem Evaluation.explain_regrouped :
    (∀ r s : Rule, r.Regroups s → ∀ (policy : Policy) (record : Record),
      explain policy (some r) record = explain policy (some s) record ∧
      evaluateUnder policy (some r) record = evaluateUnder policy (some s) record) ∧
    (∀ (op : Connective) (rs ss : List Rule), rs ≠ [] → ss ≠ [] → ∃ r s,
      Rule.combine op rs = some r ∧ Rule.combine op ss = some s ∧
      ∀ (policy : Policy) (record : Record),
        explain policy (Rule.combine op [r, s]) record
          = explain policy (Rule.combine op (rs ++ ss)) record) ∧
    ∀ (op : Connective) (rs ss : List Rule), rs.Perm ss → ∀ record : Record,
      evaluate (Rule.combine op rs) record = evaluate (Rule.combine op ss) record ∧
      ∀ v w, evaluateStrictly (Rule.combine op rs) record = .ok v →
        evaluateStrictly (Rule.combine op ss) record = .ok w → v = w := by
  refine ⟨fun r s h policy record => ?_, fun op rs ss hr hs => ?_, fun op rs ss h record => ?_⟩
  · have h_explain := explain_eq_of_regroups h policy record
    refine ⟨h_explain, ?_⟩
    rw [← outcome_explain, ← outcome_explain, h_explain]
  · -- the two parts joined are the whole, grouped in another way
    obtain ⟨r, s, all, h_left, h_right, h_all, h_regroups⟩ := Rule.exists_combine_append op hr hs
    refine ⟨r, s, h_left, h_right, fun policy record => ?_⟩
    rw [h_all]
    exact explain_eq_of_regroups h_regroups policy record
  · -- the order shows in the report, but neither in the lenient verdict nor in a strict one
    have h_verdict := evaluate_combine_perm record op h
    refine ⟨h_verdict, fun v w hv hw => ?_⟩
    rw [← evaluate_of_evaluateStrictly hv, ← evaluate_of_evaluateStrictly hw, h_verdict]

/-- An inner joint of `AND` changes sides to the right of `OR`, and strict evaluation stops at the same
attribute that the record does not hold. Rules that change places have one verdict where they have
any, but in another order the missing attribute may come first. -/
theorem Evaluation.explain_regrouped_inner :
    let a : Condition := ⟨"a", .equal, .int 1⟩
    let b : Condition := ⟨"b", .greater, .int 2⟩
    let c : Condition := ⟨"c", .equal, .int 2⟩
    let r : Rule := .join .or (.test c) (.join .and (.join .and (.test a) (.test b)) (.test c))
    let s : Rule := .join .or (.test c) (.join .and (.test a) (.join .and (.test b) (.test c)))
    let rs : List Rule := [.test a, .test b, .test c]
    let ss : List Rule := [.test c, .test a, .test b]
    let record : Record := Directory.insert (Directory.insert ∅ "a" (.int 1)) "c" (.int 3)
    let stopped : Report :=
      ⟨.error (.missingAttribute "b"), [⟨c, some (.int 3), false⟩, ⟨a, some (.int 1), true⟩]⟩
    r.Regroups s ∧ explain .strict (some s) record = stopped ∧
      explain .strict (some r) record = stopped ∧ rs.Perm ss ∧
      evaluate (Rule.combine .or rs) record = evaluate (Rule.combine .or ss) record ∧
      evaluateStrictly (Rule.combine .or rs) record = .ok true ∧
      evaluateStrictly (Rule.combine .or ss) record = .ok true ∧
      evaluateStrictly (Rule.combine .or [.test b, .test a]) record
        = .error (.missingAttribute "b") := by
  intro a b c r s rs ss record stopped
  have h_regroups : r.Regroups s := .right (.assoc .and (.test a) (.test b) (.test c))
  have h_perm : rs.Perm ss := .trans (.cons _ (.swap _ _ [])) (.swap _ _ _)
  obtain ⟨h_grouping, -, h_order⟩ := Evaluation.explain_regrouped
  -- the missing attribute ends the run, with the two conditions in front of it in the report
  have h_stopped : explain .strict (some s) record = stopped := by
    rw [explain_some]
    rfl
  -- the first condition is true in both orders, and the missing attribute is not reached
  have h_true (ts : List Rule) (t : Rule) (h : Rule.combine .or ts = some t)
      (h_trace : (t.trace .strict record).outcome = .ok true) :
      evaluateStrictly (Rule.combine .or ts) record = .ok true := by
    rw [h, evaluateStrictly, evaluateUnder_some, h_trace]
  refine ⟨h_regroups, h_stopped, (h_grouping r s h_regroups .strict record).1.trans h_stopped,
    h_perm, (h_order .or _ _ h_perm record).1, h_true _ _ rfl rfl, h_true _ _ rfl rfl, ?_⟩
  rw [Rule.combine, evaluateStrictly, evaluateUnder_some]
  rfl

end Eligibility
