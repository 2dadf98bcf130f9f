import Eligibility.Evaluation.Condition
import Eligibility.Rule.Walk

/-!
# Evaluating a rule

A rule is evaluated from left to right, and a right side only if the left side does not settle the
connective. The evaluation keeps the connectives whose left side is under way on a stack, each with
its right side. When a right side has to run, it takes the place of its connective: its value is the
value of the whole.

What happens to the conditions on the way is up to a visitor, so that a plain evaluation, which
forgets them, and a report, which collects them, are the same run.
-/

namespace Eligibility

/-- A condition that was decided, with what the record held and the outcome. -/
structure Visit where
  condition : Condition
  observed : Option Value
  result : Bool
  deriving DecidableEq

namespace Evaluation

/-- The number of nodes in the right sides that wait. -/
def waitingSize : List (Connective × Rule) → Nat
  | [] => 0
  | w :: waiting => w.2.size + waitingSize waiting

@[simp] theorem waitingSize_cons (w : Connective × Rule) (waiting : List (Connective × Rule)) :
    waitingSize (w :: waiting) = w.2.size + waitingSize waiting := rfl

variable {σ : Type}

mutual

/-- Evaluates a rule, and then whatever waits for its value. -/
def descend (policy : Policy) (record : Record) (visit : σ → Visit → σ) (rule : Rule)
    (waiting : List (Connective × Rule)) (state : σ) : Except EvalError Bool × σ :=
  match rule with
  | .join op left right => descend policy record visit left ((op, right) :: waiting) state
  | .test c =>
    match c.decideUnder policy (record.get? c.name) with
    | .error e => (.error e, state)
    | .ok b =>
      ascend policy record visit b waiting (visit state ⟨c, record.get? c.name, b⟩)
termination_by (rule.size + waitingSize waiting, 0)
decreasing_by
  all_goals
    apply Prod.Lex.left
    simp only [Rule.size, waitingSize_cons]
    omega

/-- Hands a value to the innermost connective that waits for it: either it is settled, or its right
side runs. -/
def ascend (policy : Policy) (record : Record) (visit : σ → Visit → σ) (value : Bool)
    (waiting : List (Connective × Rule)) (state : σ) : Except EvalError Bool × σ :=
  match waiting with
  | [] => (.ok value, state)
  | (op, right) :: waiting =>
    -- the connective itself is gone: from here on its right side stands for it
    if op.settledBy value then ascend policy record visit value waiting state
    else descend policy record visit right waiting state
termination_by (waitingSize waiting, 1)
decreasing_by
  · apply Prod.Lex.left
    have := right.size_pos
    simp only [waitingSize_cons]
    omega
  · rw [waitingSize_cons]
    apply Prod.Lex.right
    decide

end

/-- Evaluates a rule that may be absent; an absent rule is false. -/
def run (policy : Policy) (record : Record) (visit : σ → Visit → σ) (rule : Option Rule)
    (state : σ) : Except EvalError Bool × σ :=
  match rule with
  | none => (.ok false, state)
  | some r => descend policy record visit r [] state

end Evaluation

/-- Evaluates a rule under a policy. Only a strict evaluation fails. -/
def evaluateUnder (policy : Policy) (rule : Option Rule) (record : Record) :
    Except EvalError Bool :=
  (Evaluation.run policy record (fun _ _ => ()) rule ()).1

/-- Evaluates a rule leniently. -/
def evaluate (rule : Option Rule) (record : Record) : Bool :=
  match evaluateUnder .lenient rule record with
  | .ok b => b
  | .error _ => false

/-- Evaluates a rule strictly. -/
def evaluateStrictly (rule : Option Rule) (record : Record) : Except EvalError Bool :=
  evaluateUnder .strict rule record

end Eligibility
