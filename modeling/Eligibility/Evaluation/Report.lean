import Eligibility.Evaluation.Run

/-!
# Reports

A report tells the outcome of an evaluation and the conditions that were decided for it, in order.
Conditions that a connective skipped are not in it, nor is the one on which a strict evaluation
stopped.
-/

namespace Eligibility

/-- The outcome of an evaluation and how it came about. -/
structure Report where
  outcome : Except EvalError Bool
  visited : List Visit

namespace Report

/-- The verdict; an evaluation that stopped has the verdict false. -/
def verdict (r : Report) : Bool :=
  match r.outcome with
  | .ok b => b
  | .error _ => false

def error? (r : Report) : Option EvalError :=
  match r.outcome with
  | .ok _ => none
  | .error e => some e

/-- One visited condition in a report's text. -/
def visitText (v : Visit) : String := v.condition.render ++ " => " ++ toString v.result

/-- The report as one line. -/
def render (r : Report) : String :=
  let outcome :=
    match r.outcome with
    | .ok b => "verdict: " ++ toString b
    | .error e => "error: " ++ e.message
  outcome ++ ", conditions: [" ++ ", ".intercalate (r.visited.map visitText) ++ "]"

end Report

/-- Evaluates a rule and reports on it. -/
def explain (policy : Policy) (rule : Option Rule) (record : Record) : Report :=
  let (outcome, visited) := Evaluation.run policy record (fun vs v => v :: vs) rule []
  ⟨outcome, visited.reverse⟩

end Eligibility
