import Eligibility.Condition

/-!
# Deciding a condition

A condition is decided from what the record holds under its attribute. It is undecidable when the
record holds nothing, or when `>` or `<` would have to order something that is not a number; of
these causes the first that applies is the error. A strict evaluation stops on it, a lenient one
takes the condition to be false.
-/

namespace Eligibility

/-- What to do with an undecidable condition. -/
inductive Policy
  /-- It is false. -/
  | lenient
  /-- The evaluation stops with an error. -/
  | strict
  deriving DecidableEq

instance : Inhabited Policy := ⟨.lenient⟩

/-- Why a condition is undecidable. -/
inductive EvalError
  /-- The record does not hold the attribute. -/
  | missingAttribute (name : String)
  /-- The record holds something of this kind, which has no place in an order. -/
  | invalidAttribute (name : String) (comparison : Comparison) (found : Value.Kind)
  /-- The literal is no finite number. -/
  | invalidLiteral (name : String) (comparison : Comparison) (literal : Value)
  deriving DecidableEq

namespace EvalError

def message : EvalError → String
  | missingAttribute name => "attribute '" ++ name ++ "' is missing from the record"
  | invalidAttribute name comparison found =>
    "attribute '" ++ name ++ "' holds a " ++ found.name ++ " value, '" ++ comparison.symbol
      ++ "' needs a number"
  | invalidLiteral name comparison literal =>
    "condition on '" ++ name ++ "' compares with " ++ literal.render ++ ", '" ++ comparison.symbol
      ++ "' needs a finite number"

end EvalError

namespace Condition

/-- Orders two values that stand for the numbers `x` and `y`: integers exactly, anything else as
doubles. -/
def ordered (greater : Bool) (observed literal : Value) (x y : Binary64) : Bool :=
  match observed, literal with
  | .int m, .int n => if greater then n < m else m < n
  | _, _ => if greater then y.less x else x.less y

/-- Decides a condition from the value that the record holds, if that is possible. -/
def decideStrictly (c : Condition) (observed : Option Value) : Except EvalError Bool :=
  match observed with
  | none => .error (.missingAttribute c.name)
  | some v =>
    if !c.comparison.isOrdering then .ok (v.equals c.value)
    else
      match v.number?, c.value.orderingBound with
      | none, _ => .error (.invalidAttribute c.name c.comparison v.kind)
      | some _, none => .error (.invalidLiteral c.name c.comparison c.value)
      | some x, some y => .ok (ordered (c.comparison == .greater) v c.value x y)

/-- Decides a condition under a policy. -/
def decideUnder (policy : Policy) (c : Condition) (observed : Option Value) :
    Except EvalError Bool :=
  match policy, c.decideStrictly observed with
  | .lenient, .error _ => .ok false
  | _, answer => answer

end Condition

end Eligibility
