import Eligibility.Condition

/-!
# Rules

A rule is a condition or two rules joined by a connective. This module holds the type and what is
said about a rule by recursion on it: its nodes, its leaves, its height and its text. Many rules
become one by joining them from the left: `a`, `b` and `c` become `((a op b) op c)`. Rules that were
combined many times are as deep as they have conditions, so the walks that a program runs keep
a stack of their own; they are in `Eligibility.Rule.Walk`.
-/

namespace Eligibility

/-- A rule tree. A joined rule has exactly two parts. -/
inductive Rule
  | test (c : Condition)
  | join (op : Connective) (left right : Rule)
  deriving DecidableEq, Inhabited

namespace Rule

/-- The number of nodes. -/
def size : Rule → Nat
  | test _ => 1
  | join _ left right => 1 + left.size + right.size

theorem size_pos (r : Rule) : 0 < r.size := by
  cases r <;> simp only [size] <;> omega

/-- Every node as the rule that it roots, parents before parts and left before right. -/
def preorder : Rule → List Rule
  | test c => [test c]
  | join op left right => join op left right :: (left.preorder ++ right.preorder)

/-- The conditions from left to right. -/
def leaves : Rule → List Condition
  | test c => [c]
  | join _ left right => left.leaves ++ right.leaves

/-- The number of nodes on the longest way down; a lone condition has height one. -/
def height : Rule → Nat
  | test _ => 1
  | join _ left right => 1 + max left.height right.height

/-- The canonical text: a joined rule always stands in parentheses, so that reading the text gives
the same shape back. -/
def text : Rule → String
  | test c => c.render
  | join op left right =>
    "(" ++ left.text ++ " " ++ op.keyword ++ " " ++ right.text ++ ")"

/-- The condition of a lone condition. -/
def condition? : Rule → Option Condition
  | test c => some c
  | join _ _ _ => none

def isTest : Rule → Bool
  | test _ => true
  | join _ _ _ => false

/-! ### Combining rules -/

/-- Joins rules from the left. No rules give none, and one rule is left as it is. -/
def combine (op : Connective) : List Rule → Option Rule
  | [] => none
  | r :: rs => some (rs.foldl (join op) r)

/-- Joins rules by the connective that holds unless said otherwise, `AND`. -/
def combineAll (rs : List Rule) : Option Rule := combine default rs

end Rule

end Eligibility
