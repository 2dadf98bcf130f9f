import Eligibility.Value

/-!
# Conditions

A condition compares one attribute of a record with a literal, as in `age > 30`.
-/

namespace Eligibility

/-- How a condition compares. -/
inductive Comparison
  | greater
  | less
  | equal
  deriving DecidableEq, Inhabited

namespace Comparison

def symbol : Comparison → String
  | greater => ">"
  | less => "<"
  | equal => "="

/-- The comparison of a symbol. Longer runs such as `>=` are none. -/
def ofSymbol? (s : String) : Option Comparison :=
  if s = ">" then some greater
  else if s = "<" then some less
  else if s = "=" then some equal
  else none

/-- `>` and `<` order numbers; `=` compares any values. -/
def isOrdering : Comparison → Bool
  | greater => true
  | less => true
  | equal => false

@[simp] theorem ofSymbol?_symbol (c : Comparison) : ofSymbol? c.symbol = some c := by
  cases c <;> decide

end Comparison

/-- How two rules are joined into one. -/
inductive Connective
  | and
  | or
  deriving DecidableEq

namespace Connective

/-- Rules are joined by `AND` unless said otherwise. -/
instance : Inhabited Connective := ⟨and⟩

def keyword : Connective → String
  | and => "AND"
  | or => "OR"

/-- The connective of a keyword. Case matters: `and` is an ordinary word. -/
def ofKeyword? (s : String) : Option Connective :=
  if s = "AND" then some and
  else if s = "OR" then some or
  else none

/-- Does this value of the left side settle the whole? A false side settles `AND` and a true one
settles `OR`. -/
def settledBy : Connective → Bool → Bool
  | and, b => !b
  | or, b => b

@[simp] theorem ofKeyword?_keyword (op : Connective) : ofKeyword? op.keyword = some op := by
  cases op <;> decide

end Connective

/-- A test of one attribute, given by its name, against a literal. -/
structure Condition where
  name : String
  comparison : Comparison
  value : Value
  deriving DecidableEq, Inhabited

namespace Condition

/-- The condition as rule text. -/
def render (c : Condition) : String :=
  c.name ++ " " ++ c.comparison.symbol ++ " " ++ c.value.render

/-- The same attribute, the same comparison and alike values. -/
def alike (c d : Condition) : Bool :=
  c.name == d.name && c.comparison == d.comparison && c.value.alike d.value

/-- An ordering condition needs a number to order by. -/
def isDecidable (c : Condition) : Bool :=
  !c.comparison.isOrdering || c.value.orderingBound.isSome

end Condition

end Eligibility
