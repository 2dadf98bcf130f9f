import Eligibility.Condition

/-!
# What can be wrong with rule text

A text that is no rule is refused for one reason, a `ParseError`, and no part of it is kept. Places
in the text are given as offsets in bytes of UTF-8.
-/

namespace Eligibility

/-- What is wrong with one condition. -/
inductive ConditionFault
  /-- There are not three fields. -/
  | fieldCount (found : Nat)
  /-- The first field is quoted, a symbol or a number. -/
  | attributeNotName
  /-- The number is beyond every double. -/
  | numberOutOfRange
  /-- The third field is a symbol. -/
  | symbolForValue
  /-- The third field is a parenthesis. -/
  | missingValue
  /-- An ordering comparison has a literal that is not a number. -/
  | notNumeric (comparison : Comparison)
  /-- There is no condition between two parentheses. -/
  | emptyGroup
  deriving DecidableEq

namespace ConditionFault

def message : ConditionFault → String
  | fieldCount found =>
    "expected 3 fields (attribute comparator value), found " ++ toString found
  | attributeNotName => "attribute must be a bare name"
  | numberOutOfRange => "numeric literal out of range"
  | symbolForValue => "value must be a literal"
  | missingValue => "missing value"
  | notNumeric comparison => "'" ++ comparison.symbol ++ "' needs a numeric value"
  | emptyGroup => "empty group"

end ConditionFault

/-- What is wrong with the way in which conditions are grouped and joined. -/
inductive GroupingFault
  | openInCondition
  | openWithoutKeyword
  | unmatchedClose
  | unmatchedOpen
  | noLeftOperand
  | noRightOperand
  | fieldWithoutKeyword
  | operandMissing
  | groupNotSingle
  | ruleNotSingle
  deriving DecidableEq

namespace GroupingFault

def message : GroupingFault → String
  | openInCondition => "'(' inside a condition"
  | openWithoutKeyword => "missing keyword before '('"
  | unmatchedClose => "unmatched ')'"
  | unmatchedOpen => "unmatched '('"
  | noLeftOperand => "keyword with no left operand"
  | noRightOperand => "keyword with no right operand"
  | fieldWithoutKeyword => "missing keyword after ')'"
  | operandMissing => "keyword is missing an operand"
  | groupNotSingle => "group does not reduce to a single condition"
  | ruleNotSingle => "rule does not reduce to a single tree"

end GroupingFault

/-- Why a text is no rule. -/
inductive ParseError
  /-- A condition, given by its fields with single blanks between them, is at fault. -/
  | malformedCondition (condition : String) (fault : ConditionFault)
  | unbalancedGrouping (offset : Nat) (fault : GroupingFault)
  /-- A word or symbol stands where a keyword or comparison must, but is none. -/
  | unsupportedOperator (operator : String) (offset : Nat)
  /-- A quoted literal that starts at the offset does not end. -/
  | unterminatedString (offset : Nat)
  | empty
  | nestingTooDeep (limit : Nat)
  deriving DecidableEq

namespace ParseError

def message : ParseError → String
  | malformedCondition condition fault =>
    "parse error: malformed condition '" ++ condition ++ "': " ++ fault.message
  | unbalancedGrouping offset fault =>
    "parse error: unbalanced grouping at offset " ++ toString offset ++ ": " ++ fault.message
  | unsupportedOperator operator offset =>
    "parse error: unsupported operator '" ++ operator ++ "' at offset " ++ toString offset
  | unterminatedString offset =>
    "parse error: unterminated string literal starting at offset " ++ toString offset
  | empty => "parse error: empty rule"
  | nestingTooDeep limit =>
    "parse error: grouping nested deeper than " ++ toString limit ++ " levels"

end ParseError

end Eligibility
