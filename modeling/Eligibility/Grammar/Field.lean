import Eligibility.Grammar.Token

/-!
# Conditions from their fields

Three fields make a condition: a name, a comparison and a literal. A literal without quotes is a
number if it reads as one, and else a text. A quoted literal is a text, except that an ordering
comparison takes the number in it.

A word is an integer if it reads as one within 64 bits, and else a double if it reads as a decimal.
A decimal beyond every double is neither a number nor a word, but an error.
-/

namespace Eligibility

-- a power is the same term here and where Mathlib has a reading of its own
attribute [local instance (20000)] instPowNat

/-! ### Numbers in rule text -/

/-- What a word says as a number. -/
inductive NumberReading
  | number (v : Value)
  | outOfRange
  | noNumber
  deriving DecidableEq

/-- Reads an integer of 64 bits. -/
def readInt64? (cs : List Char) : Option Int64 :=
  (readInteger? cs).bind fun i =>
    if -2 ^ (63 : Nat) ≤ i ∧ i < 2 ^ (63 : Nat) then some (Int64.ofInt i) else none

/-- Reads a word as a number. -/
def readNumber (cs : List Char) : NumberReading :=
  match readInt64? cs with
  | some n => .number (.int n)
  | none =>
    match Decimal.read? cs with
    | none => .noNumber
    | some d => if d.toBinary64.isFinite then .number (.float d.toBinary64) else .outOfRange

/-! ### Fields -/

/-- The fields as written, with single blanks between them. -/
def fieldsText (fields : List Token) : String := " ".intercalate (fields.map (·.raw))

/-- The attribute that a field names: a word that is no number. -/
def attributeName? (field : Token) : Option String :=
  match field.lexeme with
  | .word name =>
    match readNumber name.toList with
    | .noNumber => some name
    | _ => none
  | _ => none

/-- The comparison of a field. -/
def comparisonOf? (field : Token) : Option Comparison :=
  match field.lexeme with
  | .symbol s => Comparison.ofSymbol? s
  | _ => none

/-- A literal as a number, or as the text `s` where it is none. -/
def numberOrText (cs : List Char) (s : String) : Except ConditionFault Value :=
  match readNumber cs with
  | .number v => .ok v
  | .outOfRange => .error .numberOutOfRange
  | .noNumber => .ok (.text s)

/-- The value of a field, to the right of a comparison. -/
def valueOf (comparison : Comparison) (field : Token) : Except ConditionFault Value :=
  match field.lexeme with
  | .quoted s =>
    if comparison.isOrdering then numberOrText (trimBlanks s.toList) s else .ok (.text s)
  | .word w => numberOrText w.toList w
  | .symbol _ => .error .symbolForValue
  | .opening => .error .missingValue
  | .closing => .error .missingValue

/-- Checks that an ordering comparison has a number. -/
def checkOrdering (comparison : Comparison) (v : Value) : Except ConditionFault Value :=
  if comparison.isOrdering && !v.isNumber then .error (.notNumeric comparison) else .ok v

/-- Reads a condition from its fields. -/
def readCondition (fields : List Token) : Except ParseError Condition :=
  match fields with
  | [subject, comparison, value] =>
    match attributeName? subject with
    | none => .error (.malformedCondition (fieldsText fields) .attributeNotName)
    | some name =>
      match comparisonOf? comparison with
      | none => .error (.unsupportedOperator comparison.raw comparison.offset)
      | some cmp =>
        match valueOf cmp value >>= checkOrdering cmp with
        | .error fault => .error (.malformedCondition (fieldsText fields) fault)
        | .ok v => .ok ⟨name, cmp, v⟩
  | _ => .error (.malformedCondition (fieldsText fields) (.fieldCount fields.length))

end Eligibility
