import Eligibility.Directory
import Eligibility.Number.Decimal
import Eligibility.Number.Layout

/-!
# Values and records

Rules are evaluated against a record, a flat map from attribute names to values. Names are looked up
verbatim, so `user.age` is a name like any other.

Values are the scalars that records hold and conditions compare with: 64-bit integers, doubles and
texts. Two equalities are kept apart. `Value.equals` is the one that `=` conditions test: numbers are
equal when they are equal as doubles, or exactly if both are integers, and a number never equals a
text. `Value.alike` also tells integers from doubles; two rules with alike values are the same rule.
-/

namespace Eligibility

/-- A scalar of a record or a condition. -/
inductive Value
  | int (n : Int64)
  | float (x : Binary64)
  | text (s : String)
  deriving DecidableEq, Inhabited

namespace Value

/-- The value as a double, rounded if need be. A text has none, whatever it says. -/
def number? : Value → Option Binary64
  | int n => some (Binary64.ofInt n.toInt)
  | float x => some x
  | text _ => none

def isNumber (v : Value) : Bool := v.number?.isSome

/-- The equality of `=` conditions. -/
def equals : Value → Value → Bool
  | int m, int n => m == n
  | text s, text t => s == t
  | text _, _ => false
  | _, text _ => false
  | v, w =>
    match v.number?, w.number? with
    | some x, some y => x.equals y
    | _, _ => false

/-- Values of one kind with equal content. A double that is not a number is not alike itself. -/
def alike : Value → Value → Bool
  | int m, int n => m == n
  | float x, float y => x.equals y
  | text s, text t => s == t
  | _, _ => false

/-- The finite number that the value stands for on the right of `>` or `<`. There a text that reads
as a decimal counts as that number. -/
def orderingBound (v : Value) : Option Binary64 :=
  let number :=
    match v with
    | text s => (Decimal.read? (trimBlanks s.toList)).map Decimal.toBinary64
    | v => v.number?
  number.filter Binary64.isFinite

/-- The kinds of values. -/
inductive Kind
  | integer
  | float
  | text
  deriving DecidableEq

/-- The name of a kind, for messages. -/
def Kind.name : Kind → String
  | integer => "integer"
  | float => "float"
  | text => "string"

def kind : Value → Kind
  | int _ => .integer
  | float _ => .float
  | text _ => .text

/-! ### Literals -/

/-- How doubles are written in rule text: positionally from `1e-4` up to below `1e16`, with a bare
positive exponent outside of that, and the larger of two equally near decimals. -/
def floatLayout : Layout where
  tie := .up
  leastPlain := -4
  greatestPlain := 15
  plus := []

/-- The rule text of a double. -/
def floatLiteral (x : Binary64) : List Char :=
  if x.isFinite then floatLayout.render x
  else if x.isNaN then "NaN".toList
  else if x.negative then "-inf".toList
  else "inf".toList

/-- A character inside a quoted literal: quotes and backslashes stand behind a backslash. -/
def escape (c : Char) : List Char :=
  if c = '\'' ∨ c = '\\' then ['\\', c] else [c]

/-- A text in single quotes. -/
def quote (cs : List Char) : List Char :=
  '\'' :: (cs.flatMap escape ++ ['\''])

/-- The value as a literal of rule text. -/
def literal : Value → List Char
  | int n => Layout.integer n.toInt
  | float x => floatLiteral x
  | text s => quote s.toList

/-- The literal as a string. -/
def render (v : Value) : String := String.ofList v.literal

end Value

/-- The attribute values of one subject. -/
abbrev Record := Directory Value

end Eligibility
