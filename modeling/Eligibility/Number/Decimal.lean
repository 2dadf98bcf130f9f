import Eligibility.Text.Character
import Eligibility.Number.Rounding

/-!
# Reading numbers from text

Two forms of number text. An *integer* is an optional sign and digits (`readInteger?`). A *decimal*
is an optional sign, digits with at most one point among or around them, and an optional exponent
(`Decimal.read?`); it stands for an exact value, of which `Decimal.toBinary64` takes the nearest
double.
-/

namespace Eligibility

-- a power is the same term here and where Mathlib has a reading of its own
attribute [local instance (20000)] instPowNat

/-- Cuts an optional sign off: was it a minus, and what follows. -/
def splitSign : List Char → Bool × List Char
  | '-' :: cs => (true, cs)
  | '+' :: cs => (false, cs)
  | cs => (false, cs)

/-- Reads an optional sign and at least one digit, and nothing else. -/
def readInteger? (cs : List Char) : Option Int :=
  let (negative, ds) := splitSign cs
  if ds ≠ [] ∧ ds.all Char.isDigit then
    some (if negative then -(Digits.toNat ds : Int) else Digits.toNat ds)
  else none

/-- A decimal number `± mantissa · 10 ^ exponent`. -/
structure Decimal where
  negative : Bool
  mantissa : Nat
  exponent : Int
  deriving DecidableEq

namespace Decimal

/-- The magnitude of an exponent. Digits that follow once it has reached `2 ^ 16` are not read: they
would only push the value farther beyond every double. -/
def exponentOf (ds : List Char) : Nat :=
  ds.foldl (fun n c => if n < 2 ^ (16 : Nat) then 10 * n + Digits.ofChar c else n) 0

/-- Reads the exponent that may follow the digits, up to the end of the text. -/
def readExponent? : List Char → Option Int
  | [] => some 0
  | c :: cs =>
    if c = 'e' ∨ c = 'E' then
      let (negative, ds) := splitSign cs
      if ds ≠ [] ∧ ds.all Char.isDigit then
        some (if negative then -(exponentOf ds : Int) else exponentOf ds)
      else none
    else none

/-- Cuts the digits after a point off, if there is a point. -/
def splitFraction : List Char → List Char × List Char
  | '.' :: cs => (cs.takeWhile Char.isDigit, cs.dropWhile Char.isDigit)
  | cs => ([], cs)

/-- Reads a decimal: an optional sign, at least one digit, a point before, among or after the
digits, and an exponent. -/
def read? (cs : List Char) : Option Decimal :=
  let (negative, cs) := splitSign cs
  let whole := cs.takeWhile Char.isDigit
  let (fraction, rest) := splitFraction (cs.dropWhile Char.isDigit)
  if whole = [] ∧ fraction = [] then none
  else (readExponent? rest).map fun e =>
    ⟨negative, Digits.toNat (whole ++ fraction), e - fraction.length⟩

/-- The double nearest to a decimal. It may be infinite. -/
def toBinary64 (x : Decimal) : Binary64 :=
  Binary64.ofDecimal x.negative x.mantissa x.exponent

end Decimal

end Eligibility
