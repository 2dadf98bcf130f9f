import Eligibility.Number.Shortest
import Eligibility.Text.Character

/-!
# The text of a finite double

All formats of the library write a double with the fewest digits that read back, and they differ
only in the decisions collected in a `Layout`: from which exponent on a number is written
positionally, how a positive exponent is marked, and which of two equally near decimals is taken. A
whole number that is written positionally keeps its `.0`, so that it reads back as a double and not
as an integer.
-/

namespace Eligibility

/-- How a finite double is laid out as text. The exponents meant here are those of scientific form,
with one digit before the point. -/
structure Layout where
  tie : TieRule
  /-- The least exponent written positionally. -/
  leastPlain : Int
  /-- The greatest exponent written positionally. -/
  greatestPlain : Int
  /-- The mark before a positive exponent. -/
  plus : List Char

namespace Layout

/-- The text of an integer. -/
def integer (i : Int) : List Char :=
  if i < 0 then '-' :: Digits.ofNat i.natAbs else Digits.ofNat i.natAbs

/-- Digits with the point after the first `point` of them; `point` may lie before or behind the
digits, and zeros fill the gap. -/
def positional (digits : List Char) (point : Int) : List Char :=
  if point ≤ 0 then '0' :: '.' :: (List.replicate (-point).toNat '0' ++ digits)
  else if digits.length ≤ point.toNat then
    digits ++ List.replicate (point.toNat - digits.length) '0' ++ ['.', '0']
  else digits.take point.toNat ++ '.' :: digits.drop point.toNat

/-- The exponent part of the scientific form. -/
def exponentPart (layout : Layout) (e : Int) : List Char :=
  'e' :: ((if 0 ≤ e then layout.plus else []) ++ integer e)

/-- One digit, the other digits behind a point if there are any, and the exponent. -/
def scientific (layout : Layout) (digits : List Char) (e : Int) : List Char :=
  digits.take 1 ++ (if digits.length ≤ 1 then [] else '.' :: digits.drop 1) ++ layout.exponentPart e

/-- The text of a finite magnitude. -/
def magnitude (layout : Layout) (k : Nat) : List Char :=
  let (c, e) := Binary64.shortest layout.tie k
  let digits := Digits.ofNat c
  let leading := e + digits.length - 1
  if k = 0 ∨ (layout.leastPlain ≤ leading ∧ leading ≤ layout.greatestPlain) then
    positional digits (leading + 1)
  else scientific layout digits leading

/-- The text of a finite double. The sign of zero is written. -/
def render (layout : Layout) (x : Binary64) : List Char :=
  if x.negative then '-' :: layout.magnitude x.magnitude else layout.magnitude x.magnitude

end Layout

end Eligibility
