import Eligibility.Number.Binary64

/-!
# Rounding to the nearest double

`Binary64.nearest` takes an exact fraction of units of `2 ^ -1074` to the magnitude of the nearest
double, a tie to the even one, and past the largest finite double to infinity. Integers, decimals,
products and quotients are all rounded by it, once, from their exact value.
-/

namespace Eligibility

-- a power is the same term here and where Mathlib has a reading of its own
attribute [local instance (20000)] instPowNat

/-- The whole number nearest to `n / d`; of two that are equally near, the even one. -/
def roundDiv (n d : Nat) : Nat :=
  let q := n / d
  let r := n % d
  if d < 2 * r ∨ (2 * r = d ∧ q % 2 = 1) then q + 1 else q

namespace Binary64

/-- The magnitude of the double nearest to `n / d` units of `2 ^ -1074`. The quotient is cut to a
significand of fifty-three bits, or to fewer where the doubles are spaced evenly. -/
def nearest (n d : Nat) : Nat :=
  -- a step of the exponent is `2 ^ 52` in the magnitude, and so is a carry of the significand
  let shift := (n / d).log2 - 52
  min infinite (shift * 2 ^ (52 : Nat) + roundDiv n (d * 2 ^ shift))

/-- The double nearest to `n / d`, with a sign. -/
def ofRatio (negative : Bool) (n d : Nat) : Binary64 :=
  ofParts negative (nearest (n * unitsPerOne) d)

/-- The double nearest to an integer. -/
def ofInt (i : Int) : Binary64 := ofRatio (i < 0) i.natAbs 1

/-- The product of two finite doubles, rounded once. -/
def mul (x y : Binary64) : Binary64 :=
  ofParts (x.negative != y.negative) (nearest (x.units * y.units) unitsPerOne)

/-- The quotient of two finite doubles, the second of them not zero, rounded once. -/
def div (x y : Binary64) : Binary64 :=
  ofParts (x.negative != y.negative) (nearest (x.units * unitsPerOne) y.units)

/-- The double nearest to `mantissa · 10 ^ exponent`, with a sign. Where the exponent alone decides
that the answer is infinity or zero, no power of ten is computed. -/
def ofDecimal (negative : Bool) (mantissa : Nat) (exponent : Int) : Binary64 :=
  if mantissa = 0 then ofParts negative 0
  else if 400 < exponent then ofParts negative infinite
  else if exponent + mantissa.log2 < -400 then ofParts negative 0
  else if 0 ≤ exponent then ofRatio negative (mantissa * 10 ^ exponent.toNat) 1
  else ofRatio negative mantissa (10 ^ (-exponent).toNat)

end Binary64

end Eligibility
