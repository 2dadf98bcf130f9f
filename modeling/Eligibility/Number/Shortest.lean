import Eligibility.Number.Binary64

/-!
# The shortest decimal of a double

A decimal *names* a double when it lies in the interval of values that round to it. Among the
decimals of the fewest digits that name a double, `Binary64.shortest` takes the nearest one. On a
grid of decimals with `n` digits only the two neighbours of the double have to be tried: if any
point of the grid names it, one of these two does.
-/

namespace Eligibility

-- a power is the same term here and where Mathlib has a reading of its own
attribute [local instance (20000)] instPowNat

/-- Which of two equally near decimals is taken. -/
inductive TieRule
  /-- The larger one. -/
  | up
  /-- The one whose last digit is even. -/
  | even
  deriving DecidableEq

namespace Binary64

/-- Compares `c · 10 ^ e` with `h` half units of `2 ^ -1074`. -/
def compareDecimal (c : Nat) (e : Int) (h : Nat) : Ordering :=
  if 0 ≤ e then compare (c * 10 ^ e.toNat * (2 * unitsPerOne)) h
  else compare (c * (2 * unitsPerOne)) (h * 10 ^ (-e).toNat)

/-- Does `c · 10 ^ e` round to the magnitude `k`? The values that do reach halfway to the neighbours
of `k`, ends included when `k` is even. -/
def names (k c : Nat) (e : Int) : Bool :=
  let low := compareDecimal c e (unitsOf (k - 1) + unitsOf k)
  let high := compareDecimal c e (unitsOf k + unitsOf (k + 1))
  (low == .gt || (low == .eq && k % 2 == 0)) && (high == .lt || (high == .eq && k % 2 == 0))

/-- The number of decimal digits of `n`; zero has none. -/
def digitCount (n : Nat) : Nat :=
  if h : n = 0 then 0 else digitCount (n / 10) + 1
termination_by n
decreasing_by omega

/-- The `p` with `10 ^ (p - 1) ≤ u · 2 ^ -1074 < 10 ^ p`, for a positive number of units `u`. -/
def decimalPoint (u : Nat) : Int :=
  if unitsPerOne ≤ u then digitCount (u / unitsPerOne)
  else 1 - (digitCount ((unitsPerOne - 1) / u) : Int)

/-- The largest whole `c` with `c · 10 ^ e ≤ u · 2 ^ -1074`. -/
def floorOnGrid (u : Nat) (e : Int) : Nat :=
  if 0 ≤ e then u / (unitsPerOne * 10 ^ e.toNat) else u * 10 ^ (-e).toNat / unitsPerOne

/-- The decimal `c · 10 ^ e` on the grid of exponent `e` that names the magnitude `k` and is nearest
to it, if there is one. -/
def namedOnGrid (tie : TieRule) (k : Nat) (e : Int) : Option Nat :=
  let c := floorOnGrid (unitsOf k) e
  match names k c e, names k (c + 1) e with
  | false, false => none
  | true, false => some c
  | false, true => some (c + 1)
  | true, true =>
    -- the midpoint of both neighbours, against the double itself
    match compareDecimal (2 * c + 1) e (4 * unitsOf k), tie with
    | .lt, _ => some (c + 1)
    | .gt, _ => some c
    | .eq, .up => some (c + 1)
    | .eq, .even => some (if c % 2 = 0 then c else c + 1)

/-- Tries grids of ever more digits, `n` of them at first and at most `n + fuel`. -/
def shortestFrom (tie : TieRule) (k : Nat) (p : Int) : Nat → Nat → Nat × Int
  | 0, n => (floorOnGrid (unitsOf k) (p - n), p - n)
  | fuel + 1, n =>
    match namedOnGrid tie k (p - n) with
    | some c => (c, p - n)
    | none => shortestFrom tie k p fuel (n + 1)

/-- Moves trailing zeros of the digits into the exponent. -/
def stripZeros (c : Nat) (e : Int) : Nat × Int :=
  if h : c ≠ 0 ∧ c % 10 = 0 then stripZeros (c / 10) (e + 1) else (c, e)
termination_by c
decreasing_by omega

/-- The shortest decimal `c · 10 ^ e` that names the finite magnitude `k`, as `(c, e)`; `c` does not
end in a zero. Seventeen digits always suffice. Zero is `(0, 0)`. -/
def shortest (tie : TieRule) (k : Nat) : Nat × Int :=
  if k = 0 then (0, 0)
  else
    let (c, e) := shortestFrom tie k (decimalPoint (unitsOf k)) 17 1
    stripZeros c e

end Binary64

end Eligibility
