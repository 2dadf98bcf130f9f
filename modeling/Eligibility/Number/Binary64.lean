/-!
# Binary64 numbers

A double-precision number is its 64 bits. Apart from the sign, the bits of a number are a natural
number, its `magnitude`, and a larger magnitude is a larger number; so comparing two doubles is
comparing integers (`rank`), and every finite double is a whole number of units of `2 ^ -1074`
(`Binary64.units`). All arithmetic of the library is exact arithmetic on these two views.
-/

namespace Eligibility

-- a power is the same term here and where Mathlib has a reading of its own
attribute [local instance (20000)] instPowNat

/-- A double-precision number, given by its bits: one for the sign, eleven for the exponent and
fifty-two for the fraction. -/
structure Binary64 where
  bits : UInt64
  deriving DecidableEq, Inhabited

namespace Binary64

/-- The magnitude of infinity. Finite numbers lie below it and what is not a number above it. -/
def infinite : Nat := 0x7FF * 2 ^ (52 : Nat)

/-- The number of a sign and a magnitude. -/
def ofParts (negative : Bool) (magnitude : Nat) : Binary64 :=
  ⟨UInt64.ofNat (if negative then 2 ^ (63 : Nat) + magnitude else magnitude)⟩

/-- Is the sign bit set? Zero has a sign of its own. -/
def negative (x : Binary64) : Bool := 2 ^ (63 : Nat) ≤ x.bits.toNat

/-- The bits without the sign. -/
def magnitude (x : Binary64) : Nat := x.bits.toNat % 2 ^ (63 : Nat)

def isFinite (x : Binary64) : Bool := x.magnitude < infinite

def isNaN (x : Binary64) : Bool := infinite < x.magnitude

/-- The number of units of `2 ^ -1074` in a finite magnitude: below `2 ^ 52` the magnitude itself,
and from there on a significand with a leading one, shifted by the exponent. -/
def unitsOf (magnitude : Nat) : Nat :=
  if magnitude / 2 ^ (52 : Nat) = 0 then magnitude
  else (2 ^ (52 : Nat) + magnitude % 2 ^ (52 : Nat)) * 2 ^ (magnitude / 2 ^ (52 : Nat) - 1)

/-- The number of units of `2 ^ -1074` in one. -/
def unitsPerOne : Nat := 2 ^ (1074 : Nat)

/-- The distance of a finite number from zero, in units of `2 ^ -1074`. -/
def units (x : Binary64) : Nat := unitsOf x.magnitude

/-- The place of a number on the line of doubles. Both zeros have the place zero. -/
def rank (x : Binary64) : Int := if x.negative then -(x.magnitude : Int) else x.magnitude

/-- Numeric equality: the zeros are equal, and what is not a number equals nothing. -/
def equals (x y : Binary64) : Bool := !x.isNaN && !y.isNaN && x.rank == y.rank

/-- The numeric order. What is not a number is neither below nor above anything. -/
def less (x y : Binary64) : Bool := !x.isNaN && !y.isNaN && x.rank < y.rank

/-- The same number with the sign turned over if `flip`. -/
def withSign (x : Binary64) (flip : Bool) : Binary64 :=
  if flip then ofParts (!x.negative) x.magnitude else x

end Binary64

end Eligibility
