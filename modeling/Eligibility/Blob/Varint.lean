/-!
# Numbers as bytes

Two ways to write a natural number. `littleEndian` has a fixed width, lowest byte first. A *varint*
is one byte for a number below 251; above that a marker tells the width of the little-endian number
that follows: two, four or eight bytes. Reading accepts a wider form than needed, as long as it is
not wider than the number's type. Signed numbers alternate between the two signs (`zigzag`).
-/

namespace Eligibility.Blob

-- a power is the same term here and where Mathlib has a reading of its own
attribute [local instance (20000)] instPowNat

/-- The lowest `width` bytes of a number, lowest first. -/
def littleEndian : (width : Nat) → Nat → List UInt8
  | 0, _ => []
  | width + 1, n => UInt8.ofNat n :: littleEndian width (n / 256)

/-- The number of a run of bytes, lowest first. -/
def ofLittleEndian : List UInt8 → Nat
  | [] => 0
  | b :: bs => b.toNat + 256 * ofLittleEndian bs

@[simp] theorem length_littleEndian (width n : Nat) : (littleEndian width n).length = width := by
  induction width generalizing n with
  | zero => rfl
  | succ width ih => simp [littleEndian, ih]

theorem ofLittleEndian_littleEndian (width n : Nat) :
    ofLittleEndian (littleEndian width n) = n % 256 ^ width := by
  induction width generalizing n with
  | zero => simp [littleEndian, ofLittleEndian, Nat.mod_one]
  | succ width ih =>
    rw [littleEndian, ofLittleEndian, ih, Nat.pow_succ', Nat.mod_mul]
    simp

/-- Takes exactly `n` bytes off the front. -/
def takeBytes (n : Nat) (bytes : List UInt8) : Option (List UInt8 × List UInt8) :=
  let front := bytes.take n
  if front.length = n then some (front, bytes.drop n) else none

/-- Takes a little-endian number off the front. -/
def readFixed (width : Nat) (bytes : List UInt8) : Option (Nat × List UInt8) := do
  let (front, rest) ← takeBytes width bytes
  return (ofLittleEndian front, rest)

/-- A number below `2 ^ 64` as a varint. -/
def varint (n : Nat) : List UInt8 :=
  if n < 251 then [UInt8.ofNat n]
  else if n < 2 ^ (16 : Nat) then 251 :: littleEndian 2 n
  else if n < 2 ^ (32 : Nat) then 252 :: littleEndian 4 n
  else 253 :: littleEndian 8 n

/-- Takes a varint off the front whose number has at most `width` bytes. -/
def readVarint (width : Nat) : List UInt8 → Option (Nat × List UInt8)
  | [] => none
  | b :: rest =>
    if b < 251 then some (b.toNat, rest)
    else if b = 251 then readFixed 2 rest
    else if b = 252 ∧ 4 ≤ width then readFixed 4 rest
    else if b = 253 ∧ 8 ≤ width then readFixed 8 rest
    else none

/-- Signed numbers in the order 0, -1, 1, -2, 2 and so on. -/
def zigzag (i : Int) : Nat := if 0 ≤ i then 2 * i.toNat else 2 * (-i).toNat - 1

/-- The signed number at a place of that order. -/
def ofZigzag (n : Nat) : Int := if n % 2 = 0 then n / 2 else -(n / 2 : Nat) - 1

theorem ofZigzag_zigzag (i : Int) : ofZigzag (zigzag i) = i := by
  unfold ofZigzag zigzag
  split <;> split <;> omega

end Eligibility.Blob
