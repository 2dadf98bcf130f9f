/-!
# Digits and blanks

Two classes of characters. Natural numbers are texts of ASCII digits, in both directions:
`Digits.ofNat` writes a number without leading zeros and `Digits.toNat` reads any run of digits.

Blanks are the characters with the Unicode property *White_Space*. They separate the tokens of rule
text and are trimmed from quoted numbers and from the lines of a rule file. The zero-width space,
the byte-order mark and the Mongolian vowel separator are not among them.
-/

namespace Eligibility

/-! ### Decimal digits -/

namespace Digits

/-- The character of a digit below ten. -/
def char (d : Nat) : Char := Char.ofNat (48 + d)

/-- The digit that a character stands for. Only meaningful on the ten ASCII digits. -/
def ofChar (c : Char) : Nat := c.toNat - 48

/-- The decimal text of a number, without leading zeros; zero is `0`. -/
def ofNat (n : Nat) : List Char :=
  if n < 10 then [char n] else ofNat (n / 10) ++ [char (n % 10)]

/-- The number that a run of digits denotes; leading zeros do not count. -/
def toNat (cs : List Char) : Nat :=
  cs.foldl (fun n c => 10 * n + ofChar c) 0

@[simp] theorem toNat_nil : toNat [] = 0 := rfl

theorem toNat_concat (cs : List Char) (c : Char) :
    toNat (cs ++ [c]) = 10 * toNat cs + ofChar c := by
  simp [toNat, List.foldl_append]

theorem ofChar_char {d : Nat} (h : d < 10) : ofChar (char d) = d := by
  have hd : d = 0 ∨ d = 1 ∨ d = 2 ∨ d = 3 ∨ d = 4 ∨ d = 5 ∨ d = 6 ∨ d = 7 ∨ d = 8 ∨ d = 9 := by
    omega
  rcases hd with rfl | rfl | rfl | rfl | rfl | rfl | rfl | rfl | rfl | rfl <;> decide

/-- Reading a written number gives the number back. -/
theorem toNat_ofNat (n : Nat) : toNat (ofNat n) = n := by
  fun_induction ofNat n with
  | case1 n h => simp [toNat, ofChar_char h]
  | case2 n h ih =>
    rw [toNat_concat, ih, ofChar_char (Nat.mod_lt n (by decide))]
    omega

end Digits

/-! ### Blank characters -/

/-- Has the character the property White_Space? -/
def isBlank (c : Char) : Bool :=
  let n := c.toNat
  (0x09 ≤ n && n ≤ 0x0D) || n == 0x20 || n == 0x85 || n == 0xA0 || n == 0x1680
    || (0x2000 ≤ n && n ≤ 0x200A) || n == 0x2028 || n == 0x2029 || n == 0x202F
    || n == 0x205F || n == 0x3000

/-- Removes the blanks at both ends. -/
def trimBlanks (cs : List Char) : List Char :=
  ((cs.dropWhile isBlank).reverse.dropWhile isBlank).reverse

end Eligibility
