import Eligibility.Json.Basic
import Eligibility.Number.Decimal
import Eligibility.Number.Layout

/-!
# JSON numbers

Reading a number is quick rather than exact. The digits make a significand of at most 64 bits; those
that do not fit are dropped, and before the point they still count for the exponent. If there was a
point, an exponent or a digit too many, the significand becomes a double and is scaled by a power of
ten, each of the two steps rounded. A number beyond every double is refused.

Numbers without point and exponent stay whole if 64 bits hold them, signed or unsigned, except that
minus zero is a double.
-/

namespace Eligibility.Json

-- a power is the same term here and where Mathlib has a reading of its own
attribute [local instance (20000)] instPowNat

/-- Takes digits into a significand as long as it fits into 64 bits. Gives the significand and the
digits from the first one on that did not fit. -/
def absorb (significand : Nat) : List Char → Nat × List Char
  | [] => (significand, [])
  | c :: cs =>
    if 10 * significand + Digits.ofChar c < 2 ^ (64 : Nat) then
      absorb (10 * significand + Digits.ofChar c) cs
    else (significand, c :: cs)

/-- A power of ten as a double; exact up to the twenty-second. -/
def tenTo (e : Nat) : Binary64 := Binary64.ofDecimal false 1 e

/-- Scales a finite double, not negative, by a power of ten. None if the result is beyond every
double. Below the least power of ten that doubles have, the scaling takes several steps. -/
def scale (x : Binary64) (e : Int) : Option Binary64 :=
  if 308 < e then (if x.magnitude = 0 then some x else none)
  else if 0 ≤ e then some (x.mul (tenTo e.toNat)) |>.filter Binary64.isFinite
  else if -308 ≤ e then some (x.div (tenTo (-e).toNat))
  else if x.magnitude = 0 then some x
  else scale (x.div (tenTo 308)) (e + 308)
termination_by (-e).toNat
decreasing_by omega

/-- The double of a significand and an exponent. -/
def floatOf (negative : Bool) (significand : Nat) (e : Int) : Except Fault Json :=
  match scale (Binary64.ofInt significand) e with
  | none => .error .malformed
  | some x => .ok (.float (x.withSign negative))

/-- The number of a significand that took all digits. -/
def wholeOf (negative : Bool) (significand : Nat) : Json :=
  if !negative then .whole significand
  else if 0 < significand ∧ significand ≤ 2 ^ (63 : Nat) then .whole (-significand)
  else .float ((Binary64.ofInt significand).withSign true)

/-- Reads the digits of a number without fraction and exponent: at least one, and no zero in front
of another. -/
def readWholeDigits (cs : List Char) : Except Fault (List Char × List Char) :=
  match cs with
  | [] => .error .truncated
  | c :: rest =>
    if c = '0' then
      match rest with
      | d :: _ => if d.isDigit then .error .malformed else .ok ([c], rest)
      | [] => .ok ([c], rest)
    else if c.isDigit then .ok (cs.takeWhile Char.isDigit, cs.dropWhile Char.isDigit)
    else .error .malformed

/-- Reads at least one digit. -/
def readDigits (cs : List Char) : Except Fault (List Char × List Char) :=
  match cs with
  | [] => .error .truncated
  | c :: _ =>
    if c.isDigit then .ok (cs.takeWhile Char.isDigit, cs.dropWhile Char.isDigit)
    else .error .malformed

/-- Reads the fraction that may follow. -/
def readFraction (cs : List Char) : Except Fault (Option (List Char) × List Char) :=
  match cs with
  | '.' :: cs => do
    let (ds, cs) ← readDigits cs
    return (some ds, cs)
  | cs => .ok (none, cs)

/-- Reads the exponent that may follow. -/
def readExponent (cs : List Char) : Except Fault (Option Int × List Char) :=
  match cs with
  | [] => .ok (none, [])
  | c :: rest =>
    if c = 'e' ∨ c = 'E' then do
      let (negative, rest) := splitSign rest
      let (ds, rest) ← readDigits rest
      return (some (if negative then -(Digits.toNat ds : Int) else Digits.toNat ds), rest)
    else .ok (none, c :: rest)

/-- Reads a number behind its minus sign, if it has one. -/
def readNumber (negative : Bool) (cs : List Char) : Except Fault (Json × List Char) := do
  let (ds, cs) ← readWholeDigits cs
  let (fraction, cs) ← readFraction cs
  let (exponent, cs) ← readExponent cs
  let (significand, excess) := absorb 0 ds
  match fraction, exponent, excess with
  | none, none, [] => return (wholeOf negative significand, cs)
  | _, _, _ =>
    let fraction := fraction.getD []
    let (significand, dropped) := absorb significand fraction
    -- digits after the point that were dropped change nothing
    let taken : Int := (fraction.length : Int) - dropped.length
    let x ← floatOf negative significand (excess.length - taken + exponent.getD 0)
    return (x, cs)

theorem length_readWholeDigits {cs ds rest : List Char} (h : readWholeDigits cs = .ok (ds, rest)) :
    rest.length < cs.length := by
  unfold readWholeDigits at h
  split at h
  · simp at h
  · next c tail =>
    split at h
    · split at h
      · split at h
        · simp at h
        · simp only [Except.ok.injEq, Prod.mk.injEq] at h
          simp [← h.2]
      · simp only [Except.ok.injEq, Prod.mk.injEq] at h
        simp [← h.2]
    · split at h
      · next hc =>
        simp only [Except.ok.injEq, Prod.mk.injEq] at h
        rw [← h.2, List.dropWhile_cons_of_pos hc]
        have := (List.dropWhile_sublist Char.isDigit (l := tail)).length_le
        simp only [List.length_cons]
        omega
      · simp at h

theorem length_readDigits {cs ds rest : List Char} (h : readDigits cs = .ok (ds, rest)) :
    rest.length ≤ cs.length := by
  unfold readDigits at h
  split at h
  · simp at h
  · split at h
    · simp only [Except.ok.injEq, Prod.mk.injEq] at h
      exact h.2 ▸ (List.dropWhile_sublist _).length_le
    · simp at h

theorem length_readFraction {cs rest : List Char} {ds : Option (List Char)}
    (h : readFraction cs = .ok (ds, rest)) : rest.length ≤ cs.length := by
  unfold readFraction at h
  split at h
  · next tail =>
    obtain ⟨p, hd, hp⟩ := exists_of_bind_eq_ok h
    cases hp
    have := length_readDigits hd
    simp only [List.length_cons]
    omega
  · simp only [Except.ok.injEq, Prod.mk.injEq] at h
    simp [← h.2]

theorem length_splitSign (cs : List Char) : (splitSign cs).2.length ≤ cs.length := by
  unfold splitSign
  split <;> simp

theorem length_readExponent {cs rest : List Char} {e : Option Int}
    (h : readExponent cs = .ok (e, rest)) : rest.length ≤ cs.length := by
  unfold readExponent at h
  split at h
  · simp only [Except.ok.injEq, Prod.mk.injEq] at h
    simp [← h.2]
  · next c tail =>
    split at h
    · obtain ⟨p, hd, hp⟩ := exists_of_bind_eq_ok h
      cases hp
      have : p.2.length ≤ (splitSign tail).2.length := length_readDigits hd
      have := length_splitSign tail
      simp only [List.length_cons]
      omega
    · simp only [Except.ok.injEq, Prod.mk.injEq] at h
      simp [← h.2]

theorem length_readNumber {negative : Bool} {cs rest : List Char} {x : Json}
    (h : readNumber negative cs = .ok (x, rest)) : rest.length < cs.length := by
  obtain ⟨⟨ds, cs₁⟩, h₁, h⟩ := exists_of_bind_eq_ok h
  obtain ⟨⟨fraction, cs₂⟩, h₂, h⟩ := exists_of_bind_eq_ok h
  obtain ⟨⟨exponent, cs₃⟩, h₃, h⟩ := exists_of_bind_eq_ok h
  have l₁ := length_readWholeDigits h₁
  have l₂ := length_readFraction h₂
  have l₃ := length_readExponent h₃
  -- what is computed from the digits takes nothing off the text
  have hrest : rest = cs₃ := by
    simp only at h
    split at h
    · cases h
      rfl
    · obtain ⟨y, _, hy⟩ := exists_of_bind_eq_ok h
      cases hy
      rfl
  rw [hrest]
  omega

/-! ### Writing -/

/-- How doubles are written in JSON: positionally from `1e-5` up to below `1e16`, with a plus
before a positive exponent outside of that, and of two equally near decimals the even one. -/
def floatLayout : Layout where
  tie := .even
  leastPlain := -5
  greatestPlain := 15
  plus := ['+']

/-- A double; JSON has no text for one that is not finite. -/
def writeFloat (x : Binary64) : List Char :=
  if x.isFinite then floatLayout.render x else "null".toList

end Eligibility.Json
