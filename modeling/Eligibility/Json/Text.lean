import Eligibility.Json.Basic

/-!
# JSON strings

Reading a string literal behind its opening quote, and writing one. Control characters have to be
escaped, and an escape of a surrogate has to be followed by one of its partner. Writing escapes
quotes, backslashes and control characters, and nothing else.
-/

namespace Eligibility.Json

/-! ### Reading -/

/-- The value of a hexadecimal digit, in either case. -/
def hexDigit? (c : Char) : Option Nat :=
  if '0' ≤ c ∧ c ≤ '9' then some (c.toNat - '0'.toNat)
  else if 'a' ≤ c ∧ c ≤ 'f' then some (c.toNat - 'a'.toNat + 10)
  else if 'A' ≤ c ∧ c ≤ 'F' then some (c.toNat - 'A'.toNat + 10)
  else none

/-- The number that four hexadecimal digits denote. -/
def hexValue? : List Char → Option Nat
  | [a, b, c, d] => do
    let a ← hexDigit? a
    let b ← hexDigit? b
    let c ← hexDigit? c
    let d ← hexDigit? d
    return ((a * 16 + b) * 16 + c) * 16 + d
  | _ => none

/-- The fault of an escape that has not four digits: the text counts as cut off where fewer than
four bytes are left of it. -/
def hexFault (cs : List Char) : Fault :=
  if 4 ≤ (String.ofList (cs.take 4)).utf8ByteSize then .malformed else .truncated

/-- Reads the four digits of an escape. -/
def readHex (cs : List Char) : Except Fault (Nat × List Char) :=
  match hexValue? (cs.take 4) with
  | some n => .ok (n, cs.drop 4)
  | none => .error (hexFault cs)

/-- Expects a character. -/
def expect (c : Char) : List Char → Except Fault (List Char)
  | [] => .error .truncated
  | d :: cs => if d = c then .ok cs else .error .malformed

/-- Is the number the first half of a surrogate pair? -/
def isHighSurrogate (n : Nat) : Bool := 0xD800 ≤ n && n ≤ 0xDBFF

/-- Is the number the second half of a surrogate pair? -/
def isLowSurrogate (n : Nat) : Bool := 0xDC00 ≤ n && n ≤ 0xDFFF

/-- Reads an escape by number behind its `u`: one number, or the two of a surrogate pair. -/
def readNumbered (cs : List Char) : Except Fault (Char × List Char) := do
  let (n, cs) ← readHex cs
  -- the second half of a pair stands for nothing on its own
  if isLowSurrogate n then throw .malformed
  if isHighSurrogate n then
    let cs ← expect '\\' cs
    let cs ← expect 'u' cs
    let (m, cs) ← readHex cs
    if isLowSurrogate m then
      -- ten bits of each half, counted from where the characters without halves end
      return (Char.ofNat ((n - 0xD800) * 0x400 + (m - 0xDC00) + 0x10000), cs)
    throw .malformed
  return (Char.ofNat n, cs)

/-- The character of a short escape. -/
def shortEscape? (c : Char) : Option Char :=
  match c with
  | '"' => some '"'
  | '\\' => some '\\'
  | '/' => some '/'
  | 'b' => some '\x08'
  | 'f' => some '\x0c'
  | 'n' => some '\n'
  | 'r' => some '\r'
  | 't' => some '\t'
  | _ => none

/-- Reads an escape behind its backslash. -/
def readEscape : List Char → Except Fault (Char × List Char)
  | [] => .error .truncated
  | c :: cs =>
    match shortEscape? c with
    | some d => .ok (d, cs)
    | none => if c = 'u' then readNumbered cs else .error .malformed

theorem length_readHex {cs rest : List Char} {n : Nat} (h : readHex cs = .ok (n, rest)) :
    rest.length ≤ cs.length := by
  unfold readHex at h
  split at h
  · simp only [Except.ok.injEq, Prod.mk.injEq] at h
    simp [← h.2]
  · simp at h

theorem length_expect {c : Char} {cs rest : List Char} (h : expect c cs = .ok rest) :
    rest.length ≤ cs.length := by
  cases cs with
  | nil => simp [expect] at h
  | cons d ds =>
    simp only [expect] at h
    split at h
    · simp only [Except.ok.injEq] at h
      simp [← h]
    · simp at h

theorem length_readNumbered {cs rest : List Char} {c : Char}
    (h : readNumbered cs = .ok (c, rest)) : rest.length ≤ cs.length := by
  obtain ⟨⟨n, cs₁⟩, h₁, h⟩ := exists_of_bind_eq_ok h
  have l₁ := length_readHex h₁
  simp only at h
  split at h
  · cases h
  · split at h
    · obtain ⟨cs₂, h₂, h⟩ := exists_of_bind_eq_ok h
      obtain ⟨cs₃, h₃, h⟩ := exists_of_bind_eq_ok h
      obtain ⟨⟨m, cs₄⟩, h₄, h⟩ := exists_of_bind_eq_ok h
      have l₂ := length_expect h₂
      have l₃ := length_expect h₃
      have l₄ := length_readHex h₄
      simp only at h
      split at h
      · have hrest : cs₄ = rest := congrArg Prod.snd (Except.ok.inj h)
        rw [← hrest]
        omega
      · cases h
    · have hrest : cs₁ = rest := congrArg Prod.snd (Except.ok.inj h)
      exact hrest ▸ l₁

theorem length_readEscape {cs rest : List Char} {c : Char}
    (h : readEscape cs = .ok (c, rest)) : rest.length ≤ cs.length := by
  cases cs with
  | nil => simp [readEscape] at h
  | cons d ds =>
    simp only [readEscape] at h
    split at h
    · simp only [Except.ok.injEq, Prod.mk.injEq] at h
      simp [← h.2]
    · split at h
      · have := length_readNumbered h
        simp only [List.length_cons]
        omega
      · simp at h

/-- Reads a string literal up to its closing quote; the characters read so far are kept latest
first. -/
def stringFrom (read : List Char) (cs : List Char) : Except Fault (List Char × List Char) :=
  match cs with
  | [] => .error .truncated
  | c :: cs =>
    if c = '"' then .ok (read.reverse, cs)
    else if c = '\\' then
      match _ : readEscape cs with
      | .error fault => .error fault
      | .ok (d, rest) => stringFrom (d :: read) rest
    -- control characters have to be escaped
    else if c.toNat < 0x20 then .error .malformed
    else stringFrom (c :: read) cs
termination_by cs.length
decreasing_by
  · have := length_readEscape ‹_›
    simp only [List.length_cons]
    omega
  · simp

/-- Reads a string behind its opening quote. -/
def readString (cs : List Char) : Except Fault (String × List Char) :=
  match stringFrom [] cs with
  | .error fault => .error fault
  | .ok (read, rest) => .ok (String.ofList read, rest)

theorem length_stringFrom {read cs read' rest : List Char}
    (h : stringFrom read cs = .ok (read', rest)) : rest.length < cs.length := by
  fun_induction stringFrom read cs with
  | case1 => simp at h
  | case2 =>
    simp only [Except.ok.injEq, Prod.mk.injEq] at h
    simp [← h.2]
  | case3 => simp at h
  | case4 read cs d rest' he hq ih =>
    have := length_readEscape he
    have := ih h
    simp only [List.length_cons]
    omega
  | case5 => simp at h
  | case6 read c cs h₁ h₂ h₃ ih =>
    have := ih h
    simp only [List.length_cons]
    omega

theorem length_readString {cs rest : List Char} {s : String}
    (h : readString cs = .ok (s, rest)) : rest.length < cs.length := by
  unfold readString at h
  split at h
  · simp at h
  · next hs =>
    simp only [Except.ok.injEq, Prod.mk.injEq] at h
    exact h.2 ▸ length_stringFrom hs

/-! ### Writing -/

/-- A hexadecimal digit, in lower case. -/
def hexChar (n : Nat) : Char := if n < 10 then Char.ofNat (48 + n) else Char.ofNat (87 + n)

/-- A character inside a string literal. -/
def writeChar (c : Char) : List Char :=
  if c = '"' then ['\\', '"']
  else if c = '\\' then ['\\', '\\']
  else if c = '\x08' then ['\\', 'b']
  else if c = '\x0c' then ['\\', 'f']
  else if c = '\n' then ['\\', 'n']
  else if c = '\r' then ['\\', 'r']
  else if c = '\t' then ['\\', 't']
  else if c.toNat < 0x20 then
    ['\\', 'u', '0', '0', hexChar (c.toNat / 16), hexChar (c.toNat % 16)]
  else [c]

/-- A string literal. -/
def writeString (s : String) : List Char := '"' :: (s.toList.flatMap writeChar ++ ['"'])

end Eligibility.Json
