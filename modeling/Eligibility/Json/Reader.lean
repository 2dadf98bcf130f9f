import Eligibility.Json.Number
import Eligibility.Json.Text

/-!
# Reading JSON

A text is read from left to right, and the first thing that is wrong decides. Arrays and objects
are folds: each item, and each entry under its key, takes the state on to the next one with a
reader that may depend on the state. So the shape of an object can be checked while it is read, and
a fault of shape in front of a fault of spelling is the one that is reported.

How deep arrays and objects may still nest is counted down by `Json.value`, which is what makes it
total.
-/

namespace Eligibility.Json

/-! ### Words, strings and numbers -/

/-- Reads the rest of a word that stands for the document `x`. -/
def readWord (x : Json) : List Char → List Char → Except Fault (Json × List Char)
  | [], cs => .ok (x, cs)
  | c :: expected, cs =>
    match cs with
    | [] => .error .truncated
    | d :: cs => if d = c then readWord x expected cs else .error .malformed

theorem length_readWord {x y : Json} {expected cs rest : List Char}
    (h : readWord x expected cs = .ok (y, rest)) : rest.length ≤ cs.length := by
  fun_induction readWord x expected cs with
  | case1 cs =>
    simp only [Except.ok.injEq, Prod.mk.injEq] at h
    simp [← h.2]
  | case2 => simp at h
  | case3 c expected cs ih =>
    have := ih h
    simp only [List.length_cons]
    omega
  | case4 => simp at h

/-- Reads a document that starts with the character `c` and is neither an array nor an object. -/
def readScalar (c : Char) (cs : List Char) : Except Fault (Json × List Char) :=
  if c = 'n' then readWord .null "ull".toList cs
  else if c = 't' then readWord (.bool true) "rue".toList cs
  else if c = 'f' then readWord (.bool false) "alse".toList cs
  else if c = '"' then
    match readString cs with
    | .error fault => .error fault
    | .ok (s, rest) => .ok (.str s, rest)
  -- anything else has to be a number
  else if c = '-' then readNumber true cs
  else readNumber false (c :: cs)

theorem length_readScalar {c : Char} {cs rest : List Char} {x : Json}
    (h : readScalar c cs = .ok (x, rest)) : rest.length < (c :: cs).length := by
  unfold readScalar at h
  simp only [List.length_cons]
  split at h
  · have := length_readWord h
    omega
  · split at h
    · have := length_readWord h
      omega
    · split at h
      · have := length_readWord h
        omega
      · split at h
        · split at h
          · simp at h
          · next hs =>
            have := length_readString hs
            simp only [Except.ok.injEq, Prod.mk.injEq] at h
            rw [← h.2]
            omega
        · split at h
          · have := length_readNumber h
            omega
          · simpa using length_readNumber h

/-! ### Arrays and objects -/

/-- What stands behind an item: the end of the array or object, or another item. -/
inductive Next
  | closed (rest : List Char)
  | more (rest : List Char)

/-- The text that is left. -/
def Next.rest : Next → List Char
  | closed rest => rest
  | more rest => rest

/-- What stands behind the opening bracket. -/
def firstItem (close : Char) (cs : List Char) : Except Fault Next :=
  match skipSpace cs with
  | [] => .error .truncated
  | c :: cs => .ok (if c = close then .closed cs else .more (c :: cs))

/-- What stands behind an item. A comma has to be followed by another item. -/
def nextItem (close : Char) (cs : List Char) : Except Fault Next :=
  match skipSpace cs with
  | [] => .error .truncated
  | c :: cs =>
    if c = close then .ok (.closed cs)
    else if c = ',' then
      match skipSpace cs with
      | [] => .error .truncated
      | d :: ds => if d = close then .error .malformed else .ok (.more (d :: ds))
    else .error .malformed

theorem length_firstItem {close : Char} {cs : List Char} {next : Next}
    (h : firstItem close cs = .ok next) : next.rest.length ≤ cs.length := by
  have hs := length_skipSpace cs
  unfold firstItem at h
  split at h
  · simp at h
  · next c ds he =>
    rw [he, List.length_cons] at hs
    simp only [Except.ok.injEq] at h
    subst h
    split <;> simp only [Next.rest, List.length_cons] <;> omega

theorem length_nextItem {close : Char} {cs : List Char} {next : Next}
    (h : nextItem close cs = .ok next) : next.rest.length < cs.length := by
  have hs := length_skipSpace cs
  unfold nextItem at h
  split at h
  · simp at h
  · next c ds he =>
    rw [he, List.length_cons] at hs
    have ht := length_skipSpace ds
    split at h
    · simp only [Except.ok.injEq] at h
      subst h
      simp only [Next.rest]
      omega
    · split at h
      · split at h
        · simp at h
        · next d es he' =>
          rw [he'] at ht
          split at h
          · simp at h
          · simp only [Except.ok.injEq] at h
            subst h
            simp only [Next.rest]
            omega
      · simp at h

variable {σ : Type}

/-- Reads the items behind one that was read, up to the closing bracket. -/
def itemsFrom (close : Char) (item : σ → Reader σ) (state : σ) (cs : List Char) :
    Except Fault (σ × List Char) :=
  match _ : nextItem close cs with
  | .error fault => .error fault
  | .ok (.closed rest) => .ok (state, rest)
  | .ok (.more rest) =>
    match _ : (item state).run rest with
    | .error fault => .error fault
    | .ok (state, rest) => itemsFrom close item state rest
termination_by cs.length
decreasing_by
  have h₁ := length_nextItem ‹nextItem _ _ = _›
  have h₂ := (item _).shorter ‹_›
  simp only [Next.rest] at h₁
  omega

theorem length_itemsFrom {close : Char} {item : σ → Reader σ} {state state' : σ}
    {cs rest : List Char} (h : itemsFrom close item state cs = .ok (state', rest)) :
    rest.length < cs.length := by
  fun_induction itemsFrom close item state cs with
  | case1 => simp at h
  | case2 state cs rest' hn =>
    have := length_nextItem hn
    simp only [Except.ok.injEq, Prod.mk.injEq] at h
    simp only [Next.rest] at this
    exact h.2 ▸ this
  | case3 => simp at h
  -- the comma, the item and all behind it are each shorter than what they start from
  | case4 state cs rest' hn state₁ rest₁ hr ih =>
    have h₁ := length_nextItem hn
    have h₂ := (item state).shorter hr
    have := ih h
    simp only [Next.rest] at h₁
    omega

/-- Reads all items behind the opening bracket, from the state `start` on. -/
def readItems (close : Char) (item : σ → Reader σ) (start : σ) (cs : List Char) :
    Except Fault (σ × List Char) :=
  match firstItem close cs with
  | .error fault => .error fault
  | .ok (.closed rest) => .ok (start, rest)
  | .ok (.more rest) =>
    match (item start).run rest with
    | .error fault => .error fault
    | .ok (state, rest) => itemsFrom close item state rest

theorem length_readItems {close : Char} {item : σ → Reader σ} {start state : σ}
    {cs rest : List Char} (h : readItems close item start cs = .ok (state, rest)) :
    rest.length ≤ cs.length := by
  unfold readItems at h
  split at h
  · simp at h
  · next hn =>
    have := length_firstItem hn
    simp only [Except.ok.injEq, Prod.mk.injEq] at h
    simp only [Next.rest] at this
    exact h.2 ▸ this
  · next hn =>
    have h₁ := length_firstItem hn
    simp only [Next.rest] at h₁
    split at h
    · simp at h
    · next hr =>
      have h₂ := (item start).shorter hr
      have := length_itemsFrom h
      omega

/-- How the entries of an object are read: which keys are admitted, and what an entry does. -/
structure Entries (σ : Type) where
  admits : σ → String → Bool
  entry : σ → String → Reader σ

/-- Reads a key and what stands between it and its value. The key is judged as it is read. -/
def readKey (admits : String → Bool) (cs : List Char) : Except Fault (String × List Char) := do
  let cs ← expect '"' cs
  let (key, cs) ← readString cs
  -- a key that is not admitted is refused before its colon is asked for
  if !admits key then throw .mismatched
  let cs ← expect ':' (skipSpace cs)
  return (key, cs)

theorem length_readKey {admits : String → Bool} {cs rest : List Char} {key : String}
    (h : readKey admits cs = .ok (key, rest)) : rest.length < cs.length := by
  obtain ⟨cs₁, h₁, h⟩ := exists_of_bind_eq_ok h
  obtain ⟨⟨key', cs₂⟩, h₂, h⟩ := exists_of_bind_eq_ok h
  have l₁ := length_expect h₁
  have l₂ := length_readString h₂
  have l₃ := length_skipSpace cs₂
  simp only at h
  split at h
  · cases h
  · obtain ⟨cs₄, h₄, h⟩ := exists_of_bind_eq_ok h
    have l₄ := length_expect h₄
    cases h
    omega

/-- Reads an entry. -/
def Entries.reader (entries : Entries σ) (state : σ) : Reader σ where
  run cs :=
    match readKey (entries.admits state) cs with
    | .error fault => .error fault
    | .ok (key, rest) => (entries.entry state key).run rest
  shorter {cs a rest} h := by
    split at h
    · simp at h
    · next hk =>
      have := length_readKey hk
      have := (entries.entry state _).shorter h
      omega

/-- Reads an array behind its opening bracket. -/
def readArray (item : σ → Reader σ) (start : σ) (cs : List Char) : Except Fault (σ × List Char) :=
  readItems ']' item start cs

/-- Reads an object behind its opening brace. -/
def readObject (entries : Entries σ) (start : σ) (cs : List Char) : Except Fault (σ × List Char) :=
  readItems '\x7d' entries.reader start cs

/-! ### Whole documents -/

/-- Collects the items of an array, latest first. -/
def collectItems (inner : Reader Json) (items : List Json) : Reader (List Json) :=
  inner.map (· :: items)

/-- Collects the entries of an object, latest first. -/
def collectEntries (inner : Reader Json) : Entries (List (String × Json)) where
  admits _ _ := true
  entry fields key := inner.map fun x => (key, x) :: fields

/-- Reads a document whose arrays and objects hold what `inner` reads. Without an `inner` reader the
text nests too deep here for an array or object. -/
def readDocument (inner : Option (Reader Json)) (cs : List Char) :
    Except Fault (Json × List Char) :=
  match skipSpace cs with
  | [] => .error .truncated
  | c :: cs =>
    if c = '[' then
      match inner with
      | none => .error .malformed
      | some inner => do
        let (items, rest) ← readArray (collectItems inner) [] cs
        return (.arr items.reverse, rest)
    else if c = '\x7b' then
      match inner with
      | none => .error .malformed
      | some inner => do
        let (fields, rest) ← readObject (collectEntries inner) [] cs
        return (.obj fields.reverse, rest)
    else readScalar c cs

theorem length_readDocument {inner : Option (Reader Json)} {cs rest : List Char} {x : Json}
    (h : readDocument inner cs = .ok (x, rest)) : rest.length < cs.length := by
  have hs := length_skipSpace cs
  unfold readDocument at h
  split at h
  · simp at h
  · next c ds he =>
    rw [he, List.length_cons] at hs
    split at h
    · split at h
      · simp at h
      · next inner =>
        -- one character is gone before the items are read
        obtain ⟨p, hr, hp⟩ := exists_of_bind_eq_ok h
        have := length_readItems hr
        cases hp
        omega
    · split at h
      · split at h
        · simp at h
        · next inner =>
          obtain ⟨p, hr, hp⟩ := exists_of_bind_eq_ok h
          have := length_readItems hr
          cases hp
          omega
      · have := length_readScalar h
        rw [List.length_cons] at this
        omega

/-- The reader of documents in which arrays and objects nest at most `levels` deep. -/
def value : Nat → Reader Json
  | 0 => ⟨readDocument none, length_readDocument⟩
  | levels + 1 => ⟨readDocument (some (value levels)), length_readDocument⟩

/-- How deep arrays and objects may nest in a text. -/
def maxNesting : Nat := 127

/-- Checks that nothing but blanks is left. -/
def atEnd (cs : List Char) : Except Fault Unit :=
  if skipSpace cs = [] then .ok () else .error .malformed

end Eligibility.Json
