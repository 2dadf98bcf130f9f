import Eligibility.Number.Binary64
import Eligibility.Outcome

/-!
# JSON documents

JSON as it is read: whole numbers of up to 64 bits, signed or unsigned, stay whole, and all other
numbers are doubles. An object keeps its entries in the order of the text, equal keys included.
-/

namespace Eligibility

/-- A JSON document. -/
inductive Json
  | null
  | bool (b : Bool)
  | whole (i : Int)
  | float (x : Binary64)
  | str (s : String)
  | arr (items : List Json)
  | obj (fields : List (String × Json))
  deriving Inhabited

namespace Json

/-- Why a text is not read. -/
inductive Fault
  /-- It ends inside of a value, or before one. -/
  | truncated
  /-- It is not JSON, or nests too deep, or has a number beyond every double. -/
  | malformed
  /-- It is JSON, but not of the shape that was asked for. -/
  | mismatched
  deriving DecidableEq

/-- A reader takes a value off the front of a text and leaves the rest, which is shorter. -/
structure Reader (α : Type) where
  run : List Char → Except Fault (α × List Char)
  shorter : ∀ {cs a rest}, run cs = .ok (a, rest) → rest.length < cs.length

namespace Reader

variable {α β : Type}

/-- Reads a value and turns it into another, if it has the right shape. -/
def filterMap (r : Reader α) (f : α → Option β) : Reader β where
  run cs :=
    match r.run cs with
    | .error fault => .error fault
    | .ok (a, rest) =>
      match f a with
      | none => .error .mismatched
      | some b => .ok (b, rest)
  shorter {cs b rest} h := by
    split at h
    · simp at h
    · next a rest' hr =>
      split at h
      · simp at h
      · simp only [Except.ok.injEq, Prod.mk.injEq] at h
        exact h.2 ▸ r.shorter hr

/-- Reads a value and turns it into another. -/
def map (r : Reader α) (f : α → β) : Reader β := r.filterMap fun a => some (f a)

end Reader

/-- The blanks of JSON. -/
def isSpace (c : Char) : Bool := c == ' ' || c == '\n' || c == '\t' || c == '\r'

/-- Drops the blanks at the front. -/
def skipSpace (cs : List Char) : List Char := cs.dropWhile isSpace

theorem length_skipSpace (cs : List Char) : (skipSpace cs).length ≤ cs.length :=
  (List.dropWhile_sublist isSpace).length_le

end Json

end Eligibility
