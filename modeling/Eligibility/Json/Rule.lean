import Eligibility.Json.Record
import Eligibility.Rule.Basic

/-!
# Rules as JSON

A condition is an object of the kind `operand` with an attribute, a comparator and a value, and a
joined rule one of the kind `operator` with an operator, a left and a right side. The entries may
come in any order and among others. An array stands for an object as well: the kind comes first,
and then the entries in their order.

The kind of the outermost rule is checked as soon as it is read, and all else when the whole rule
has been read.
-/

namespace Eligibility

namespace Json

/-- The two kinds of rules. -/
inductive NodeKind
  | operand
  | operator
  deriving DecidableEq

/-- The kind of a name. -/
def NodeKind.ofName? (s : String) : Option NodeKind :=
  if s = "operand" then some .operand
  else if s = "operator" then some .operator
  else none

/-- The entries of a rule besides its kind: by key, or in order. -/
inductive Body
  | fields (fields : List (String × Json))
  | items (items : List Json)

/-- The value under a key that occurs just once. -/
def single? (key : String) (fields : List (String × Json)) : Option Json :=
  match fields.filter (·.1 == key) with
  | [(_, x)] => some x
  | _ => none

/-- The entries of the given keys, in their order. By key each has to be there just once, and in
order there are to be no others. -/
def Body.pick (keys : List String) : Body → Option (List Json)
  | fields fs => keys.mapM fun key => single? key fs
  | items xs => if xs.length = keys.length then some xs else none

/-- The kind that a document names; inside of a rule also by its number. -/
def kind? : Json → Option NodeKind
  | .str s => NodeKind.ofName? s
  | .whole 0 => some .operand
  | .whole 1 => some .operator
  | _ => none

/-- Takes a rule apart into its kind and the rest. -/
def tagged? : Json → Option (NodeKind × Body)
  | .obj fields => do
    let kind ← (← single? "kind" fields).kind?
    return (kind, .fields (fields.filter (·.1 != "kind")))
  | .arr (tag :: items) => do
    let kind ← tag.kind?
    return (kind, .items items)
  | _ => none

def string? : Json → Option String
  | .str s => some s
  | _ => none

/-- What a name stands for. The name may also be the only key of an object, over nothing. -/
def named? {α : Type} (meaning : String → Option α) : Json → Option α
  | .str s => meaning s
  | .obj [(s, .null)] => meaning s
  | .obj [(s, .obj [])] => meaning s
  | _ => none

end Json

namespace Rule

/-- The condition that the three entries make. -/
def conditionOf? (name comparison value : Json) : Option Condition := do
  let name ← name.string?
  let comparison ← comparison.named? Comparison.ofSymbol?
  let value ← Value.ofJson? value
  return ⟨name, comparison, value⟩

/-- The rule of a kind and its entries, at most `levels` levels high. -/
def ofTagged? : (levels : Nat) → Json.NodeKind → Json.Body → Option Rule
  | 0, _, _ => none
  | _ + 1, .operand, body =>
    match body.pick ["attribute", "comparator", "value"] with
    | some [name, comparison, value] => (conditionOf? name comparison value).map .test
    | _ => none
  | levels + 1, .operator, body =>
    match body.pick ["operator", "left", "right"] with
    | some [op, left, right] => do
      let op ← op.named? Connective.ofKeyword?
      let (kind, body) ← left.tagged?
      let left ← ofTagged? levels kind body
      let (kind, body) ← right.tagged?
      let right ← ofTagged? levels kind body
      return .join op left right
    | _ => none

/-! ### Reading -/

/-- Reads the kind of the outermost rule, which has to be a name. -/
def readKind (cs : List Char) : Except Json.Fault (Json.NodeKind × List Char) :=
  match Json.skipSpace cs with
  | [] => .error .truncated
  | c :: cs =>
    if c = '[' ∨ c = '\x7b' then .error .mismatched
    else
      match Json.readScalar c cs with
      | .error fault => .error fault
      | .ok (x, rest) =>
        match x.string?.bind Json.NodeKind.ofName? with
        | none => .error .mismatched
        | some kind => .ok (kind, rest)

theorem length_readKind {cs rest : List Char} {kind : Json.NodeKind}
    (h : readKind cs = .ok (kind, rest)) : rest.length < cs.length := by
  have hs := Json.length_skipSpace cs
  unfold readKind at h
  split at h
  · simp at h
  · next c ds he =>
    rw [he] at hs
    split at h
    · simp at h
    · split at h
      · simp at h
      · next hr =>
        have := Json.length_readScalar hr
        split at h
        · simp at h
        · simp only [Except.ok.injEq, Prod.mk.injEq] at h
          rw [← h.2]
          omega

/-- The reader of the outermost kind. -/
def kindReader : Json.Reader Json.NodeKind := ⟨readKind, length_readKind⟩

/-- Reads the entries of the outermost rule, its kind among them; it must not come twice. -/
def entries (inner : Json.Reader Json) :
    Json.Entries (Option Json.NodeKind × List (String × Json)) where
  admits state key := !(key == "kind" && state.1.isSome)
  entry state key :=
    if key = "kind" then kindReader.map fun kind => (some kind, state.2)
    else inner.map fun x => (state.1, (key, x) :: state.2)

/-- Reads the items of the outermost rule, its kind first. -/
def items (inner : Json.Reader Json) (state : Option Json.NodeKind × List Json) :
    Json.Reader (Option Json.NodeKind × List Json) :=
  match state with
  | (none, xs) => kindReader.map fun kind => (some kind, xs)
  | (some kind, xs) => inner.map fun x => (some kind, x :: xs)

/-- Reads the outermost rule up to its end: its kind, if it has one, and its other entries. -/
def readTagged (cs : List Char) :
    Except Json.Fault ((Option Json.NodeKind × Json.Body) × List Char) :=
  let inner := Json.value (Json.maxNesting - 1)
  match Json.skipSpace cs with
  | [] => .error .truncated
  | c :: cs =>
    if c = '[' then do
      let ((kind, xs), rest) ← Json.readArray (items inner) (none, []) cs
      return ((kind, .items xs.reverse), rest)
    else if c = '\x7b' then do
      let ((kind, fields), rest) ← Json.readObject (entries inner) (none, []) cs
      return ((kind, .fields fields.reverse), rest)
    else do
      -- a scalar is read to its end before it is refused, so a fault in it comes first
      let _ ← Json.readScalar c cs
      throw .mismatched

/-- The rule of a JSON text. -/
def ofJson (text : String) : Except Json.Fault Rule := do
  let ((kind, body), rest) ← readTagged text.toList
  match kind.bind fun kind => ofTagged? Json.maxNesting kind body with
  | none => throw .mismatched
  | some rule =>
    -- what follows the document is looked at last
    Json.atEnd rest
    return rule

/-! ### Writing -/

/-- The greatest height of a rule that is written. -/
def maxJsonHeight : Nat := 256

/-- A condition as JSON. -/
def writeCondition (c : Condition) : List Char :=
  "\x7b\"kind\":\"operand\",\"attribute\":".toList ++ Json.writeString c.name
    ++ ",\"comparator\":".toList ++ Json.writeString c.comparison.symbol
    ++ ",\"value\":".toList ++ c.value.writeJson ++ ['\x7d']

/-- A rule as JSON, if it has at most `levels` levels. -/
def writeLevels : (levels : Nat) → Rule → Option (List Char)
  | 0, _ => none
  | _ + 1, test c => some (writeCondition c)
  | levels + 1, join op left right => do
    let left ← writeLevels levels left
    let right ← writeLevels levels right
    return "\x7b\"kind\":\"operator\",\"operator\":".toList ++ Json.writeString op.keyword
      ++ ",\"left\":".toList ++ left ++ ",\"right\":".toList ++ right ++ ['\x7d']

/-- The rule as a JSON text without blanks. Rules that are too high are not written. -/
def toJson? (rule : Rule) : Option String := (writeLevels maxJsonHeight rule).map String.ofList

/-- Why a rule is not written. -/
def tooHighMessage : String :=
  "rule tree nested deeper than " ++ toString maxJsonHeight ++ " levels"

end Rule

end Eligibility
