import Eligibility.Json.Reader
import Eligibility.Value

/-!
# Values and records as JSON

Integers and doubles are numbers and texts are strings. As a double is always written with a point
or an exponent, and an integer never, reading keeps the two apart; only whole numbers beyond 64
signed bits become doubles.

A record is an object from attribute names to values. Of several entries with one key the last one
holds.
-/

namespace Eligibility

-- a power is the same term here and where Mathlib has a reading of its own
attribute [local instance (20000)] instPowNat

/-- The value of a JSON document. Only numbers and strings are values. -/
def Value.ofJson? : Json → Option Value
  | .whole i => some (if i < 2 ^ (63 : Nat) then .int (Int64.ofInt i) else .float (Binary64.ofInt i))
  | .float x => some (.float x)
  | .str s => some (.text s)
  | _ => none

/-- The value as JSON. A double that is not finite becomes `null`, which reads as no value. -/
def Value.writeJson : Value → List Char
  | .int n => Layout.integer n.toInt
  | .float x => Json.writeFloat x
  | .text s => Json.writeString s

namespace Record

/-- Reads entries into a record, each of which has to be a value. -/
def entryReader (inner : Json.Reader Json) : Json.Entries Record where
  admits _ _ := true
  entry record key := inner.filterMap fun x => (Value.ofJson? x).map fun v => record.insert key v

/-- Reads the record at the front of a text. -/
def readJson (cs : List Char) : Except Json.Fault (Record × List Char) :=
  match Json.skipSpace cs with
  | [] => .error .truncated
  | c :: cs =>
    if c = '\x7b' then Json.readObject (entryReader (Json.value (Json.maxNesting - 1))) ∅ cs
    else if c = '[' then .error .mismatched
    else do
      let _ ← Json.readScalar c cs
      throw .mismatched

/-- The record of a JSON text. -/
def ofJson (text : String) : Except Json.Fault Record := do
  let (record, rest) ← readJson text.toList
  Json.atEnd rest
  return record

/-- An entry as JSON. -/
def writeEntry (e : String × Value) : List Char :=
  Json.writeString e.1 ++ ':' :: e.2.writeJson

/-- Entries as a JSON text without blanks, in the order in which they are given. -/
def writeEntries (es : List (String × Value)) : String :=
  String.ofList ('\x7b' :: ([','].intercalate (es.map writeEntry) ++ ['\x7d']))

/-- The record as a JSON text, in the order of the names. -/
def toJson (record : Record) : String := writeEntries record.entries

end Record

end Eligibility
