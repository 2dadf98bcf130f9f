import Eligibility.Blob.Entry
import Eligibility.Blob.Varint

/-!
# The payload of a stored rule

The payload is the number of conditions, the number of entries and the entries. Every alternative
is marked by its number, texts are UTF-8 behind their length in bytes, and all numbers are varints,
except that a double is its eight bytes.
-/

namespace Eligibility

/-- What is stored of a rule. -/
structure Payload where
  conditions : Nat
  entries : List Entry
  deriving DecidableEq

namespace Payload

/-- The payload of a rule. -/
def ofRule (r : Rule) : Payload :=
  let entries := Entry.flatten r
  ⟨entries.countP Entry.isTest, entries⟩

/-- The rule of a payload. -/
def toRule (p : Payload) : Except Entry.Fault Rule := Entry.rebuild p.conditions p.entries

/-! ### Writing -/

def writeText (s : String) : List UInt8 := Blob.varint s.utf8ByteSize ++ s.toUTF8.toList

def comparisonNumber : Comparison → Nat
  | .greater => 0
  | .less => 1
  | .equal => 2

def writeValue : Value → List UInt8
  | .int n => Blob.varint 0 ++ Blob.varint (Blob.zigzag n.toInt)
  | .float x => Blob.varint 1 ++ Blob.littleEndian 8 x.bits.toNat
  | .text s => Blob.varint 2 ++ writeText s

def connectiveNumber : Connective → Nat
  | .and => 1
  | .or => 2

def writeEntry : Entry → List UInt8
  | .test c =>
    Blob.varint 0 ++ writeText c.name ++ Blob.varint (comparisonNumber c.comparison)
      ++ writeValue c.value
  | .chain op arity => Blob.varint (connectiveNumber op) ++ Blob.varint arity

/-- The bytes of a payload. -/
def write (p : Payload) : List UInt8 :=
  Blob.varint p.conditions ++ Blob.varint p.entries.length ++ p.entries.flatMap writeEntry

/-! ### Reading -/

/-- Reads the number of an alternative, which has four bytes at most. -/
def readAlternative (bytes : List UInt8) : Option (Nat × List UInt8) := Blob.readVarint 4 bytes

/-- Reads a size, which has eight bytes at most. -/
def readSize (bytes : List UInt8) : Option (Nat × List UInt8) := Blob.readVarint 8 bytes

def readText (bytes : List UInt8) : Option (String × List UInt8) := do
  let (size, bytes) ← readSize bytes
  let (text, bytes) ← Blob.takeBytes size bytes
  let s ← String.fromUTF8? ⟨text.toArray⟩
  return (s, bytes)

def readComparison (bytes : List UInt8) : Option (Comparison × List UInt8) := do
  let (n, bytes) ← readAlternative bytes
  match n with
  | 0 => return (.greater, bytes)
  | 1 => return (.less, bytes)
  | 2 => return (.equal, bytes)
  | _ => none

def readValue (bytes : List UInt8) : Option (Value × List UInt8) := do
  let (n, bytes) ← readAlternative bytes
  match n with
  | 0 =>
    let (n, bytes) ← readSize bytes
    return (.int (Int64.ofInt (Blob.ofZigzag n)), bytes)
  | 1 =>
    let (bits, bytes) ← Blob.readFixed 8 bytes
    return (.float ⟨UInt64.ofNat bits⟩, bytes)
  | 2 =>
    let (s, bytes) ← readText bytes
    return (.text s, bytes)
  | _ => none

def readEntry (bytes : List UInt8) : Option (Entry × List UInt8) := do
  let (n, bytes) ← readAlternative bytes
  match n with
  | 0 =>
    let (name, bytes) ← readText bytes
    let (comparison, bytes) ← readComparison bytes
    let (value, bytes) ← readValue bytes
    return (.test ⟨name, comparison, value⟩, bytes)
  | 1 =>
    let (arity, bytes) ← readSize bytes
    return (.chain .and arity, bytes)
  | 2 =>
    let (arity, bytes) ← readSize bytes
    return (.chain .or arity, bytes)
  | _ => none

/-- Reads as many entries as stated; those read so far are kept latest first. -/
def readEntries : (count : Nat) → List Entry → List UInt8 → Option (List Entry × List UInt8)
  | 0, read, bytes => some (read.reverse, bytes)
  | count + 1, read, bytes =>
    match readEntry bytes with
    | none => none
    | some (e, bytes) => readEntries count (e :: read) bytes

/-- Reads a payload. Bytes behind it are left alone. -/
def read (bytes : List UInt8) : Option (Payload × List UInt8) := do
  let (conditions, bytes) ← readSize bytes
  let (count, bytes) ← readSize bytes
  let (entries, bytes) ← readEntries count [] bytes
  return (⟨conditions, entries⟩, bytes)

end Payload

end Eligibility
