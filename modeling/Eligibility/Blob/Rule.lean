import Eligibility.Blob.Blake3
import Eligibility.Blob.Payload

/-!
# Rules as bytes

A rule is stored as the payload of its entries, in an envelope. Reading undoes the three layers from
the outside in, and the first that fails names the error.

The payload is stored behind a header of 32 bytes:

| bytes    | content                                  |
|----------|------------------------------------------|
| 0 to 3   | the letters `RTRE`                       |
| 4 and 5  | the version of the format                |
| 6 and 7  | the version of the writer, not read      |
| 8 to 11  | reserved, not read                       |
| 12 to 15 | the length of the payload, modulo `2^32` |
| 16 to 31 | the digest of the payload                |

`Blob.wrap` puts a payload into its envelope and `Blob.unwrap` takes it out again. Whatever follows
the payload is left alone.
-/

namespace Eligibility

/-- Why bytes are no stored rule. -/
inductive BlobError
  | badMagic
  | incompatibleVersion (found : Nat)
  | checksumMismatch
  /-- There are fewer bytes than the header, or the length in it, asks for. -/
  | lengthMismatch (expected found : Nat)
  /-- The payload is not a list of entries. -/
  | undecodable
  /-- The entries of the payload do not make a rule. -/
  | invalid (fault : Entry.Fault)
  deriving DecidableEq

namespace Blob

/-- The letters `RTRE`, by which a stored rule is known. -/
def magic : List UInt8 := [0x52, 0x54, 0x52, 0x45]

def formatVersion : Nat := 1

def writerVersion : Nat := 1

def headerSize : Nat := 32

/-- The header of a payload. -/
def header (payload : List UInt8) : List UInt8 :=
  magic ++ littleEndian 2 formatVersion ++ littleEndian 2 writerVersion ++ littleEndian 4 0
    ++ littleEndian 4 payload.length ++ Blake3.digest payload

theorem length_header (payload : List UInt8) : (header payload).length = headerSize := by
  simp [header, magic, headerSize, Blake3.digest]

/-- A payload behind its header. -/
def wrap (payload : List UInt8) : List UInt8 := header payload ++ payload

/-- The bytes of a field, which starts at `offset`. -/
def field (bytes : List UInt8) (offset width : Nat) : List UInt8 := (bytes.drop offset).take width

/-- Checks the header and takes the payload out. -/
def unwrap (bytes : List UInt8) : Except BlobError (List UInt8) :=
  let version := ofLittleEndian (field bytes 4 2)
  let size := ofLittleEndian (field bytes 12 4)
  let payload := field bytes headerSize size
  if bytes.length < headerSize then .error (.lengthMismatch headerSize bytes.length)
  else if field bytes 0 4 ≠ magic then .error .badMagic
  else if version ≠ formatVersion then .error (.incompatibleVersion version)
  else if bytes.length < headerSize + size then
    .error (.lengthMismatch size (bytes.length - headerSize))
  -- only a payload of the full length has a digest to compare
  else if Blake3.digest payload ≠ field bytes 16 16 then .error .checksumMismatch
  else .ok payload

end Blob

namespace BlobError

def message : BlobError → String
  | badMagic => "not a rule tree binary: invalid magic bytes"
  | incompatibleVersion found =>
    "incompatible format version: blob is v" ++ toString found ++ ", engine supports v"
      ++ toString Blob.formatVersion
  | checksumMismatch => "integrity check failed: BLAKE3 checksum mismatch"
  | lengthMismatch expected found =>
    "payload length mismatch: expected " ++ toString expected ++ " bytes, got " ++ toString found
  | undecodable => "failed to decode payload"
  | invalid fault => "validation failed: " ++ fault.message

end BlobError

/-! ### Stored rules -/

/-- The bytes of a rule. -/
def Rule.toBlob (r : Rule) : List UInt8 := Blob.wrap (Payload.ofRule r).write

/-- The rule of a payload, which has to start with a list of entries. -/
def Rule.ofPayload (payload : List UInt8) : Except BlobError Rule :=
  match Payload.read payload with
  | none => .error .undecodable
  | some (p, _) => p.toRule.mapError .invalid

/-- Reads a rule from its bytes. -/
def Rule.ofBlob (bytes : List UInt8) : Except BlobError Rule := do
  let payload ← Blob.unwrap bytes
  Rule.ofPayload payload

end Eligibility
