import Eligibility.Proofs.Blob.Normal

/-!
# The length in the header

The header has four bytes for the length of the payload, and writing puts the length there modulo
`2 ^ 32`. Nothing keeps a rule with a longer payload from being written: its header is wrong, and
there is no error. So the header is right exactly for payloads below `2 ^ 32` bytes
(`Rule.statedSize_toBlob_eq_iff`), and `Rule.not_statedSize_toBlob` is a rule with one condition for
which it is not.

What such a rule is written as is lost. It cannot be read back from those bytes, nor from any other
bytes, since whatever is read has a normal form that fits into the four bytes
(`Rule.length_write_of_ofBlob`). A rule is held by any bytes at all only if it is read back from its
own.
-/

namespace Eligibility

open Blob

/-- The header states the length of the payload modulo `2 ^ 32`. -/
theorem Blob.statedSize_wrap (payload : List UInt8) :
    statedSize (wrap payload) = payload.length % 2 ^ 32 := by
  rw [statedSize, field_length_wrap, ofLittleEndian_littleEndian]
  rfl

namespace Rule

/-- The length of the bytes behind the header. -/
theorem length_toBlob (r : Rule) :
    r.toBlob.length - headerSize = (Payload.ofRule r).write.length := by
  rw [toBlob, length_wrap, Nat.add_sub_cancel_left]

/-- What is read from bytes, be they written or not, has a short payload of its own. -/
theorem length_write_of_ofBlob {bytes : List UInt8} {r : Rule} (h : ofBlob bytes = .ok r) :
    (Payload.ofRule r).write.length < 2 ^ 32 := by
  obtain ⟨-, h_payload⟩ := ofBlob_eq_ok_iff.mp h
  obtain ⟨p, rest, h_read, h_rule⟩ := exists_of_ofPayload h_payload
  have h_stated := statedSize_lt bytes
  have h_length : (payload bytes).length ≤ statedSize bytes := List.length_take_le _ _
  have h_spent := Payload.spends_read h_read
  have h_le := Payload.length_write_ofRule_le h_rule (by omega)
  omega

/-- **When the header is right.** It states the length of what is behind it modulo `2 ^ 32`, so it is
right exactly for payloads that are shorter. The rules that any bytes hold are those with storable
conditions and such a payload, and these are the rules that are read back from their own bytes. -/
theorem statedSize_toBlob_eq_iff (r : Rule) :
    statedSize r.toBlob = (r.toBlob.length - headerSize) % 2 ^ 32 ∧
    (statedSize r.toBlob = r.toBlob.length - headerSize ↔
      (Payload.ofRule r).write.length < 2 ^ 32) ∧
    (ofBlob r.toBlob = .ok r ↔ ∃ bytes, ofBlob bytes = .ok r) ∧
    ((∃ bytes, ofBlob bytes = .ok r) ↔
      (∀ c ∈ r.conditions, c.IsStorable) ∧ statedSize r.toBlob = r.toBlob.length - headerSize) := by
  have h_stated : statedSize r.toBlob = (r.toBlob.length - headerSize) % 2 ^ 32 := by
    rw [length_toBlob]
    exact statedSize_wrap _
  have h_right : statedSize r.toBlob = r.toBlob.length - headerSize ↔
      (Payload.ofRule r).write.length < 2 ^ 32 := by
    rw [h_stated, length_toBlob]
    exact Nat.mod_eq_iff_lt (by decide)
  -- from any bytes to the length of the payload, and from there to the bytes that are written
  have h_held : ∀ bytes, ofBlob bytes = .ok r →
      (∀ c ∈ r.conditions, c.IsStorable) ∧ (Payload.ofRule r).write.length < 2 ^ 32 :=
    fun _ h => ⟨isStorable_of_ofBlob h, length_write_of_ofBlob h⟩
  refine ⟨h_stated, h_right, ⟨fun h => ⟨_, h⟩, ?_⟩, ?_, ?_⟩
  · rintro ⟨bytes, h⟩
    obtain ⟨h_storable, h_short⟩ := h_held bytes h
    exact ofBlob_toBlob_of_isStorable h_storable h_short
  · rintro ⟨bytes, h⟩
    obtain ⟨h_storable, h_short⟩ := h_held bytes h
    exact ⟨h_storable, h_right.mpr h_short⟩
  · rintro ⟨h_storable, h_size⟩
    exact ⟨r.toBlob, ofBlob_toBlob_of_isStorable h_storable (h_right.mp h_size)⟩

/-! ### A payload that is too long -/

/-- The payload of a condition that compares to a text. -/
theorem length_write_text (name : String) (comparison : Comparison) (s : String) :
    (Payload.ofRule (.test ⟨name, comparison, .text s⟩)).write.length
      = 5 + (Payload.writeText name).length + (Payload.writeText s).length := by
  rw [Payload.ofRule, Entry.flatten_test, Payload.length_write, List.flatMap_singleton,
    Payload.writeEntry, Payload.writeValue]
  -- one byte each for the two counts, the kind of the entry, the comparison and the kind of the value
  have h_byte {n : Nat} (h : n < 3) : (varint n).length = 1 := Payload.length_varint_alternative h
  have h_one : (varint 1).length = 1 := h_byte (by decide)
  change (varint 1).length + (varint 1).length + _ = _
  simp only [List.length_append, h_one, h_byte (by decide : 0 < 3), h_byte (by decide : 2 < 3),
    h_byte (Payload.comparisonNumber_lt comparison)]
  omega

theorem utf8ByteSize_replicate (n : Nat) :
    (String.ofList (List.replicate n 'x')).utf8ByteSize = n := by
  induction n with
  | zero => rfl
  | succ n ih =>
    rw [List.replicate_succ', String.ofList_append, String.utf8ByteSize_append, ih]
    rfl

/-- Bytes that state a payload of no bytes hold no rule, whatever their digest is. -/
theorem ofBlob_ne_ok_of_statedSize {bytes : List UInt8} (h : statedSize bytes = 0) (r : Rule) :
    ofBlob bytes ≠ .ok r := by
  intro h_ok
  obtain ⟨-, h_payload⟩ := ofBlob_eq_ok_iff.mp h_ok
  have h_empty : payload bytes = [] := by
    rw [payload, h]
    exact List.take_zero
  rw [h_empty] at h_payload
  exact absurd h_payload (by simp [ofPayload, Payload.read, Payload.readSize, readVarint])

/-- **A header that is wrong.** One condition with `2 ^ 32 - 12` letters in quotes has a payload of
`2 ^ 32` bytes. It is storable and it is written, behind a header that states no bytes at all. No
rule is read back from that. -/
theorem not_statedSize_toBlob :
    let letters := String.ofList (List.replicate (2 ^ 32 - 12) 'x')
    let c : Condition := ⟨"a", .equal, .text letters⟩
    let bytes := toBlob (.test c)
    c.IsStorable ∧ bytes.length - headerSize = 2 ^ 32 ∧ statedSize bytes = 0 ∧
      statedSize bytes ≠ bytes.length - headerSize ∧ ∀ r, ofBlob bytes ≠ .ok r := by
  intro letters c bytes
  -- five single bytes, two for the name, and five more for the length of the text before its letters
  have h_length : (Payload.ofRule (.test c)).write.length = 2 ^ 32 := by
    rw [length_write_text, Payload.length_writeText, Payload.length_writeText,
      utf8ByteSize_replicate]
    rfl
  have h_behind : bytes.length - headerSize = 2 ^ 32 := (length_toBlob (.test c)).trans h_length
  have h_stated : statedSize bytes = 0 := by
    rw [show bytes = wrap (Payload.ofRule (.test c)).write from rfl, statedSize_wrap, h_length,
      Nat.mod_self]
  refine ⟨⟨by simp [c], fun h => absurd h (by decide)⟩, h_behind, h_stated, ?_,
    ofBlob_ne_ok_of_statedSize h_stated⟩
  rw [h_behind, h_stated]
  decide

end Rule

end Eligibility
