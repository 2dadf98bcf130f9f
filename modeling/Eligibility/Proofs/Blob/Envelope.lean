import Eligibility.Blob.Rule
import Eligibility.Proofs.Blob.RoundTrip

/-!
# Damaged envelopes

Bytes are opened if their header is in order, the payload is there in full and its digest is the
stored one: `Blob.IsSealed` says so without an order of checks, and `Blob.unwrap_eq_ok_iff` that
these are the bytes which `unwrap` opens. Everything about damage follows from it, because each of
the conditions is about a few bytes at fixed places (`Blob.field_congr`):

* bytes that end before the payload does are refused for their length, since what stands before the
  length in the order of checks is still in place;
* the version of the writer, the reserved bytes and all that follows the payload are in no field, so
  any change to them goes unnoticed and does no harm;
* whatever else was changed, opened bytes with the same stored digest have payloads with the same
  digest. If the digest tells these two payloads apart, they are the same payload.

The main statement is `Rule.ofBlob_of_damage`.
-/

namespace Eligibility

namespace Blob

/-- The length of the payload according to the header. -/
def statedSize (bytes : List UInt8) : Nat := ofLittleEndian (field bytes 12 4)

/-- The bytes behind the header, up to the stated length. -/
def payload (bytes : List UInt8) : List UInt8 := field bytes headerSize (statedSize bytes)

/-- Bytes in order: a known header, a payload of the stated length, and its digest. -/
structure IsSealed (bytes : List UInt8) : Prop where
  magic : field bytes 0 4 = magic
  version : ofLittleEndian (field bytes 4 2) = formatVersion
  size : headerSize + statedSize bytes ≤ bytes.length
  digest : Blake3.digest (payload bytes) = field bytes 16 16

/-- **What is opened.** Bytes in order are, and nothing else is. -/
theorem unwrap_eq_ok_iff {bytes p : List UInt8} :
    unwrap bytes = .ok p ↔ IsSealed bytes ∧ p = payload bytes := by
  constructor
  · intro h
    simp only [unwrap] at h
    -- each of the five checks has passed
    split at h
    · exact absurd h (by simp)
    · split at h
      · exact absurd h (by simp)
      · next h_magic =>
        split at h
        · exact absurd h (by simp)
        · next h_version =>
          split at h
          · exact absurd h (by simp)
          · next h_size =>
            split at h
            · exact absurd h (by simp)
            · next h_digest =>
              obtain rfl := Except.ok.inj h
              exact ⟨⟨Decidable.of_not_not h_magic, Decidable.of_not_not h_version,
                Nat.le_of_not_lt h_size, Decidable.of_not_not h_digest⟩, rfl⟩
  · rintro ⟨⟨h_magic, h_version, h_size, h_digest⟩, rfl⟩
    rw [statedSize] at h_size
    rw [payload, statedSize] at h_digest ⊢
    simp only [unwrap]
    rw [if_neg (by omega), if_neg fun h => h h_magic, if_neg fun h => h h_version,
      if_neg (Nat.not_lt_of_le h_size), if_neg fun h => h h_digest]

/-- A field depends on the bytes at its own places alone. -/
theorem field_congr {bytes bytes' : List UInt8} {offset width : Nat}
    (h : ∀ i, offset ≤ i → i < offset + width → bytes'[i]? = bytes[i]?) :
    field bytes' offset width = field bytes offset width := by
  apply List.ext_getElem?
  intro i
  unfold field
  rw [List.getElem?_take, List.getElem?_take]
  split
  · rw [List.getElem?_drop, List.getElem?_drop]
    exact h _ (Nat.le_add_right _ _) (by omega)
  · rfl

/-! ### Bytes that are cut off -/

theorem field_take {bytes : List UInt8} {offset width n : Nat} (h : offset + width ≤ n) :
    field (bytes.take n) offset width = field bytes offset width :=
  field_congr fun i _ hi => by rw [List.getElem?_take, if_pos (by omega)]

/-- **A prefix is refused for its length**, as one without a header or as one without its payload,
whichever it is. -/
theorem unwrap_take {bytes : List UInt8} {n : Nat} (h : IsSealed bytes)
    (hn : n < headerSize + statedSize bytes) :
    unwrap (bytes.take n) = .error (if n < headerSize then .lengthMismatch headerSize n
      else .lengthMismatch (statedSize bytes) (n - headerSize)) := by
  have h_length : (bytes.take n).length = n := by
    have h_size := h.size
    rw [List.length_take]
    omega
  simp only [unwrap]
  rw [h_length]
  by_cases h_header : n < headerSize
  · rw [if_pos h_header, if_pos h_header]
  · -- the header is there in full, so the length is the first thing that is wrong
    have h_le : 32 ≤ n := Nat.le_of_not_lt h_header
    have h_size : ofLittleEndian (field (bytes.take n) 12 4) = statedSize bytes := by
      rw [statedSize, field_take (by omega)]
    rw [h_size, field_take (by omega), field_take (by omega), if_neg h_header, if_neg h_header,
      if_neg fun h' => h' h.magic, if_neg fun h' => h' h.version, if_pos hn]

/-! ### Bytes that are changed -/

/-- **What is not looked at.** Bytes that agree with sealed ones on the letters, the version, the
length, the digest and the payload are sealed and have the same payload. -/
theorem IsSealed.of_agree {bytes bytes' : List UInt8} (h : IsSealed bytes)
    (h_agree : ∀ i, i < 6 ∨ 12 ≤ i → i < headerSize + statedSize bytes → bytes'[i]? = bytes[i]?) :
    IsSealed bytes' ∧ payload bytes' = payload bytes := by
  have h_32 : headerSize = 32 := rfl
  have h_stated : statedSize bytes' = statedSize bytes := by
    rw [statedSize, statedSize,
      field_congr fun i hi hi' => h_agree i (.inr (by omega)) (by omega)]
  have h_payload : payload bytes' = payload bytes := by
    rw [payload, payload, h_stated,
      field_congr fun i hi hi' => h_agree i (.inr (by omega)) (by omega)]
  refine ⟨⟨?_, ?_, ?_, ?_⟩, h_payload⟩
  · rw [field_congr fun i hi hi' => h_agree i (.inl (by omega)) (by omega)]
    exact h.magic
  · rw [field_congr fun i hi hi' => h_agree i (.inl (by omega)) (by omega)]
    exact h.version
  · -- the last byte of the payload is there, as it is among those that agree
    have h_size := h.size
    have h_last := h_agree (headerSize + statedSize bytes - 1) (.inr (by omega)) (by omega)
    rw [List.getElem?_eq_getElem (l := bytes) (by omega)] at h_last
    obtain ⟨h_lt, -⟩ := List.getElem?_eq_some_iff.mp h_last
    omega
  · rw [h_payload, field_congr fun i hi hi' => h_agree i (.inr (by omega)) (by omega)]
    exact h.digest

/-- Sealed bytes with the same stored digest have the same payload, unless the digest does not tell
the two payloads apart. -/
theorem IsSealed.payload_eq {bytes bytes' : List UInt8} (h : IsSealed bytes) (h' : IsSealed bytes')
    (h_stored : field bytes' 16 16 = field bytes 16 16)
    (h_digest : Blake3.digest (payload bytes') = Blake3.digest (payload bytes) →
      payload bytes' = payload bytes) : payload bytes' = payload bytes :=
  h_digest (by rw [h.digest, h'.digest, h_stored])

end Blob

/-! ### Damaged rules -/

namespace Rule

open Blob

/-- A rule is read from sealed bytes, and from their payload alone. -/
theorem ofBlob_eq_ok_iff {bytes : List UInt8} {r : Rule} :
    ofBlob bytes = .ok r ↔ IsSealed bytes ∧ ofPayload (payload bytes) = .ok r := by
  constructor
  · intro h
    obtain ⟨p, h_unwrap, h_rule⟩ := exists_of_bind_eq_ok h
    obtain ⟨h_sealed, rfl⟩ := unwrap_eq_ok_iff.mp h_unwrap
    exact ⟨h_sealed, h_rule⟩
  · rintro ⟨h_sealed, h_rule⟩
    rw [ofBlob, unwrap_eq_ok_iff.mpr ⟨h_sealed, rfl⟩, ok_bind, h_rule]

/-- **Damage is harmless or noticed.** Take the bytes of a rule, with a payload of the length in
their header. A prefix that ends before the payload does is refused for its length. Bytes that agree
with them everywhere up to the end of the payload, except at the version of the writer and the
reserved bytes, hold the same rule. And so do any bytes that can be read at all and have the same
stored digest, as long as the digest tells the two payloads apart, should they differ. -/
theorem ofBlob_of_damage {bytes : List UInt8} {r : Rule} (h : ofBlob bytes = .ok r) :
    (∀ n < headerSize + statedSize bytes,
      ofBlob (bytes.take n) = .error (if n < headerSize then .lengthMismatch headerSize n
        else .lengthMismatch (statedSize bytes) (n - headerSize))) ∧
    (∀ bytes', (∀ i, i < 6 ∨ 12 ≤ i → i < headerSize + statedSize bytes → bytes'[i]? = bytes[i]?) →
      ofBlob bytes' = .ok r) ∧
    ∀ bytes' r', field bytes' 16 16 = field bytes 16 16 →
      (Blake3.digest (payload bytes') = Blake3.digest (payload bytes) →
        payload bytes' = payload bytes) →
      ofBlob bytes' = .ok r' → r' = r := by
  obtain ⟨h_sealed, h_rule⟩ := ofBlob_eq_ok_iff.mp h
  refine ⟨fun n hn => ?_, fun bytes' h_agree => ?_, fun bytes' r' h_stored h_digest h' => ?_⟩
  · rw [ofBlob, unwrap_take h_sealed hn, error_bind]
  · obtain ⟨h_sealed', h_payload⟩ := h_sealed.of_agree h_agree
    rw [ofBlob_eq_ok_iff, h_payload]
    exact ⟨h_sealed', h_rule⟩
  · -- the digest is what tells a damaged payload from the original one
    obtain ⟨h_sealed', h_rule'⟩ := ofBlob_eq_ok_iff.mp h'
    rw [h_sealed.payload_eq h_sealed' h_stored h_digest, h_rule] at h_rule'
    exact (Except.ok.inj h_rule').symm

/-- A small rule, cut off inside its payload and with a byte too many. -/
theorem ofBlob_of_damage_small :
    let r : Rule := .test ⟨"a", .equal, .int 1⟩
    let bytes := r.toBlob
    ofBlob bytes = .ok r ∧ ofBlob (bytes.take 33) = .error (.lengthMismatch 8 1) ∧
      ofBlob (bytes ++ [7]) = .ok r ∧ field (bytes ++ [7]) 16 16 = field bytes 16 16 ∧
      ∀ r', ofBlob (bytes ++ [7]) = .ok r' → r' = r := by
  intro r bytes
  have h_payload : (Payload.ofRule r).write = [1, 1, 0, 1, 97, 2, 0, 2] := by
    rw [Payload.ofRule, Entry.flatten_test]
    decide +kernel
  have h_wrap : bytes = wrap [1, 1, 0, 1, 97, 2, 0, 2] := congrArg wrap h_payload
  have h_bytes : ofBlob bytes = .ok r := by
    rw [ofBlob_toBlob_eq (by rw [h_payload]; decide), conditions_eq_leaves]
    rfl
  have h_size : statedSize bytes = 8 := by
    rw [h_wrap]
    decide +kernel
  have h_length : bytes.length = 40 := by
    rw [h_wrap, wrap, List.length_append, length_header]
    rfl
  have h_32 : headerSize = 32 := rfl
  -- the byte that is added stands behind the payload
  have h_longer : ∀ i, i < 40 → (bytes ++ [7])[i]? = bytes[i]? := fun i hi =>
    List.getElem?_append_left (by omega)
  have h_stored : field (bytes ++ [7]) 16 16 = field bytes 16 16 :=
    field_congr fun i _ hi => h_longer i (by omega)
  have h_same : payload (bytes ++ [7]) = payload bytes :=
    ((ofBlob_eq_ok_iff.mp h_bytes).1.of_agree fun i _ hi => h_longer i (by omega)).2
  obtain ⟨h_short, h_agree, h_reread⟩ := ofBlob_of_damage h_bytes
  refine ⟨h_bytes, ?_, h_agree _ fun i _ hi => h_longer i (by omega), h_stored,
    fun r' => h_reread _ r' h_stored fun _ => h_same⟩
  rw [h_short 33 (by omega), h_size]
  rfl

end Rule

end Eligibility
