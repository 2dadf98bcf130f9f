import Eligibility.Proofs.Blob.Codec

/-!
# Writing is economical

A number may be stored wider than it needs to be, and reading accepts that. Writing never does it:
whatever was read could be written in no more bytes than reading has taken off the front
(`Blob.Spends`). This is the converse of `Blob.Takes` as far as it holds, and it is said for the same
layers of the format, up to whole payloads (`Payload.spends_read`).

Varints have one more such law. Two numbers of operands that become one, with a byte to spare,
never take more room together than apart, at any of the widths that a payload below `2 ^ 32` bytes
can need (`Blob.length_varint_add`).
-/

namespace Eligibility

namespace Blob

/-- Whatever is read could be written in no more bytes than reading has taken. -/
def Spends {α : Type} (read : List UInt8 → Option (α × List UInt8)) (write : α → List UInt8) :
    Prop :=
  ∀ ⦃bytes rest : List UInt8⦄ ⦃a : α⦄, read bytes = some (a, rest) →
    (write a).length + rest.length ≤ bytes.length

/-- A reader followed by another succeeds only if both do, the second on what the first left. -/
theorem bind_eq_some_iff {α β : Type} {x : Option (α × List UInt8)}
    {f : α × List UInt8 → Option (β × List UInt8)} {b : β} {rest : List UInt8} :
    (x >>= f) = some (b, rest) ↔ ∃ a left, x = some (a, left) ∧ f (a, left) = some (b, rest) := by
  rw [Option.bind_eq_bind, Option.bind_eq_some_iff, Prod.exists]

/-! ### Numbers -/

theorem length_varint (n : Nat) :
    (varint n).length = if n < 251 then 1 else if n < 2 ^ 16 then 3 else if n < 2 ^ 32 then 5
      else 9 := by
  unfold varint
  split
  · rfl
  · split
    · rfl
    · split
      · rfl
      · rfl

/-- A smaller number is not longer. -/
theorem length_varint_mono {m n : Nat} (h : m ≤ n) : (varint m).length ≤ (varint n).length := by
  rw [length_varint, length_varint]
  grind

/-- **Merged numbers of operands.** An operand with `m` others and `n` more take no more room than
both on their own, where the second number stands behind a byte. From `2 ^ 32` on that would need two
bytes to spare. -/
theorem length_varint_add {m n : Nat} (h : m + n + 1 < 2 ^ 32) :
    (varint (m + n + 1)).length ≤ (varint (m + 1)).length + (1 + (varint (n + 1)).length) := by
  rw [length_varint, length_varint, length_varint]
  -- a sum that crosses a width has a summand that is past the width before
  grind

theorem ofLittleEndian_lt (bytes : List UInt8) : ofLittleEndian bytes < 256 ^ bytes.length := by
  induction bytes with
  | nil => exact Nat.one_pos
  | cons b bytes ih =>
    have h_byte : b.toNat < 256 := b.toNat_lt
    rw [ofLittleEndian, List.length_cons, Nat.pow_succ']
    omega

theorem takeBytes_eq_some {n : Nat} {bytes front rest : List UInt8}
    (h : takeBytes n bytes = some (front, rest)) : bytes = front ++ rest ∧ front.length = n := by
  simp only [takeBytes] at h
  split at h
  · next h_length =>
    cases h
    exact ⟨(List.take_append_drop n bytes).symm, h_length⟩
  · exact absurd h (by simp)

/-- A number of a fixed width takes its width and fits into it. -/
theorem readFixed_eq_some {width n : Nat} {bytes rest : List UInt8}
    (h : readFixed width bytes = some (n, rest)) :
    bytes.length = width + rest.length ∧ n < 256 ^ width := by
  obtain ⟨front, left, h_take, h⟩ := bind_eq_some_iff.mp h
  cases h
  obtain ⟨rfl, rfl⟩ := takeBytes_eq_some h_take
  exact ⟨List.length_append, ofLittleEndian_lt front⟩

/-- A number of at most eight bytes, in whatever form, is no shorter than its varint. -/
theorem readVarint_eq_some {width n : Nat} {bytes rest : List UInt8}
    (h : readVarint width bytes = some (n, rest)) :
    (varint n).length + rest.length ≤ bytes.length ∧ n < 2 ^ 64 := by
  rw [length_varint]
  unfold readVarint at h
  split at h
  · exact absurd h (by simp)
  next b rest' =>
    rw [List.length_cons]
    split at h
    · next h_small =>
      cases h
      replace h_small : b.toNat < 251 := UInt8.lt_iff_toNat_lt.mp h_small
      rw [if_pos h_small]
      omega
    · -- behind the marker comes a number of the width that the marker says
      split at h
      · obtain ⟨h_length, h_lt⟩ := readFixed_eq_some h
        grind
      · split at h
        · obtain ⟨h_length, h_lt⟩ := readFixed_eq_some h
          grind
        · split at h
          · obtain ⟨h_length, h_lt⟩ := readFixed_eq_some h
            grind
          · exact absurd h (by simp)

end Blob

open Blob

namespace Payload

theorem spends_size : Spends readSize varint :=
  fun _ _ _ h => (readVarint_eq_some h).1

/-- The number of an alternative takes a byte or more. -/
theorem length_of_readAlternative {n : Nat} {bytes rest : List UInt8}
    (h : readAlternative bytes = some (n, rest)) : 1 + rest.length ≤ bytes.length := by
  have h_pos := length_varint_pos n
  have h_le := (readVarint_eq_some h).1
  omega

theorem utf8ByteSize_of_fromUTF8? {bytes : ByteArray} {s : String}
    (h : String.fromUTF8? bytes = some s) : s.utf8ByteSize = bytes.size := by
  unfold String.fromUTF8? at h
  split at h
  · obtain rfl := Option.some.inj h
    rfl
  · exact absurd h (by simp)

theorem length_writeText (s : String) :
    (writeText s).length = (varint s.utf8ByteSize).length + s.utf8ByteSize := by
  rw [writeText, List.length_append, length_toUTF8]

theorem spends_text : Spends readText writeText := by
  intro bytes rest s h
  obtain ⟨size, bytes₁, h_size, h⟩ := bind_eq_some_iff.mp h
  obtain ⟨text, bytes₂, h_take, h⟩ := bind_eq_some_iff.mp h
  obtain ⟨t, h_utf8, h⟩ := Option.bind_eq_some_iff.mp h
  cases h
  obtain ⟨rfl, rfl⟩ := takeBytes_eq_some h_take
  -- the text has as many bytes as its size says
  have h_text : s.utf8ByteSize = text.length := utf8ByteSize_of_fromUTF8? h_utf8
  have h_le := spends_size h_size
  rw [List.length_append] at h_le
  rw [length_writeText, h_text]
  omega

/-! ### Entries -/

theorem length_varint_alternative {n : Nat} (h : n < 3) : (varint n).length = 1 := by
  rw [length_varint, if_pos (by omega)]

theorem spends_comparison : Spends readComparison fun c => varint (comparisonNumber c) := by
  intro bytes rest c h
  obtain ⟨n, bytes₁, h_number, h⟩ := bind_eq_some_iff.mp h
  have h_le := length_of_readAlternative h_number
  -- each of the four numbers leaves the rest as it is
  have h_rest : bytes₁ = rest := by
    simp only at h
    split at h
    · cases h
      rfl
    · cases h
      rfl
    · cases h
      rfl
    · exact absurd h (by simp)
  rw [length_varint_alternative (comparisonNumber_lt c), ← h_rest]
  exact h_le

/-- Signed numbers are counted in both directions, so a place below `2 ^ 64` is that of the number
that was read. -/
theorem zigzag_ofZigzag {n : Nat} (h : n < 2 ^ 64) :
    zigzag (Int64.ofInt (ofZigzag n)).toInt = n := by
  have h_toInt : (Int64.ofInt (ofZigzag n)).toInt = ofZigzag n := by
    rw [Int64.toInt_ofInt_of_le]
    · unfold ofZigzag
      split <;> omega
    · unfold ofZigzag
      split <;> omega
  rw [h_toInt]
  unfold zigzag ofZigzag
  split <;> split <;> omega

theorem spends_value : Spends readValue writeValue := by
  intro bytes rest v h
  obtain ⟨n, bytes₁, h_number, h⟩ := bind_eq_some_iff.mp h
  have h_le := length_of_readAlternative h_number
  simp only at h
  -- an integer, a double, a text, or no value at all
  split at h
  · obtain ⟨n, bytes₂, h_size, h⟩ := bind_eq_some_iff.mp h
    simp only [Option.pure_def, Option.some.injEq, Prod.mk.injEq] at h
    obtain ⟨rfl, rfl⟩ := h
    -- a wide number may have been read, and it is written in the least width
    obtain ⟨h_size, h_lt⟩ := readVarint_eq_some h_size
    rw [writeValue, List.length_append, length_varint_alternative (by decide), zigzag_ofZigzag h_lt]
    omega
  · obtain ⟨bits, bytes₂, h_bits, h⟩ := bind_eq_some_iff.mp h
    simp only [Option.pure_def, Option.some.injEq, Prod.mk.injEq] at h
    obtain ⟨rfl, rfl⟩ := h
    obtain ⟨h_length, -⟩ := readFixed_eq_some h_bits
    rw [writeValue, List.length_append, length_varint_alternative (by decide), length_littleEndian]
    omega
  · obtain ⟨s, bytes₂, h_text, h⟩ := bind_eq_some_iff.mp h
    simp only [Option.pure_def, Option.some.injEq, Prod.mk.injEq] at h
    obtain ⟨rfl, rfl⟩ := h
    have h_text := spends_text h_text
    rw [writeValue, List.length_append, length_varint_alternative (by decide)]
    omega
  · exact absurd h (by simp)

theorem length_writeEntry_chain (op : Connective) (arity : Nat) :
    (writeEntry (.chain op arity)).length = 1 + (varint arity).length := by
  rw [writeEntry, List.length_append, length_varint_alternative (connectiveNumber_lt op)]

theorem spends_entry : Spends readEntry writeEntry := by
  intro bytes rest e h
  obtain ⟨n, bytes₁, h_number, h⟩ := bind_eq_some_iff.mp h
  have h_le := length_of_readAlternative h_number
  simp only at h
  -- a condition, a chain with either connective, or no entry at all
  split at h
  · obtain ⟨name, bytes₂, h_name, h⟩ := bind_eq_some_iff.mp h
    obtain ⟨comparison, bytes₃, h_comparison, h⟩ := bind_eq_some_iff.mp h
    obtain ⟨value, bytes₄, h_value, h⟩ := bind_eq_some_iff.mp h
    simp only [Option.pure_def, Option.some.injEq, Prod.mk.injEq] at h
    obtain ⟨rfl, rfl⟩ := h
    have h_name := spends_text h_name
    have h_comparison : (varint (comparisonNumber comparison)).length + bytes₃.length
        ≤ bytes₂.length := spends_comparison h_comparison
    have h_value : (writeValue value).length + bytes₄.length ≤ bytes₃.length :=
      spends_value h_value
    rw [writeEntry, List.length_append, List.length_append, List.length_append,
      length_varint_alternative (by decide)]
    simp only
    omega
  · obtain ⟨arity, bytes₂, h_arity, h⟩ := bind_eq_some_iff.mp h
    simp only [Option.pure_def, Option.some.injEq, Prod.mk.injEq] at h
    obtain ⟨rfl, rfl⟩ := h
    have h_arity := spends_size h_arity
    rw [length_writeEntry_chain]
    omega
  · obtain ⟨arity, bytes₂, h_arity, h⟩ := bind_eq_some_iff.mp h
    simp only [Option.pure_def, Option.some.injEq, Prod.mk.injEq] at h
    obtain ⟨rfl, rfl⟩ := h
    have h_arity := spends_size h_arity
    rw [length_writeEntry_chain]
    omega
  · exact absurd h (by simp)

/-- Entries are read one after the other, behind those that were read before. -/
theorem readEntries_eq_some {count : Nat} {read entries : List Entry} {bytes rest : List UInt8}
    (h : readEntries count read bytes = some (entries, rest)) :
    ∃ new, entries = read.reverse ++ new ∧ new.length = count ∧
      (new.flatMap writeEntry).length + rest.length ≤ bytes.length := by
  -- on the entries that are still to be read; those that were read are in reverse
  induction count generalizing read bytes with
  | zero =>
    cases h
    exact ⟨[], (List.append_nil _).symm, rfl, by simp⟩
  | succ count ih =>
    rw [readEntries] at h
    split at h
    · exact absurd h (by simp)
    next e bytes₁ h_entry =>
      obtain ⟨new, rfl, h_length, h_le⟩ := ih h
      have h_entry := spends_entry h_entry
      refine ⟨e :: new, ?_, congrArg Nat.succ h_length, ?_⟩
      · rw [List.reverse_cons, List.append_assoc, List.singleton_append]
      · rw [List.flatMap_cons, List.length_append]
        omega

/-- **Payloads are written in no more bytes than they were read from.** -/
theorem spends_read : Spends read write := by
  intro bytes rest p h
  obtain ⟨conditions, bytes₁, h_conditions, h⟩ := bind_eq_some_iff.mp h
  obtain ⟨count, bytes₂, h_count, h⟩ := bind_eq_some_iff.mp h
  obtain ⟨entries, bytes₃, h_entries, h⟩ := bind_eq_some_iff.mp h
  cases h
  obtain ⟨new, rfl, rfl, h_entries⟩ := readEntries_eq_some h_entries
  have h_conditions := spends_size h_conditions
  have h_count := spends_size h_count
  -- three parts, none of which became longer
  rw [write, List.length_append, List.length_append]
  simp only
  omega

end Payload

end Eligibility
