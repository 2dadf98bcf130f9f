import Eligibility.Blob.Payload
import Mathlib.Algebra.Ring.Nat

/-!
# Payloads are read back

Reading takes exactly the bytes off the front that writing put there, whatever follows them. This is
said by `Blob.Takes`, for every layer of the format: numbers of a fixed width, varints at each of
their widths, texts, values, entries, and whole payloads (`Payload.takes_write`).

A size is written in eight bytes at most, so a payload comes back only if all of its sizes fit into
them (`Payload.Fits`).
-/

namespace Eligibility

namespace Blob

/-- Reading takes exactly `bytes` off the front, and what they say is `a`. -/
def Takes {α : Type} (read : List UInt8 → Option (α × List UInt8)) (bytes : List UInt8) (a : α) :
    Prop :=
  ∀ rest, read (bytes ++ rest) = some (a, rest)

/-! ### Numbers -/

theorem takes_takeBytes (bytes : List UInt8) : Takes (takeBytes bytes.length) bytes bytes := by
  intro rest
  unfold takeBytes
  rw [List.take_left, if_pos rfl, List.drop_left]

theorem takes_littleEndian {width n : Nat} (h : n < 256 ^ width) :
    Takes (readFixed width) (littleEndian width n) n := by
  intro rest
  have h_take := takes_takeBytes (littleEndian width n) rest
  rw [length_littleEndian] at h_take
  unfold readFixed
  rw [h_take]
  change some (ofLittleEndian (littleEndian width n), rest) = _
  rw [ofLittleEndian_littleEndian, Nat.mod_eq_of_lt h]

/-- **Varints are read back** at each of their widths. -/
theorem takes_varint {width n : Nat} (h_width : 4 ≤ width)
    (h : n < 2 ^ 32 ∨ 8 ≤ width ∧ n < 2 ^ 64) : Takes (readVarint width) (varint n) n := by
  intro rest
  unfold varint
  by_cases h_one : n < 251
  · -- the byte is the number
    have h_byte : (UInt8.ofNat n).toNat = n := Nat.mod_eq_of_lt (by omega)
    have h_lt : UInt8.ofNat n < 251 := by
      rw [UInt8.lt_iff_toNat_lt, h_byte]
      exact h_one
    rw [if_pos h_one, List.singleton_append, readVarint, if_pos h_lt, h_byte]
  rw [if_neg h_one]
  by_cases h_two : n < 2 ^ 16
  · -- the markers say how wide the number behind them is
    rw [if_pos h_two, List.cons_append, readVarint, if_neg (by decide), if_pos rfl]
    exact takes_littleEndian h_two rest
  rw [if_neg h_two]
  by_cases h_four : n < 2 ^ 32
  · rw [if_pos h_four, List.cons_append, readVarint, if_neg (by decide), if_neg (by decide),
      if_pos ⟨rfl, h_width⟩]
    exact takes_littleEndian h_four rest
  · obtain ⟨h_wide, h_lt⟩ := h.resolve_left h_four
    rw [if_neg h_four, List.cons_append, readVarint, if_neg (by decide), if_neg (by decide),
      if_neg fun h => absurd h.1 (by decide), if_pos ⟨rfl, h_wide⟩]
    exact takes_littleEndian h_lt rest

theorem length_varint_pos (n : Nat) : 0 < (varint n).length := by
  unfold varint
  split
  · exact Nat.one_pos
  · split
    · exact Nat.succ_pos _
    · split
      · exact Nat.succ_pos _
      · exact Nat.succ_pos _

/-- A signed number of 64 bits is read back from its place in the alternating order. -/
theorem ofInt_ofZigzag_zigzag (n : Int64) :
    zigzag n.toInt < 2 ^ 64 ∧ Int64.ofInt (ofZigzag (zigzag n.toInt)) = n := by
  have h_ge := n.le_toInt
  have h_lt := n.toInt_lt
  refine ⟨?_, by rw [ofZigzag_zigzag, Int64.ofInt_toInt]⟩
  -- both signs together have as many numbers as sixty-four bits
  unfold zigzag
  split <;> omega

end Blob

open Blob

/-! ### Texts -/

theorem toList_loop_eq (b : ByteArray) (i : Nat) (read : List UInt8) :
    ByteArray.toList.loop b i read = read.reverse ++ b.data.toList.drop i := by
  fun_induction ByteArray.toList.loop b i read with
  | case1 i read h ih =>
    have h' : i < b.data.toList.length := h
    -- the byte that is read next is the first of those that remain
    have h_get : b.get! i = b.data.toList[i] := by
      change b.data[i]! = b.data.toList[i]
      rw [getElem!_pos b.data i h, Array.getElem_toList]
    rw [ih, List.reverse_cons, List.append_assoc, List.singleton_append,
      List.drop_eq_getElem_cons h', h_get]
  | case2 i read h =>
    have h' : b.data.toList.length ≤ i := Nat.le_of_not_lt h
    rw [List.drop_of_length_le h', List.append_nil]

/-- The bytes of a byte array. -/
theorem toList_eq_toList_data (b : ByteArray) : b.toList = b.data.toList := by
  rw [ByteArray.toList, toList_loop_eq]
  rfl

theorem fromUTF8?_toUTF8 (s : String) :
    String.fromUTF8? ⟨s.toUTF8.toList.toArray⟩ = some s := by
  rw [toList_eq_toList_data]
  -- the bytes of a text are valid, so the check passes
  have h_valid : (⟨s.toUTF8.data.toList.toArray⟩ : ByteArray).IsValidUTF8 := s.isValidUTF8
  unfold String.fromUTF8?
  rw [dif_pos h_valid]
  rfl

theorem length_toUTF8 (s : String) : s.toUTF8.toList.length = s.utf8ByteSize := by
  rw [toList_eq_toList_data]
  rfl

namespace Payload

theorem takes_writeText {s : String} (h : s.utf8ByteSize < 2 ^ 64) :
    Takes readText (writeText s) s := by
  intro rest
  have h_size : Takes readSize (varint s.utf8ByteSize) s.utf8ByteSize :=
    takes_varint (by decide) (.inr ⟨by decide, h⟩)
  have h_bytes := takes_takeBytes s.toUTF8.toList rest
  rw [length_toUTF8] at h_bytes
  unfold readText writeText
  rw [List.append_assoc, h_size]
  simp only [Option.bind_eq_bind, Option.bind_some, h_bytes, fromUTF8?_toUTF8]
  rfl

/-! ### Entries -/

theorem comparisonNumber_lt (c : Comparison) : comparisonNumber c < 3 := by
  cases c <;> decide

theorem connectiveNumber_lt (op : Connective) : connectiveNumber op < 3 := by
  cases op <;> decide

theorem takes_alternative {n : Nat} (h : n < 3) : Takes readAlternative (varint n) n :=
  takes_varint (by decide) (.inl (Nat.lt_of_lt_of_le h (by decide)))

theorem takes_size {n : Nat} (h : n < 2 ^ 64) : Takes readSize (varint n) n :=
  takes_varint (by decide) (.inr ⟨by decide, h⟩)

theorem takes_comparison (c : Comparison) :
    Takes readComparison (varint (comparisonNumber c)) c := by
  intro rest
  unfold readComparison
  rw [takes_alternative (comparisonNumber_lt c)]
  cases c with
  | greater => rfl
  | less => rfl
  | equal => rfl

end Payload

/-- The sizes in a value fit into eight bytes. -/
def Value.Fits : Value → Prop
  | .text s => s.utf8ByteSize < 2 ^ 64
  | _ => True

/-- The sizes in an entry fit into eight bytes. -/
def Entry.Fits : Entry → Prop
  | .test c => c.name.utf8ByteSize < 2 ^ 64 ∧ c.value.Fits
  | .chain _ arity => arity < 2 ^ 64

/-- All sizes in a payload fit into eight bytes. -/
structure Payload.Fits (p : Payload) : Prop where
  conditions : p.conditions < 2 ^ 64
  length : p.entries.length < 2 ^ 64
  entries : ∀ e ∈ p.entries, e.Fits

namespace Payload

theorem takes_writeValue {v : Value} (h : v.Fits) : Takes readValue (writeValue v) v := by
  intro rest
  unfold readValue
  cases v with
  -- an integer is written with its sign folded in
  | int n =>
    obtain ⟨h_lt, h_eq⟩ := ofInt_ofZigzag_zigzag n
    rw [writeValue, List.append_assoc, takes_alternative (by decide)]
    simp only [Option.bind_eq_bind, Option.bind_some, takes_size h_lt rest, h_eq]
    rfl
  -- a double is written as its bits, whatever they stand for
  | float x =>
    have h_bits : Takes (readFixed 8) (littleEndian 8 x.bits.toNat) x.bits.toNat :=
      takes_littleEndian x.bits.toNat_lt
    rw [writeValue, List.append_assoc, takes_alternative (by decide)]
    simp only [Option.bind_eq_bind, Option.bind_some, h_bits rest, UInt64.ofNat_toNat]
    rfl
  | text s =>
    rw [writeValue, List.append_assoc, takes_alternative (by decide)]
    simp only [Option.bind_eq_bind, Option.bind_some, takes_writeText h rest]
    rfl

/-- **Entries are read back.** -/
theorem takes_writeEntry {e : Entry} (h : e.Fits) : Takes readEntry (writeEntry e) e := by
  intro rest
  unfold readEntry
  cases e with
  | test c =>
    obtain ⟨h_name, h_value⟩ := h
    -- the parts are read in the order in which they were written, each from what the one before left
    rw [writeEntry, List.append_assoc, List.append_assoc, List.append_assoc,
      takes_alternative (by decide)]
    simp only [Option.bind_eq_bind, Option.bind_some, takes_writeText h_name _,
      takes_comparison _ _, takes_writeValue h_value rest]
    rfl
  -- the number of the alternative says which connective it is
  | chain op arity =>
    rw [writeEntry, List.append_assoc, takes_alternative (connectiveNumber_lt op)]
    cases op with
    | and =>
      simp only [Option.bind_eq_bind, Option.bind_some, takes_size h rest, connectiveNumber]
      rfl
    | or =>
      simp only [Option.bind_eq_bind, Option.bind_some, takes_size h rest, connectiveNumber]
      rfl

theorem takes_writeEntries {entries : List Entry} (h : ∀ e ∈ entries, e.Fits)
    (read : List Entry) :
    Takes (readEntries entries.length read) (entries.flatMap writeEntry)
      (read.reverse ++ entries) := by
  -- on the entries; those that were read already are kept latest first
  induction entries generalizing read with
  | nil =>
    intro rest
    rw [List.append_nil]
    rfl
  | cons e entries ih =>
    intro rest
    obtain ⟨h_first, h_rest⟩ := List.forall_mem_cons.mp h
    rw [List.flatMap_cons, List.append_assoc, List.length_cons, readEntries,
      takes_writeEntry h_first]
    simp only
    rw [ih h_rest, List.reverse_cons, List.append_assoc, List.singleton_append]

/-- **A payload is read back**, whatever follows it. -/
theorem takes_write {p : Payload} (h : p.Fits) : Takes read (write p) p := by
  intro rest
  unfold read write
  rw [List.append_assoc, List.append_assoc]
  simp only [Option.bind_eq_bind, takes_size h.conditions _, takes_size h.length _,
    takes_writeEntries h.entries [] rest, Option.bind_some]
  rfl

/-! ### Short payloads fit -/

theorem size_le_length_writeText (s : String) : s.utf8ByteSize ≤ (writeText s).length := by
  rw [writeText, List.length_append, length_toUTF8]
  exact Nat.le_add_left _ _

theorem fits_of_length_writeValue {v : Value} (h : (writeValue v).length < 2 ^ 64) : v.Fits := by
  cases v with
  | int n => trivial
  | float x => trivial
  | text s =>
    rw [writeValue, List.length_append] at h
    have h_le := size_le_length_writeText s
    exact Nat.lt_of_le_of_lt (Nat.le_add_left_of_le h_le) h

/-- A condition in a short entry has short texts. -/
theorem fits_of_length_writeEntry {c : Condition}
    (h : (writeEntry (.test c)).length < 2 ^ 64) : (Entry.test c).Fits := by
  rw [writeEntry, List.length_append, List.length_append, List.length_append] at h
  have h_le := size_le_length_writeText c.name
  exact ⟨by omega, fits_of_length_writeValue (by omega)⟩

theorem length_writeEntry_pos (e : Entry) : 0 < (writeEntry e).length := by
  cases e with
  | test c =>
    rw [writeEntry, List.append_assoc, List.append_assoc, List.length_append]
    exact Nat.add_pos_left (length_varint_pos 0) _
  | chain op arity =>
    rw [writeEntry, List.length_append]
    exact Nat.add_pos_left (length_varint_pos _) _

theorem length_le_length_writeEntries (entries : List Entry) :
    entries.length ≤ (entries.flatMap writeEntry).length := by
  induction entries with
  | nil => exact Nat.le_refl 0
  | cons e entries ih =>
    have h_pos := length_writeEntry_pos e
    rw [List.flatMap_cons, List.length_append, List.length_cons]
    omega

theorem length_writeEntry_le_of_mem {e : Entry} {entries : List Entry} (h : e ∈ entries) :
    (writeEntry e).length ≤ (entries.flatMap writeEntry).length := by
  obtain ⟨front, back, rfl⟩ := List.append_of_mem h
  rw [List.flatMap_append, List.flatMap_cons, List.length_append, List.length_append]
  omega

end Payload

end Eligibility
