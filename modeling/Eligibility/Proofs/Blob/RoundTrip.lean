import Eligibility.Blob.Rule
import Eligibility.Proofs.Blob.Chain
import Eligibility.Proofs.Blob.Codec

/-!
# Stored rules are read back

A rule is read back from its bytes exactly as it was: with the same shape, whatever groups of one
connective stand to the right, and with the same literals, doubles bit for bit. The only rules that
are not read back are those with a condition that could not have been stored by checking first; for
them reading reports the first such condition (`Rule.ofBlob_toBlob`).

The length of the payload is stored in four bytes, so this is said of rules with a payload below
`2 ^ 32` bytes. The digest of the payload only has to be the same when it is taken twice.
-/

namespace Eligibility

namespace Blob

/-! ### The envelope -/

/-- A field in front of which stand `offset` bytes. -/
theorem field_append {front bytes : List UInt8} {offset width : Nat} (rest : List UInt8)
    (h_offset : front.length = offset) (h_width : bytes.length = width) :
    field (front ++ (bytes ++ rest)) offset width = bytes := by
  unfold field
  rw [List.drop_left' h_offset, List.take_left' h_width]

theorem length_digest (payload : List UInt8) : (Blake3.digest payload).length = 16 := by
  simp [Blake3.digest]

theorem length_wrap (payload : List UInt8) : (wrap payload).length = headerSize + payload.length := by
  rw [wrap, List.length_append, length_header]

/-- What the header says about the length. -/
theorem field_length_wrap (payload : List UInt8) :
    field (wrap payload) 12 4 = littleEndian 4 payload.length := by
  rw [wrap, header, List.append_assoc, List.append_assoc]
  exact field_append _ rfl rfl

/-- **A payload comes out of its envelope** if its length fits into the header. -/
theorem unwrap_wrap {payload : List UInt8} (h : payload.length < 2 ^ 32) :
    unwrap (wrap payload) = .ok payload := by
  -- the header is cut open at each of its fields
  have h_magic : field (wrap payload) 0 4 = magic := by
    rw [wrap, header, List.append_assoc, List.append_assoc, List.append_assoc, List.append_assoc,
      List.append_assoc]
    exact @field_append [] magic 0 4 _ rfl rfl
  have h_version : field (wrap payload) 4 2 = littleEndian 2 formatVersion := by
    rw [wrap, header, List.append_assoc, List.append_assoc, List.append_assoc, List.append_assoc,
      List.append_assoc]
    exact field_append _ rfl rfl
  have h_size := field_length_wrap payload
  have h_digest : field (wrap payload) 16 16 = Blake3.digest payload := by
    rw [wrap, header, List.append_assoc]
    exact field_append _ rfl (length_digest payload)
  have h_payload : field (wrap payload) headerSize payload.length = payload := by
    have h_field := @field_append _ payload _ _ [] (length_header payload) rfl
    rwa [List.append_nil] at h_field
  have h_length := length_wrap payload
  -- the length is in the header as it is, because four bytes hold it
  have h_number : ofLittleEndian (littleEndian 4 payload.length) = payload.length := by
    rw [ofLittleEndian_littleEndian]
    exact Nat.mod_eq_of_lt h
  have h_one : ofLittleEndian (littleEndian 2 formatVersion) = formatVersion := by decide
  simp only [unwrap, h_magic, h_version, h_size, h_digest, h_length, h_number, h_payload, h_one]
  -- none of the five faults is there
  rw [if_neg (by omega), if_neg fun h => h rfl, if_neg fun h => h rfl, if_neg (Nat.lt_irrefl _),
    if_neg fun h => h rfl]

end Blob

/-! ### Stored conditions -/

/-- A condition that a stored rule may have: it names an attribute, and an ordering condition has a
number to order by. -/
structure Condition.IsStorable (c : Condition) : Prop where
  name_ne_empty : c.name ≠ ""
  bound : c.comparison.isOrdering → c.value.orderingBound.isSome

theorem Condition.isStorable_iff (c : Condition) :
    c.IsStorable ↔ c.name ≠ "" ∧ (c.comparison.isOrdering → c.value.orderingBound.isSome) :=
  ⟨fun ⟨h_name, h_bound⟩ => ⟨h_name, h_bound⟩, fun ⟨h_name, h_bound⟩ => ⟨h_name, h_bound⟩⟩

instance : DecidablePred Condition.IsStorable :=
  fun c => decidable_of_iff' _ c.isStorable_iff

/-- What is wrong with a condition that is not storable. -/
def Condition.storageFault (c : Condition) : Entry.Fault :=
  if c.name = "" then .emptyAttribute else .literalNotFinite c

namespace Entry

theorem checkCondition_eq_ok {c : Condition} (h : c.IsStorable) : checkCondition c = .ok c := by
  have h_bound : ¬(c.comparison.isOrdering && c.value.orderingBound.isNone) := by
    intro h_fault
    obtain ⟨h_ord, h_none⟩ := (Bool.and_eq_true _ _).mp h_fault
    rw [Option.isNone_iff_eq_none] at h_none
    exact absurd (h.bound h_ord) (by rw [h_none]; decide)
  rw [checkCondition, if_neg h.name_ne_empty, if_neg h_bound]

theorem checkCondition_eq_error {c : Condition} (h : ¬c.IsStorable) :
    checkCondition c = .error c.storageFault := by
  unfold checkCondition Condition.storageFault
  by_cases h_name : c.name = ""
  · rw [if_pos h_name, if_pos h_name]
  · -- the name is there, so it is the bound that is missing
    have h_bound : ¬(c.comparison.isOrdering → c.value.orderingBound.isSome) := fun h_bound =>
      h ⟨h_name, h_bound⟩
    obtain ⟨h_ord, h_none⟩ := Classical.not_imp.mp h_bound
    have h_fault : c.comparison.isOrdering && c.value.orderingBound.isNone := by
      rw [h_ord, Bool.true_and, Option.isNone_iff_eq_none]
      exact Option.not_isSome_iff_eq_none.mp h_none
    rw [if_neg h_name, if_neg h_name, if_pos h_fault]

/-- Conditions pass together if each of them does. -/
theorem checkAll_eq_ok_iff {cs : List Condition} :
    checkAll cs = .ok () ↔ ∀ c ∈ cs, c.IsStorable := by
  induction cs with
  | nil => exact iff_of_true rfl (List.forall_mem_nil _)
  | cons c cs ih =>
    rw [List.forall_mem_cons, checkAll]
    by_cases hc : c.IsStorable
    · rw [checkCondition_eq_ok hc, ok_bind, ih, and_iff_right hc]
    · rw [checkCondition_eq_error hc, error_bind]
      exact iff_of_false (by simp) fun h => hc h.1

/-- The first condition that is not storable is the fault of all. -/
theorem checkAll_eq_error {front back : List Condition} {c : Condition}
    (h : ∀ d ∈ front, d.IsStorable) (hc : ¬c.IsStorable) :
    checkAll (front ++ c :: back) = .error c.storageFault := by
  rw [checkAll_append, checkAll_eq_ok_iff.mpr h, ok_bind, checkAll, checkCondition_eq_error hc,
    error_bind]

end Entry

/-! ### The round trip -/

/-- A rule with a short payload has only sizes that are read back. -/
theorem Payload.fits_ofRule {r : Rule} (h : (Payload.ofRule r).write.length < 2 ^ 32) :
    (Payload.ofRule r).Fits := by
  have h_entries : ((Payload.ofRule r).entries.flatMap writeEntry).length < 2 ^ 32 := by
    rw [write, List.length_append] at h
    omega
  have h_length := length_le_length_writeEntries (Payload.ofRule r).entries
  have h_count : (Payload.ofRule r).conditions ≤ (Payload.ofRule r).entries.length :=
    List.countP_le_length
  -- every size is at most the number of bytes, as each of its things takes one byte or more
  refine ⟨by omega, by omega, fun e he => ?_⟩
  cases e with
  | test c =>
    have h_le := length_writeEntry_le_of_mem he
    exact fits_of_length_writeEntry (by omega)
  | chain op arity =>
    -- the operands of a chain are no more than the conditions
    have h_arity : arity ≤ (Payload.ofRule r).conditions := by
      have h_le := Entry.arity_le_of_mem_flatten he
      rw [← Entry.countP_flatten] at h_le
      exact h_le
    change arity < 2 ^ 64
    omega

/-- The bytes are a rule as it is stored: they can be opened, and the payload in them starts with the
entries of the rule. -/
def Rule.IsStoredAs (r : Rule) (bytes : List UInt8) : Prop :=
  ∃ payload rest, Blob.unwrap bytes = .ok payload ∧
    Payload.read payload = some (Payload.ofRule r, rest)

/-- The bytes that are written for a rule are one way to store it. -/
theorem Rule.isStoredAs_toBlob {r : Rule} (h : (Payload.ofRule r).write.length < 2 ^ 32) :
    r.IsStoredAs r.toBlob := by
  have h_read := Payload.takes_write (Payload.fits_ofRule h) []
  rw [List.append_nil] at h_read
  exact ⟨_, _, Blob.unwrap_wrap h, h_read⟩

/-- Stored bytes are read as the rule, up to the check of the conditions. -/
theorem Rule.IsStoredAs.ofBlob_eq {r : Rule} {bytes : List UInt8} (h : r.IsStoredAs bytes) :
    Rule.ofBlob bytes = ((Entry.checkAll r.conditions).map fun _ => r).mapError .invalid := by
  obtain ⟨payload, rest, h_unwrap, h_read⟩ := h
  rw [Rule.conditions_eq_leaves, Rule.ofBlob, h_unwrap, ok_bind, Rule.ofPayload, h_read]
  simp only
  rw [Payload.toRule_ofRule]

/-- They are read if its conditions are storable. -/
theorem Rule.IsStoredAs.ofBlob_eq_ok_iff {r : Rule} {bytes : List UInt8} (h : r.IsStoredAs bytes) :
    (∃ t, Rule.ofBlob bytes = .ok t) ↔ ∀ c ∈ r.conditions, c.IsStorable := by
  rw [h.ofBlob_eq, ← Entry.checkAll_eq_ok_iff]
  cases Entry.checkAll r.conditions with
  | ok u => exact iff_of_true ⟨r, rfl⟩ rfl
  | error fault =>
    refine iff_of_false ?_ (by simp)
    rintro ⟨t, ⟨⟩⟩

/-- All layers are undone, up to the check of the conditions. -/
theorem Rule.ofBlob_toBlob_eq {r : Rule} (h : (Payload.ofRule r).write.length < 2 ^ 32) :
    Rule.ofBlob r.toBlob = ((Entry.checkAll r.conditions).map fun _ => r).mapError .invalid :=
  (Rule.isStoredAs_toBlob h).ofBlob_eq

/-- **The round trip.** A rule with storable conditions is read back from its bytes as it was. If it
has others, the first of them is reported. -/
theorem Rule.ofBlob_toBlob (r : Rule) (h : (Payload.ofRule r).write.length < 2 ^ 32) :
    Rule.ofBlob r.toBlob =
      match r.conditions.find? (¬ ·.IsStorable) with
      | none => .ok r
      | some c => .error (.invalid c.storageFault) := by
  rw [Rule.ofBlob_toBlob_eq h]
  cases h_find : r.conditions.find? (¬ ·.IsStorable) with
  | none =>
    have h_all : ∀ c ∈ r.conditions, c.IsStorable := by
      intro c hc
      simpa using List.find?_eq_none.mp h_find c hc
    -- all pass, so the rule comes out
    rw [Entry.checkAll_eq_ok_iff.mpr h_all]
    rfl
  | some c =>
    obtain ⟨hc, front, back, h_split, h_front⟩ := List.find?_eq_some_iff_append.mp h_find
    -- those in front of the first offender pass, and it stops the check
    have h_check : Entry.checkAll r.conditions = .error c.storageFault := by
      rw [h_split]
      exact Entry.checkAll_eq_error (fun d hd => by simpa using h_front d hd) (by simpa using hc)
    rw [h_check]
    rfl

/-- A group to the right keeps its parentheses, and behind a condition that orders by a number in
quotes one that has no number is found. -/
theorem Rule.ofBlob_toBlob_grouped :
    let a : Rule := .test ⟨"a", .greater, .text " 4e1 "⟩
    let b : Rule := .test ⟨"b", .equal, .int (-300)⟩
    let c : Condition := ⟨"c", .less, .text "high"⟩
    Rule.ofBlob (Rule.toBlob (.join .or a (.join .or b a))) = .ok (.join .or a (.join .or b a)) ∧
      Rule.ofBlob (Rule.toBlob (.join .and a (.test c)))
        = .error (.invalid (.literalNotFinite c)) := by
  intro a b c
  -- the joint on the right keeps a chain of its own
  have h_grouped : Entry.flatten (.join .or a (.join .or b a))
      = [.test ⟨"a", .greater, .text " 4e1 "⟩, .test ⟨"b", .equal, .int (-300)⟩,
        .test ⟨"a", .greater, .text " 4e1 "⟩, .chain .or 2, .chain .or 2] := by
    simp [a, b, Entry.flatten_join, Entry.chainOperands]
  have h_offending : Entry.flatten (.join .and a (.test c))
      = [.test ⟨"a", .greater, .text " 4e1 "⟩, .test c, .chain .and 2] := by
    simp [a, Entry.flatten_join, Entry.chainOperands]
  have h_none : (Rule.join .or a (.join .or b a)).leaves.find? (¬ ·.IsStorable) = none := by
    decide +kernel
  -- a text that is no number has no bound to order by
  have h_some : (Rule.join .and a (.test c)).leaves.find? (¬ ·.IsStorable) = some c := by
    decide +kernel
  refine ⟨(Rule.ofBlob_toBlob _ ?_).trans ?_, (Rule.ofBlob_toBlob _ ?_).trans ?_⟩
  · rw [Payload.ofRule, h_grouped]
    decide +kernel
  · rw [Rule.conditions_eq_leaves, h_none]
  · rw [Payload.ofRule, h_offending]
    decide +kernel
  · rw [Rule.conditions_eq_leaves, h_some]
    rfl

end Eligibility
