import Eligibility.Proofs.Blob.Economy
import Eligibility.Proofs.Blob.Envelope
import Eligibility.Proofs.Rule.Combine

/-!
# Stored rules in normal form

A rule can be stored in more ways than the one in which it is written: with numbers wider than
needed, with a chain in several pieces, with bytes behind the payload. All of them are read, and
writing the rule again gives the normal form. The main statement, `Rule.ofBlob_normalises`, is that
this never fails and never takes more room: whatever could be read has storable conditions, its
normal form is no longer than the payload it was read from, and reading the normal form gives the
same rule.

Conditions come first. The stack of finished rules always holds the conditions that were taken so
far, in order and checked (`Entry.leaves_of_run`, `Entry.isStorable_of_run`).

The room is accounted for entry by entry. Each entry pays for itself, and the stack never owes more
than was paid: the entries of its rules cost no more than those that were taken
(`Entry.totalCost_flatten_le_of_run`). Only a chain whose first operand is a chain of the same
connective needs an argument, for there two entries become one with a larger number of operands. The
merged entry costs no more than the two, because the entry that is saved has a byte for its
connective, and that byte is enough as long as the number of operands is below `2 ^ 32`. It is, as
the payload is shorter than that.
-/

namespace Eligibility

namespace Entry

/-- The condition of an entry that is one. -/
def condition? : Entry → Option Condition
  | test c => some c
  | chain _ _ => none

theorem countP_isTest (entries : List Entry) :
    entries.countP isTest = (entries.filterMap condition?).length := by
  induction entries with
  | nil => rfl
  | cons e entries ih =>
    cases e with
    | test c => rw [List.countP_cons_of_pos rfl, List.filterMap_cons, ih]; rfl
    | chain op arity => rw [List.countP_cons_of_neg (by simp [isTest]), List.filterMap_cons, ih]; rfl

/-! ### What an entry does to the stack -/

theorem isStorable_of_checkCondition {c d : Condition} (h : checkCondition c = .ok d) :
    c.IsStorable ∧ d = c := by
  by_cases h_storable : c.IsStorable
  · rw [checkCondition_eq_ok h_storable] at h
    exact ⟨h_storable, (Except.ok.inj h).symm⟩
  · rw [checkCondition_eq_error h_storable] at h
    exact absurd h (by simp)

/-- A chain takes its operands off the stack, the first of them from below the others. -/
theorem exists_operands_of_joinChain {op : Connective} {arity : Nat} {stack stack' : List Rule}
    (h : joinChain op arity stack = .ok stack') :
    ∃ (first : Rule) (others rest : List Rule), 0 < others.length ∧ arity = others.length + 1 ∧
      stack = others.reverse ++ first :: rest ∧
      stack' = others.foldl (Rule.join op) first :: rest := by
  unfold joinChain at h
  split at h
  · exact absurd h (by simp)
  next h_two =>
    split at h
    · exact absurd h (by simp)
    next h_enough =>
      -- the topmost rules, in the order in which they were finished
      have h_length : (stack.take arity).reverse.length = arity := by
        rw [List.length_reverse, List.length_take]
        omega
      cases h_operands : (stack.take arity).reverse with
      | nil =>
        rw [h_operands, List.length_nil] at h_length
        omega
      | cons first others =>
        rw [h_operands] at h h_length
        rw [List.length_cons] at h_length
        refine ⟨first, others, stack.drop arity, by omega, h_length.symm, ?_, ?_⟩
        · have h_take : stack.take arity = others.reverse ++ [first] := by
            rw [← List.reverse_cons, ← h_operands, List.reverse_reverse]
          rw [List.append_cons, ← h_take, List.take_append_drop]
        · exact (Except.ok.inj h).symm

/-- **What an entry does**: a condition that passes the check is put on the stack, and a chain joins
the topmost rules. -/
theorem push_cases {stack stack' : List Rule} {e : Entry} (h : push stack e = .ok stack') :
    (∃ c, e = test c ∧ c.IsStorable ∧ stack' = .test c :: stack) ∨
      ∃ (op : Connective) (first : Rule) (others rest : List Rule), 0 < others.length ∧
        e = chain op (others.length + 1) ∧ stack = others.reverse ++ first :: rest ∧
        stack' = others.foldl (Rule.join op) first :: rest := by
  cases e with
  | test c =>
    obtain ⟨d, h_check, h_stack⟩ := exists_of_bind_eq_ok h
    obtain ⟨h_storable, rfl⟩ := isStorable_of_checkCondition h_check
    exact .inl ⟨d, rfl, h_storable, (Except.ok.inj h_stack).symm⟩
  | chain op arity =>
    obtain ⟨first, others, rest, h_pos, rfl, h_stack, h_stack'⟩ := exists_operands_of_joinChain h
    exact .inr ⟨op, first, others, rest, h_pos, rfl, h_stack, h_stack'⟩

/-! ### The conditions on the stack -/

theorem leaves_of_push {stack stack' : List Rule} {e : Entry} (h : push stack e = .ok stack') :
    stack'.reverse.flatMap Rule.leaves
      = stack.reverse.flatMap Rule.leaves ++ e.condition?.toList := by
  rcases push_cases h with ⟨c, rfl, -, rfl⟩ | ⟨op, first, others, rest, -, rfl, rfl, rfl⟩
  · rw [List.reverse_cons, List.flatMap_append, List.flatMap_singleton]
    rfl
  · -- joining operands moves no condition
    rw [List.reverse_cons, List.flatMap_append, List.flatMap_singleton, Rule.leaves_foldl_join,
      List.reverse_append, List.reverse_reverse, List.reverse_cons, List.append_assoc,
      List.singleton_append, List.flatMap_append, List.flatMap_cons, condition?, Option.toList_none,
      List.append_nil]

/-- **The stack holds the conditions that were taken**, in order. -/
theorem leaves_of_run {entries : List Entry} {stack stack' : List Rule}
    (h : entries.foldlM push stack = .ok stack') :
    stack'.reverse.flatMap Rule.leaves
      = stack.reverse.flatMap Rule.leaves ++ entries.filterMap condition? := by
  induction entries generalizing stack with
  | nil =>
    obtain rfl := Except.ok.inj h
    exact (List.append_nil _).symm
  | cons e entries ih =>
    rw [List.foldlM_cons] at h
    obtain ⟨stack₁, h_push, h_run⟩ := exists_of_bind_eq_ok h
    -- a condition adds itself to the leaves, and a chain only regroups them
    rw [ih h_run, leaves_of_push h_push, List.append_assoc]
    cases e with
    | test c => rfl
    | chain op arity => rfl

/-- Every condition that was taken has passed the check. -/
theorem isStorable_of_run {entries : List Entry} {stack stack' : List Rule}
    (h : entries.foldlM push stack = .ok stack') :
    ∀ c ∈ entries.filterMap condition?, c.IsStorable := by
  induction entries generalizing stack with
  | nil => exact List.forall_mem_nil _
  | cons e entries ih =>
    rw [List.foldlM_cons] at h
    obtain ⟨stack₁, h_push, h_run⟩ := exists_of_bind_eq_ok h
    rcases push_cases h_push with ⟨c, rfl, h_storable, -⟩ | ⟨op, first, others, rest, -, rfl, -, -⟩
    · exact List.forall_mem_cons.mpr ⟨h_storable, ih h_run⟩
    · exact ih h_run

/-- A rule is rebuilt if the entries leave it alone on the stack and the number of conditions is
right. -/
theorem run_of_rebuild {stated : Nat} {entries : List Entry} {r : Rule}
    (h : rebuild stated entries = .ok r) :
    entries.foldlM push [] = .ok [r] ∧ entries.countP isTest = stated := by
  obtain ⟨stack, h_run, h⟩ := exists_of_bind_eq_ok h
  simp only at h
  split at h
  · exact absurd h (by simp)
  -- the count is right; of the stacks that may be left only that with one rule is taken
  next h_count =>
    split at h
    · exact absurd h (by simp)
    · rw [pure_eq_ok] at h
      obtain rfl := Except.ok.inj h
      exact ⟨h_run, Decidable.of_not_not h_count⟩
    · exact absurd h (by simp)

theorem leaves_of_rebuild {stated : Nat} {entries : List Entry} {r : Rule}
    (h : rebuild stated entries = .ok r) : r.leaves = entries.filterMap condition? := by
  have h_leaves := leaves_of_run (run_of_rebuild h).1
  rwa [List.reverse_singleton, List.flatMap_singleton] at h_leaves

end Entry

/-- The connective at the root of a rule. A lone condition has none. -/
def Rule.root? : Rule → Option Connective
  | .test _ => none
  | .join op _ _ => some op

theorem Rule.root?_eq_some_iff {r : Rule} {op : Connective} :
    r.root? = some op ↔ ∃ left right, r = .join op left right := by
  cases r with
  | test c => simp [Rule.root?]
  | join op' left right => simp [Rule.root?]

theorem Rule.root?_foldl_join (op : Connective) (first : Rule) {others : List Rule}
    (h : 0 < others.length) : (others.foldl (Rule.join op) first).root? = some op := by
  rcases List.eq_nil_or_concat others with rfl | ⟨front, last, rfl⟩
  · exact absurd h (by simp)
  · rw [List.concat_eq_append, List.foldl_append]
    rfl

/-- What is rebuilt has passed the check. -/
theorem Rule.isStorable_of_rebuild {stated : Nat} {entries : List Entry} {r : Rule}
    (h : Entry.rebuild stated entries = .ok r) : ∀ c ∈ r.leaves, c.IsStorable := by
  rw [Entry.leaves_of_rebuild h]
  exact Entry.isStorable_of_run (Entry.run_of_rebuild h).1

namespace Entry

/-! ### Chains that are merged -/

theorem chainOperands_foldl_join (op : Connective) (first : Rule) (others rights : List Rule) :
    chainOperands op (others.foldl (Rule.join op) first) rights
      = chainOperands op first (others ++ rights) := by
  induction others generalizing first with
  | nil => rfl
  | cons r others ih => rw [List.foldl_cons, ih, chainOperands, if_pos rfl, List.cons_append]

/-- Operands that are found already are carried along. -/
theorem chainOperands_append (op : Connective) (r : Rule) (rights more : List Rule) :
    chainOperands op r (rights ++ more)
      = ((chainOperands op r rights).1, (chainOperands op r rights).2 ++ more) := by
  fun_induction chainOperands op r rights with
  | case1 => rfl
  | case2 left right rights ih =>
    rw [chainOperands, if_pos rfl, ← List.cons_append, ih]
  | case3 op' left right rights h => rw [chainOperands, if_neg h]

/-- The entries of a chain, found from its root or from any rule at the left end of it. -/
theorem flatten_foldl_join (op : Connective) (first : Rule) {others : List Rule}
    (h : 0 < others.length) :
    flatten (others.foldl (Rule.join op) first)
      = flatten (chainOperands op first others).1
        ++ ((chainOperands op first others).2.flatMap flatten
          ++ [chain op ((chainOperands op first others).2.length + 1)]) := by
  cases others with
  | nil => exact absurd h (by simp)
  | cons r others =>
    -- the root of the chain joins the last of the others
    obtain ⟨front, last, h_last⟩ : ∃ front last, r :: others = front ++ [last] :=
      ⟨_, _, (List.dropLast_concat_getLast (List.cons_ne_nil r others)).symm⟩
    rw [h_last, List.foldl_append, List.foldl_cons, List.foldl_nil, flatten_join,
      chainOperands_foldl_join]

/-- A first operand that is no chain of the connective is an operand like the others. -/
theorem flatten_foldl_join_of_ne {op : Connective} {first : Rule} {others : List Rule}
    (h_pos : 0 < others.length) (h_root : first.root? ≠ some op) :
    flatten (others.foldl (Rule.join op) first)
      = flatten first ++ (others.flatMap flatten ++ [chain op (others.length + 1)]) := by
  have h_operands : chainOperands op first others = (first, others) := by
    cases first with
    | test c => rfl
    | join op' left right =>
      rw [chainOperands, if_neg fun h_same => h_root (congrArg some h_same)]
  rw [flatten_foldl_join op first h_pos, h_operands]

/-- **Merging.** A first operand that is a chain of the connective gives its operands to the
whole. -/
theorem flatten_foldl_join_join (op : Connective) (left right : Rule) (others : List Rule) :
    let operands := chainOperands op left [right]
    flatten (others.foldl (Rule.join op) (.join op left right))
      = flatten operands.1 ++ ((operands.2 ++ others).flatMap flatten
          ++ [chain op (operands.2.length + others.length + 1)]) := by
  intro operands
  have h_operands : chainOperands op left ([right] ++ others)
      = (operands.1, operands.2 ++ others) := chainOperands_append op left [right] others
  have h_pos : 0 < ([right] ++ others).length := Nat.succ_pos _
  -- the joint at the bottom is one more joint of the same chain
  have h_fold : others.foldl (Rule.join op) (.join op left right)
      = ([right] ++ others).foldl (Rule.join op) left := rfl
  rw [h_fold, flatten_foldl_join op left h_pos, h_operands, List.length_append]

/-! ### What entries cost -/

/-- The cost of all entries together. -/
def totalCost (cost : Entry → Nat) (entries : List Entry) : Nat := (entries.map cost).sum

theorem totalCost_nil (cost : Entry → Nat) : totalCost cost [] = 0 := rfl

theorem totalCost_append (cost : Entry → Nat) (es fs : List Entry) :
    totalCost cost (es ++ fs) = totalCost cost es + totalCost cost fs := by
  rw [totalCost, List.map_append, List.sum_append]
  rfl

theorem totalCost_singleton (cost : Entry → Nat) (e : Entry) : totalCost cost [e] = cost e := by
  rw [totalCost, List.map_singleton, List.sum_singleton]

/-- A chain of `m` and then `n` operands behind the first costs no more than the two chains of which
it is merged, provided that it has less than `limit` operands. -/
def MergesCheaply (cost : Entry → Nat) (limit : Nat) : Prop :=
  ∀ op m n, m + n + 1 < limit →
    cost (chain op (m + n + 1)) ≤ cost (chain op (m + 1)) + cost (chain op (n + 1))

variable {cost : Entry → Nat} {limit : Nat}

/-- **A chain costs no more than its operands and itself.** If the first operand is a chain of the
same connective, the two are merged. -/
theorem totalCost_flatten_foldl_join_le (h_cost : MergesCheaply cost limit) (op : Connective)
    (first : Rule) {others : List Rule} (h_pos : 0 < others.length)
    (h_limit : (others.foldl (Rule.join op) first).leaves.length < limit) :
    totalCost cost (flatten (others.foldl (Rule.join op) first))
      ≤ totalCost cost (flatten first) + totalCost cost (others.flatMap flatten)
        + cost (chain op (others.length + 1)) := by
  by_cases h_root : first.root? = some op
  · obtain ⟨left, right, rfl⟩ := Rule.root?_eq_some_iff.mp h_root
    -- the first operand is a chain of its own, to which the others are added
    rw [flatten_foldl_join_join, flatten_join]
    simp only [totalCost_append, totalCost_singleton, List.flatMap_append]
    have h_leaves := leaves_operands op left right
    have h_first := (chainOperands op left [right]).1.length_leaves_pos
    have h_others := length_le_length_leaves (chainOperands op left [right]).2
    have h_more := length_le_length_leaves others
    rw [Rule.leaves_foldl_join, ← h_leaves, List.length_append, List.length_append] at h_limit
    have h_merge := h_cost op (chainOperands op left [right]).2.length others.length (by omega)
    omega
  · -- an operand like the others
    refine Nat.le_of_eq ?_
    rw [flatten_foldl_join_of_ne h_pos h_root, totalCost_append, totalCost_append,
      totalCost_singleton, Nat.add_assoc]

/-- An entry pays for what it adds to the stack. -/
theorem totalCost_flatten_le_of_push (h_cost : MergesCheaply cost limit) {stack stack' : List Rule}
    {e : Entry} (h : push stack e = .ok stack')
    (h_limit : (stack'.reverse.flatMap Rule.leaves).length < limit) :
    totalCost cost (stack'.reverse.flatMap flatten)
      ≤ totalCost cost (stack.reverse.flatMap flatten) + cost e := by
  rcases push_cases h with ⟨c, rfl, -, rfl⟩ | ⟨op, first, others, rest, h_pos, rfl, rfl, rfl⟩
  · -- a condition is written as it was read
    refine Nat.le_of_eq ?_
    rw [List.reverse_cons, List.flatMap_append, List.flatMap_singleton, flatten_test,
      totalCost_append, totalCost_singleton]
  · rw [List.reverse_cons, List.flatMap_append, List.flatMap_singleton, List.length_append]
      at h_limit
    -- a chain may merge with the first operand, and that is where the price of a chain comes in
    have h_le := totalCost_flatten_foldl_join_le h_cost op first h_pos (by omega)
    simp only [List.reverse_cons, List.flatMap_append, List.flatMap_singleton, List.reverse_append,
      List.reverse_reverse, totalCost_append]
    omega

/-- **The stack never owes more than was paid.** -/
theorem totalCost_flatten_le_of_run (h_cost : MergesCheaply cost limit) {entries : List Entry}
    {stack stack' : List Rule} (h : entries.foldlM push stack = .ok stack')
    (h_limit : (stack'.reverse.flatMap Rule.leaves).length < limit) :
    totalCost cost (stack'.reverse.flatMap flatten)
      ≤ totalCost cost (stack.reverse.flatMap flatten) + totalCost cost entries := by
  induction entries generalizing stack with
  | nil =>
    obtain rfl := Except.ok.inj h
    exact Nat.le_add_right _ _
  | cons e entries ih =>
    rw [List.foldlM_cons] at h
    obtain ⟨stack₁, h_push, h_run⟩ := exists_of_bind_eq_ok h
    -- conditions are never taken off the stack, so there is room for those that it holds now
    have h_room := h_limit
    rw [leaves_of_run h_run, List.length_append] at h_room
    have h_step := totalCost_flatten_le_of_push h_cost h_push (by omega)
    have h_rest := ih h_run
    rw [← List.singleton_append, totalCost_append, totalCost_singleton]
    omega

/-- The entries of a rule cost no more than those from which it was rebuilt. -/
theorem totalCost_flatten_le_of_rebuild (h_cost : MergesCheaply cost limit) {stated : Nat}
    {entries : List Entry} {r : Rule} (h : rebuild stated entries = .ok r)
    (h_limit : r.leaves.length < limit) :
    totalCost cost (flatten r) ≤ totalCost cost entries := by
  have h_le := totalCost_flatten_le_of_run h_cost (run_of_rebuild h).1
    (by rwa [List.reverse_singleton, List.flatMap_singleton])
  rwa [List.reverse_singleton, List.flatMap_singleton, List.reverse_nil, List.flatMap_nil,
    totalCost_nil, Nat.zero_add] at h_le

end Entry

namespace Payload

open Blob Entry

/-- Entries cost their bytes, and with fewer than `2 ^ 32` operands merging saves some. -/
theorem mergesCheaply_length :
    MergesCheaply (fun e => (writeEntry e).length) (2 ^ 32) := by
  intro op m n h
  have h_merge := length_varint_add h
  simp only [length_writeEntry_chain]
  omega

/-- The number of entries is a cost, too: where two chains are merged, it goes down. -/
theorem mergesCheaply_one (limit : Nat) : MergesCheaply (fun _ => 1) limit := by
  intro op m n _
  exact Nat.le_add_left 1 1

theorem totalCost_one (entries : List Entry) : totalCost (fun _ => 1) entries = entries.length := by
  rw [totalCost, List.map_const', List.sum_replicate_nat, Nat.mul_one]

theorem totalCost_length (entries : List Entry) :
    totalCost (fun e => (writeEntry e).length) entries = (entries.flatMap writeEntry).length := by
  rw [totalCost, List.length_flatMap]

theorem length_write (conditions : Nat) (entries : List Entry) :
    (write ⟨conditions, entries⟩).length
      = (varint conditions).length + (varint entries.length).length
        + (entries.flatMap writeEntry).length := by
  rw [write, List.length_append, List.length_append]

/-- **The normal form of a payload is not longer than the payload.** -/
theorem length_write_ofRule_le {p : Payload} {r : Rule} (h : p.toRule = .ok r)
    (h_short : p.write.length < 2 ^ 32) : (ofRule r).write.length ≤ p.write.length := by
  obtain ⟨conditions, entries⟩ := p
  obtain ⟨-, h_count⟩ := run_of_rebuild h
  simp only at h_count
  have h_leaves : r.leaves.length = entries.countP isTest := by
    rw [leaves_of_rebuild h, countP_isTest]
  rw [length_write] at h_short
  -- there are fewer conditions than bytes, so no chain has too many operands
  have h_bytes := length_le_length_writeEntries entries
  have h_tests : entries.countP isTest ≤ entries.length := List.countP_le_length
  have h_limit : r.leaves.length < 2 ^ 32 := by omega
  have h_length := totalCost_flatten_le_of_rebuild (mergesCheaply_one (2 ^ 32)) h h_limit
  have h_entries := totalCost_flatten_le_of_rebuild mergesCheaply_length h h_limit
  rw [totalCost_one, totalCost_one] at h_length
  rw [totalCost_length, totalCost_length] at h_entries
  -- the number of conditions is the same, and the entries are fewer and shorter
  have h_varint := length_varint_mono h_length
  rw [ofRule, length_write, length_write, countP_flatten, h_leaves, h_count]
  exact Nat.add_le_add (Nat.add_le_add_left h_varint _) h_entries

end Payload

namespace Rule

open Blob

theorem exists_of_ofPayload {payload : List UInt8} {r : Rule} (h : ofPayload payload = .ok r) :
    ∃ p rest, Payload.read payload = some (p, rest) ∧ p.toRule = .ok r := by
  unfold ofPayload at h
  split at h
  · exact absurd h (by simp)
  next p rest h_read =>
    refine ⟨p, rest, h_read, ?_⟩
    -- the fault of the entries is passed on as it is
    cases h_rule : p.toRule with
    | error fault =>
      rw [h_rule] at h
      have h_error : Except.error (BlobError.invalid fault) = Except.ok r := h
      exact absurd h_error (by simp)
    | ok r' =>
      rw [h_rule] at h
      exact congrArg Except.ok (Except.ok.inj h)

theorem statedSize_lt (bytes : List UInt8) : statedSize bytes < 2 ^ 32 := by
  have h_lt := ofLittleEndian_lt (field bytes 12 4)
  have h_le : (field bytes 12 4).length ≤ 4 := List.length_take_le _ _
  exact Nat.lt_of_lt_of_le h_lt (Nat.pow_le_pow_right (by decide) h_le)

/-- Only storable conditions are read from bytes. -/
theorem isStorable_of_ofBlob {bytes : List UInt8} {r : Rule} (h : ofBlob bytes = .ok r) :
    ∀ c ∈ r.conditions, c.IsStorable := by
  obtain ⟨-, h_payload⟩ := ofBlob_eq_ok_iff.mp h
  obtain ⟨p, rest, -, h_rule⟩ := exists_of_ofPayload h_payload
  rw [conditions_eq_leaves]
  exact isStorable_of_rebuild h_rule

/-- A rule with storable conditions is read back, if its payload is short enough. -/
theorem ofBlob_toBlob_of_isStorable {r : Rule} (h : ∀ c ∈ r.conditions, c.IsStorable)
    (h_short : (Payload.ofRule r).write.length < 2 ^ 32) : ofBlob r.toBlob = .ok r := by
  rw [ofBlob_toBlob_eq h_short, Entry.checkAll_eq_ok_iff.mpr h]
  rfl

/-- **Reading and writing again normalises.** Bytes that can be read hold a rule with storable
conditions. Written again, it has a payload no longer than the header of those bytes says, and so
short enough for the format, and it is read back as it was. -/
theorem ofBlob_normalises {bytes : List UInt8} {r : Rule} (h : ofBlob bytes = .ok r) :
    (∀ c ∈ r.conditions, c.IsStorable) ∧
    (Payload.ofRule r).write.length ≤ statedSize bytes ∧ statedSize bytes < 2 ^ 32 ∧
    ofBlob r.toBlob = .ok r := by
  have h_storable := isStorable_of_ofBlob h
  obtain ⟨h_sealed, h_payload⟩ := ofBlob_eq_ok_iff.mp h
  obtain ⟨p, rest, h_read, h_rule⟩ := exists_of_ofPayload h_payload
  have h_stated := statedSize_lt bytes
  -- the payload that was read has at most the bytes that the header speaks of
  have h_length : (payload bytes).length ≤ statedSize bytes := List.length_take_le _ _
  have h_write := Payload.spends_read h_read
  have h_le := Payload.length_write_ofRule_le h_rule (by omega)
  exact ⟨h_storable, by omega, h_stated, ofBlob_toBlob_of_isStorable h_storable (by omega)⟩

/-- Numbers wider than needed, a chain in two pieces and a byte behind the entries: the rule is read,
and its normal form is the same rule in fewer bytes. -/
theorem ofBlob_normalises_padded :
    let c : Condition := ⟨"a", .equal, .int 1⟩
    let r : Rule := .join .and (.join .and (.test c) (.test c)) (.test c)
    let entry : List UInt8 := [0, 1, 97, 2, 0, 2]
    let bytes := wrap ([251, 3, 0, 5] ++ entry ++ entry ++ [1, 2] ++ entry ++ [1, 252, 2, 0, 0, 0, 9])
    ofBlob bytes = .ok r ∧ (∀ d ∈ r.conditions, d.IsStorable) ∧
      (Payload.ofRule r).write.length ≤ statedSize bytes ∧ statedSize bytes = 31 ∧
      ofBlob r.toBlob = .ok r := by
  intro c r entry bytes
  -- numbers in more bytes than they need, and a byte behind the last entry
  have h_read : Payload.read
      ([251, 3, 0, 5] ++ entry ++ entry ++ [1, 2] ++ entry ++ [1, 252, 2, 0, 0, 0, 9])
      = some (⟨3, [.test c, .test c, .chain .and 2, .test c, .chain .and 2]⟩, [9]) := by
    decide +kernel
  have h_bytes : ofBlob bytes = .ok r := by
    rw [ofBlob, unwrap_wrap (by decide), ok_bind, ofPayload, h_read]
    rfl
  obtain ⟨h_storable, h_le, -, h_again⟩ := ofBlob_normalises h_bytes
  exact ⟨h_bytes, h_storable, h_le, by decide +kernel, h_again⟩

end Rule

end Eligibility
