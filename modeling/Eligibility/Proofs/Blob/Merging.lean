import Eligibility.Proofs.Blob.Height

/-!
# Merged chains

A rule has many lists of entries, because a chain can be stored in pieces: the first piece is then
the first operand of the second, although it is a chain of the same connective and could have been
merged with it. A list in which this occurs nowhere is *merged*. The main statement,
`Entry.flatten_unique`, is that every rule has exactly one merged list, which is the one that
`flatten` gives, and that all others are longer.

Which entry made the first operand of a chain can be told from the entries alone: `Entry.makers`
runs over them and keeps, in place of the rules on the stack, the entries whose results they are. A
rule on the stack has the connective of its maker at its root (`Entry.makers_of_run`), so a chain
is merged with its first operand exactly if the two have the same connective.

The rest is an account of what the rules on the stack are flattened to. An entry that merges with
nothing is added at the end of it, and an entry that does merge leaves its length as it was
(`Entry.flatten_of_push`). So the entries that were taken are those to which the stack is flattened,
as long as none of them merges, and from the first one that does they are too many.
-/

namespace Eligibility

namespace Entry

/-- The connective that an entry puts at the root of a rule. -/
def connective? : Entry → Option Connective
  | test _ => none
  | chain op _ => some op

/-- The number of rules that an entry takes off the stack. -/
def operands : Entry → Nat
  | test _ => 0
  | chain _ arity => arity

/-- The entries whose results are on the stack, latest first. -/
def makers (entries : List Entry) : List Entry :=
  entries.foldl (fun made e => e :: made.drop e.operands) []

/-- The first operand of the entry is the result of an entry of the same connective. -/
def MergesAfter (front : List Entry) : Entry → Prop
  | test _ => False
  | chain op arity => ∃ n, (makers front)[arity - 1]? = some (chain op n)

/-- **No chain begins with a chain of its own connective.** -/
def IsMerged (entries : List Entry) : Prop :=
  ∀ front e back, entries = front ++ e :: back → ¬e.MergesAfter front

variable {entries : List Entry} {e : Entry} {stack stack' : List Rule}

theorem makers_concat (entries : List Entry) (e : Entry) :
    makers (entries ++ [e]) = e :: (makers entries).drop e.operands := by
  rw [makers, List.foldl_append]
  rfl

theorem isMerged_nil : IsMerged [] := fun front e back h => absurd h (by simp)

theorem isMerged_concat_iff :
    IsMerged (entries ++ [e]) ↔ IsMerged entries ∧ ¬e.MergesAfter entries :=
  forall_split_concat_iff

/-- Only the connectives of the makers count. -/
theorem mergesAfter_chain_iff {front : List Entry} {op : Connective} {arity : Nat} :
    (chain op arity).MergesAfter front ↔
      ((makers front).map connective?)[arity - 1]? = some (some op) := by
  rw [List.getElem?_map, Option.map_eq_some_iff]
  constructor
  · rintro ⟨n, h⟩
    exact ⟨_, h, rfl⟩
  · rintro ⟨d, h, h_op⟩
    cases d with
    | test c => exact absurd h_op (by simp [connective?])
    | chain op' n =>
      obtain rfl := Option.some.inj h_op
      exact ⟨n, h⟩

/-! ### Entries of a rule -/

/-- The first operand of a chain has another connective, or none. -/
theorem root?_chainOperands_ne (op : Connective) (r : Rule) (rights : List Rule) :
    (chainOperands op r rights).1.root? ≠ some op := by
  fun_induction chainOperands op r rights with
  | case1 => exact fun h => absurd h (by simp [Rule.root?])
  | case2 left right rights ih => exact ih
  | case3 op' left right rights h_other => exact fun h => h_other (Option.some.inj h)

/-- The entries of several rules leave as many results, with nothing merged that was not before. -/
theorem makers_append_rules {rs : List Rule}
    (h : ∀ r ∈ rs, ∀ front, IsMerged front → IsMerged (front ++ flatten r) ∧
      ∃ d, d.connective? = r.root? ∧ makers (front ++ flatten r) = d :: makers front)
    {front : List Entry} (h_front : IsMerged front) :
    IsMerged (front ++ rs.flatMap flatten) ∧
      ∃ ds : List Entry, ds.length = rs.length ∧
        makers (front ++ rs.flatMap flatten) = ds ++ makers front := by
  -- on the rules, each of which starts behind all that were written before it
  induction rs generalizing front with
  | nil =>
    rw [List.flatMap_nil, List.append_nil]
    exact ⟨h_front, [], rfl, rfl⟩
  | cons r rs ih =>
    obtain ⟨h_first, h_rest⟩ := List.forall_mem_cons.mp h
    obtain ⟨h_merged, d, -, h_makers⟩ := h_first front h_front
    obtain ⟨h_all, ds, h_length, h_makers'⟩ := ih h_rest h_merged
    rw [List.flatMap_cons, ← List.append_assoc]
    refine ⟨h_all, ds ++ [d], by rw [List.length_append, h_length]; rfl, ?_⟩
    rw [h_makers', h_makers, List.append_assoc, List.singleton_append]

/-- **The entries of a rule are merged**, whatever was in front of them, and leave one result, which
has the connective of the rule. -/
theorem makers_append_flatten (r : Rule) {front : List Entry} (h_front : IsMerged front) :
    IsMerged (front ++ flatten r) ∧
      ∃ d, d.connective? = r.root? ∧ makers (front ++ flatten r) = d :: makers front := by
  induction r using chain_induction generalizing front with
  | test c =>
    rw [flatten_test]
    exact ⟨isMerged_concat_iff.mpr ⟨h_front, id⟩, test c, rfl, makers_concat front (test c)⟩
  | join op left right ih_first ih_others =>
    -- the first operand is no chain of the same connective, so nothing merges with it
    have h_root := root?_chainOperands_ne op left [right]
    obtain ⟨h_merged, d, h_d, h_makers⟩ := ih_first h_front
    obtain ⟨h_all, ds, h_length, h_makers'⟩ :=
      makers_append_rules (fun r hr front => ih_others r hr) h_merged
    rw [h_makers] at h_makers'
    rw [flatten_join, ← List.append_assoc, ← List.append_assoc, ← h_length]
    refine ⟨isMerged_concat_iff.mpr ⟨h_all, ?_⟩, chain op (ds.length + 1), rfl, ?_⟩
    · -- the maker of the first operand lies below those of the others
      rw [mergesAfter_chain_iff, h_makers', Nat.add_sub_cancel, List.map_append, List.map_cons,
        List.getElem?_append_right (Nat.le_of_eq (List.length_map _)), List.length_map, Nat.sub_self,
        List.getElem?_cons_zero, h_d]
      exact fun h => h_root (Option.some.inj h)
    · rw [makers_concat, h_makers', operands, List.append_cons,
        List.drop_left' (by rw [List.length_append, List.length_singleton])]

theorem isMerged_flatten (r : Rule) : IsMerged (flatten r) :=
  (makers_append_flatten r isMerged_nil).1

/-- Flattening keeps the conditions, in order. -/
theorem filterMap_flatten (r : Rule) : (flatten r).filterMap condition? = r.leaves := by
  induction r using chain_induction with
  | test c =>
    rw [flatten_test]
    rfl
  | join op left right ih_first ih_others =>
    -- the chain itself is no condition, so only the operands count
    have h_others : ((chainOperands op left [right]).2.flatMap flatten).filterMap condition?
        = (chainOperands op left [right]).2.flatMap Rule.leaves := by
      rw [List.filterMap_flatMap]
      exact List.flatMap_congr ih_others
    rw [flatten_join, List.filterMap_append, List.filterMap_append, ih_first, h_others,
      ← leaves_operands]
    exact congrArg _ (List.append_nil _)

/-- A chain stands for one joint at least, so that it has two operands or more. -/
theorem two_le_arity_of_mem_flatten {r : Rule} {op : Connective} {arity : Nat}
    (h : chain op arity ∈ flatten r) : 2 ≤ arity := by
  induction r using chain_induction with
  | test c =>
    rw [flatten_test] at h
    exact absurd (List.mem_singleton.mp h) (by simp)
  | join op' left right ih_first ih_others =>
    have h_some : 1 ≤ (chainOperands op' left [right]).2.length :=
      length_chainOperands op' left [right]
    rw [flatten_join, List.mem_append, List.mem_append] at h
    -- in the first operand, in one of the others, or at the end
    rcases h with h_mem | h_mem | h_mem
    · exact ih_first h_mem
    · obtain ⟨r, hr, h_mem⟩ := List.mem_flatMap.mp h_mem
      exact ih_others r hr h_mem
    · obtain ⟨-, rfl⟩ := Entry.chain.inj (List.mem_singleton.mp h_mem)
      exact Nat.succ_le_succ h_some

/-- Every joint of a rule is in one of its chains. -/
theorem joints_flatten (r : Rule) : ((flatten r).map joints).sum = r.operatorCount := by
  induction r using chain_induction with
  | test c =>
    rw [flatten_test, Rule.operatorCount_test]
    rfl
  | join op left right ih_first ih_others =>
    -- the rule is its operands joined from the left, and the chain counts these joints
    have h_rule : (chainOperands op left [right]).2.foldl (Rule.join op)
        (chainOperands op left [right]).1 = .join op left right :=
      foldl_chainOperands op left [right]
    have h_others : (((chainOperands op left [right]).2.flatMap flatten).map joints).sum
        = ((chainOperands op left [right]).2.map Rule.operatorCount).sum := by
      rw [List.map_flatMap, List.flatMap_def, List.sum_flatten, List.map_map]
      exact congrArg List.sum (List.map_congr_left ih_others)
    rw [← h_rule, Rule.operatorCount_foldl_join, h_rule, flatten_join, List.map_append,
      List.sum_append, List.map_append, List.sum_append, ih_first, h_others, Nat.add_assoc]
    rfl

/-! ### Entries that are taken -/

/-- A rule on the stack has the connective of its maker. -/
theorem makers_of_run (h : entries.foldlM push [] = .ok stack) :
    (makers entries).map connective? = stack.map Rule.root? := by
  induction entries using List.reverseRecOn generalizing stack with
  | nil =>
    obtain rfl := Except.ok.inj h
    rfl
  | append_singleton entries e ih =>
    obtain ⟨stack₁, h_run, h_push⟩ := run_concat_iff.mp h
    rw [makers_concat, List.map_cons, List.map_drop, ih h_run]
    rcases push_cases h_push with ⟨c, rfl, -, rfl⟩ | ⟨op, first, others, rest, h_pos, rfl, rfl, rfl⟩
    · rfl
    · -- the operands are taken off on both sides
      have h_length : ((others.reverse ++ [first]).map Rule.root?).length = others.length + 1 := by
        rw [List.length_map, List.length_append, List.length_reverse, List.length_singleton]
      rw [List.map_cons, Rule.root?_foldl_join op first h_pos, operands, List.append_cons,
        List.map_append, List.drop_left' h_length]
      rfl

/-- Whether a chain merges is seen at the first of its operands. -/
theorem mergesAfter_iff_root? {op : Connective} {first : Rule} {others rest : List Rule}
    (h : entries.foldlM push [] = .ok (others.reverse ++ first :: rest)) :
    (chain op (others.length + 1)).MergesAfter entries ↔ first.root? = some op := by
  have h_length : (others.reverse.map Rule.root?).length = others.length := by
    rw [List.length_map, List.length_reverse]
  rw [mergesAfter_chain_iff, makers_of_run h, Nat.add_sub_cancel, List.map_append, List.map_cons,
    List.getElem?_append_right (Nat.le_of_eq h_length), h_length, Nat.sub_self,
    List.getElem?_cons_zero, Option.some.injEq]

/-- **What an entry adds.** One that does not merge is added to the entries of the stack as it is,
and one that does adds none. -/
theorem flatten_of_push (h_run : entries.foldlM push [] = .ok stack)
    (h_push : push stack e = .ok stack') :
    (¬e.MergesAfter entries →
      stack'.reverse.flatMap flatten = stack.reverse.flatMap flatten ++ [e]) ∧
    (e.MergesAfter entries →
      (stack'.reverse.flatMap flatten).length = (stack.reverse.flatMap flatten).length) := by
  rcases push_cases h_push with ⟨c, rfl, -, rfl⟩ | ⟨op, first, others, rest, h_pos, rfl, rfl, rfl⟩
  · refine ⟨fun _ => ?_, False.elim⟩
    rw [List.reverse_cons, List.flatMap_append, List.flatMap_singleton, flatten_test]
  · have h_stack : (others.reverse ++ first :: rest).reverse.flatMap flatten
        = rest.reverse.flatMap flatten ++ (flatten first ++ others.flatMap flatten) := by
      rw [List.reverse_append, List.reverse_reverse, List.reverse_cons, List.append_assoc,
        List.flatMap_append, List.singleton_append, List.flatMap_cons]
    rw [mergesAfter_iff_root? h_run, List.reverse_cons, List.flatMap_append,
      List.flatMap_singleton, h_stack]
    constructor
    · intro h_root
      rw [flatten_foldl_join_of_ne h_pos h_root, List.append_assoc, List.append_assoc]
    · intro h_root
      obtain ⟨left, right, rfl⟩ := Rule.root?_eq_some_iff.mp h_root
      -- the chain of the first operand is dropped, and the new one stands for both
      rw [flatten_foldl_join_join, flatten_join]
      simp only [List.length_append, List.flatMap_append, List.length_singleton]
      omega

/-- **The entries of the stack** are those that were taken, if these are merged, and fewer if they
are not. -/
theorem flatten_of_run (h : entries.foldlM push [] = .ok stack) :
    (IsMerged entries → stack.reverse.flatMap flatten = entries) ∧
    (¬IsMerged entries → (stack.reverse.flatMap flatten).length < entries.length) := by
  induction entries using List.reverseRecOn generalizing stack with
  | nil =>
    obtain rfl := Except.ok.inj h
    exact ⟨fun _ => rfl, fun h_not => absurd isMerged_nil h_not⟩
  | append_singleton entries e ih =>
    obtain ⟨stack₁, h_run, h_push⟩ := run_concat_iff.mp h
    obtain ⟨h_merged, h_less⟩ := ih h_run
    obtain ⟨h_add, h_keep⟩ := flatten_of_push h_run h_push
    rw [isMerged_concat_iff]
    refine ⟨fun ⟨h_entries, h_last⟩ => by rw [h_add h_last, h_merged h_entries], fun h_not => ?_⟩
    rw [List.length_append, List.length_singleton]
    by_cases h_last : e.MergesAfter entries
    · -- the last entry adds nothing
      rw [h_keep h_last]
      by_cases h_entries : IsMerged entries
      · rw [h_merged h_entries]
        exact Nat.lt_succ_self _
      · exact Nat.lt_succ_of_lt (h_less h_entries)
    · -- one of those before it merges
      have h_entries := h_less fun h_entries => h_not ⟨h_entries, h_last⟩
      rw [h_add h_last, List.length_append, List.length_singleton]
      exact Nat.succ_lt_succ h_entries

/-- **The entries of a rule.** Flattening gives the conditions of the rule, in order, and chains of
two operands or more which together have all of its joints, and no chain begins with a chain of its
own connective. No other list of entries that makes the rule has this last property, and every other
one is longer. -/
theorem flatten_unique (r : Rule) :
    (flatten r).filterMap condition? = r.conditions ∧
    (∀ op arity, chain op arity ∈ flatten r → 2 ≤ arity) ∧
    ((flatten r).map joints).sum = r.operatorCount ∧
    IsMerged (flatten r) ∧
    ∀ stated entries, rebuild stated entries = .ok r →
      rebuild stated (flatten r) = .ok r ∧
      (IsMerged entries ↔ entries = flatten r) ∧
      (entries ≠ flatten r → (flatten r).length < entries.length) := by
  have h_conditions : (flatten r).filterMap condition? = r.conditions := by
    rw [filterMap_flatten, Rule.conditions_eq_leaves]
  refine ⟨h_conditions, fun op arity => two_le_arity_of_mem_flatten, joints_flatten r,
    isMerged_flatten r, fun stated entries h => ?_⟩
  obtain ⟨h_run, h_count⟩ := run_of_rebuild h
  obtain ⟨h_merged, h_less⟩ := flatten_of_run h_run
  rw [List.reverse_singleton, List.flatMap_singleton] at h_merged h_less
  have h_iff : IsMerged entries ↔ entries = flatten r :=
    ⟨fun h_entries => (h_merged h_entries).symm, fun h_eq => h_eq ▸ isMerged_flatten r⟩
  refine ⟨?_, h_iff, fun h_ne => h_less fun h_entries => h_ne (h_iff.mp h_entries)⟩
  -- the conditions have passed the check, so the rule is rebuilt from its own entries as well
  have h_check := checkAll_eq_ok_iff.mpr (Rule.isStorable_of_rebuild h)
  have h_stated : (flatten r).countP isTest = stated := by
    rw [countP_flatten, leaves_of_rebuild h, ← countP_isTest, h_count]
  have h_rule : rebuild ((flatten r).countP isTest) (flatten r) = _ := Payload.toRule_ofRule r
  rw [← h_stated, h_rule, h_check]
  rfl

/-- A chain of three, the last of which is a group: in pieces it is one entry longer. The group is
no first operand, so it stays an entry of its own. -/
theorem flatten_unique_pieces :
    let c : Condition := ⟨"a", .equal, .int 1⟩
    let pair : Rule := .join .and (.test c) (.test c)
    let r : Rule := .join .and pair pair
    let pieces : List Entry :=
      [test c, test c, chain .and 2, test c, test c, chain .and 2, chain .and 2]
    rebuild 4 pieces = .ok r ∧
      flatten r = [test c, test c, test c, test c, chain .and 2, chain .and 3] ∧
      chain .and 3 ∈ flatten r ∧ 2 ≤ 3 ∧ rebuild 4 (flatten r) = .ok r ∧
      ¬IsMerged pieces ∧ pieces ≠ flatten r ∧ (flatten r).length < pieces.length := by
  intro c pair r pieces
  have h_pieces : rebuild 4 pieces = .ok r := rfl
  have h_flatten : flatten r = [test c, test c, test c, test c, chain .and 2, chain .and 3] := by
    simp [r, pair, flatten_join, chainOperands]
  have h_mem : chain .and 3 ∈ flatten r := by
    rw [h_flatten]
    decide
  -- the left pair has a chain of its own, which could be part of the last one
  have h_ne : pieces ≠ flatten r := by
    rw [h_flatten]
    decide
  obtain ⟨-, h_arity, -, -, h_unique⟩ := flatten_unique r
  obtain ⟨h_rule, h_merged, h_longer⟩ := h_unique 4 pieces h_pieces
  exact ⟨h_pieces, h_flatten, h_mem, h_arity .and 3 h_mem, h_rule,
    fun h => h_ne (h_merged.mp h), h_ne, h_longer h_ne⟩

end Entry

end Eligibility
