import Eligibility.Blob.Payload
import Eligibility.Outcome
import Eligibility.Proofs.Rule.Walk

/-!
# Flattened rules are rebuilt

`Entry.rebuild` undoes `Entry.flatten` on every rule whose conditions pass the check of stored
conditions, and on every other rule it reports what is wrong with the first condition that does not
(`Payload.toRule_ofRule`).

The work list of `flatten` is got rid of first. What it emits for a list of pending rules is what it
emits for each of them, one after the other, so `flatten` satisfies the equation of a recursive
function (`flatten_join`): the entries of all operands of a chain, and then the chain. The operands
are found along left sides, and joining them from the left gives the rule back
(`foldl_chainOperands`).

Rebuilding then goes by the usual statement about postfix code, for an arbitrary stack: the entries
of a rule check its conditions from left to right and put the rule on top of the stack
(`foldlM_push_flatten`). A right side of the same connective is an operand like any other, which is
why no grouping is lost.
-/

namespace Eligibility

theorem Rule.length_leaves_pos (r : Rule) : 0 < r.leaves.length := by
  induction r with
  | test c => exact Nat.one_pos
  | join op left right ihl ihr =>
    rw [Rule.leaves, List.length_append]
    exact Nat.add_pos_left ihl _

namespace Entry

/-! ### The operands of a chain -/

/-- The operands of a chain, joined from the left, are the rule again. -/
theorem foldl_chainOperands (op : Connective) (r : Rule) (rights : List Rule) :
    (chainOperands op r rights).2.foldl (Rule.join op) (chainOperands op r rights).1
      = rights.foldl (Rule.join op) r := by
  fun_induction chainOperands op r rights with
  | case1 => rfl
  | case2 left right rights ih => rw [ih, List.foldl_cons]
  | case3 => rfl

/-- The operands of a chain have the conditions of the rule, in the same order. -/
theorem leaves_chainOperands (op : Connective) (r : Rule) (rights : List Rule) :
    (chainOperands op r rights).1.leaves ++ (chainOperands op r rights).2.flatMap Rule.leaves
      = r.leaves ++ rights.flatMap Rule.leaves := by
  fun_induction chainOperands op r rights with
  | case1 => rfl
  | case2 left right rights ih =>
    rw [ih, List.flatMap_cons, Rule.leaves, List.append_assoc]
  | case3 => rfl

/-- The conditions of a joint are those of its operands. -/
theorem leaves_operands (op : Connective) (left right : Rule) :
    (chainOperands op left [right]).1.leaves
        ++ (chainOperands op left [right]).2.flatMap Rule.leaves
      = (Rule.join op left right).leaves := by
  rw [leaves_chainOperands, List.flatMap_singleton]
  rfl

theorem length_le_pendingSize (rs : List Rule) : rs.length ≤ Rule.pendingSize rs := by
  induction rs with
  | nil => exact Nat.le_refl 0
  | cons r rs ih =>
    have h_pos := r.size_pos
    rw [List.length_cons, Rule.pendingSize_cons]
    omega

theorem size_le_pendingSize_of_mem {r : Rule} {rs : List Rule} (h : r ∈ rs) :
    r.size + rs.length ≤ Rule.pendingSize rs + 1 := by
  induction rs with
  | nil => exact absurd h (by simp)
  | cons s rs ih =>
    rw [List.length_cons, Rule.pendingSize_cons]
    rcases List.mem_cons.mp h with rfl | h
    · have h_le := length_le_pendingSize rs
      omega
    · have h_pos := s.size_pos
      have h_le := ih h
      omega

/-! ### The entries of a rule -/

/-- What was done before is only carried along. -/
theorem flattenFrom_append_done (pending : List Pending) (done before : List Entry) :
    flattenFrom pending (done ++ before) = before.reverse ++ flattenFrom pending done := by
  -- each step puts its entry in front of those that are done, so what lies under them stays
  fun_induction flattenFrom pending done with
  | case1 done => rw [flattenFrom, List.reverse_append]
  | case2 done e pending ih =>
    rw [flattenFrom]
    exact ih
  | case3 done c pending ih =>
    rw [flattenFrom]
    exact ih
  | case4 done op left right pending operands arity ih =>
    rw [flattenFrom]
    exact ih

/-- What is pending is worked off from the front. -/
theorem flattenFrom_append (front back : List Pending) (done : List Entry) :
    flattenFrom (front ++ back) done = flattenFrom front done ++ flattenFrom back [] := by
  -- the entries that are done come out first, and what is pending behind starts with none
  fun_induction flattenFrom front done with
  | case1 done => exact flattenFrom_append_done back [] done
  | case2 done e pending ih =>
    rw [List.cons_append, flattenFrom]
    exact ih
  | case3 done c pending ih =>
    rw [List.cons_append, flattenFrom]
    exact ih
  | case4 done op left right pending operands arity ih =>
    rw [List.cons_append, flattenFrom]
    rw [List.cons_append, List.append_assoc, List.cons_append] at ih
    exact ih

theorem flattenFrom_rules (rs : List Rule) (back : List Pending) :
    flattenFrom (rs.map .rule ++ back) [] = rs.flatMap flatten ++ flattenFrom back [] := by
  induction rs with
  | nil => rfl
  | cons r rs ih =>
    rw [List.map_cons, List.cons_append, ← List.singleton_append, flattenFrom_append, ih,
      List.flatMap_cons, List.append_assoc]
    rfl

@[simp] theorem flatten_test (c : Condition) : flatten (.test c) = [test c] := by
  rw [flatten, flattenFrom, flattenFrom]
  rfl

/-- **The entries of a chain.** All of its operands come before it, from left to right. -/
theorem flatten_join (op : Connective) (left right : Rule) :
    let operands := chainOperands op left [right]
    flatten (.join op left right)
      = flatten operands.1 ++ (operands.2.flatMap flatten
          ++ [chain op (operands.2.length + 1)]) := by
  intro operands
  have h_chain : flattenFrom [.entry (chain op (operands.2.length + 1))] []
      = [chain op (operands.2.length + 1)] := by
    rw [flattenFrom, flattenFrom]
    rfl
  -- one step of the work list, and then its parts one after the other
  rw [flatten, flattenFrom]
  rw [← List.singleton_append, flattenFrom_append, flattenFrom_rules, h_chain]
  rfl

/-- An induction over rules that goes from a chain to its operands, as flattening does. -/
theorem chain_induction {motive : Rule → Prop} (test : ∀ c, motive (.test c))
    (join : ∀ op left right, motive (chainOperands op left [right]).1 →
      (∀ r ∈ (chainOperands op left [right]).2, motive r) → motive (.join op left right))
    (r : Rule) : motive r := by
  -- on the size: all operands of a chain are parts of the rule
  induction h : r.size using Nat.strongRecOn generalizing r with
  | _ n ih =>
    cases r with
    | test c => exact test c
    | join op left right =>
      have h_size := size_chainOperands op left [right]
      have h_length := length_chainOperands op left [right]
      simp only [Rule.pendingSize_cons, Rule.pendingSize_nil, List.length_cons,
        List.length_nil] at h_size h_length
      rw [Rule.size] at h
      have h_le := length_le_pendingSize (chainOperands op left [right]).2
      refine join op left right (ih _ (by omega) _ rfl) fun r hr => ih _ ?_ _ rfl
      have h_mem := size_le_pendingSize_of_mem hr
      have h_pos := (chainOperands op left [right]).1.size_pos
      omega

/-! ### Checking conditions -/

/-- Checks conditions from left to right. -/
def checkAll : List Condition → Except Fault Unit
  | [] => .ok ()
  | c :: cs => checkCondition c >>= fun _ => checkAll cs

theorem checkAll_append (cs ds : List Condition) :
    checkAll (cs ++ ds) = checkAll cs >>= fun _ => checkAll ds := by
  induction cs with
  | nil => rfl
  | cons c cs ih =>
    rw [List.cons_append, checkAll, checkAll, ih]
    cases checkCondition c <;> rfl

/-! ### Rebuilding -/

/-- The topmost rules of the stack become a chain. -/
theorem joinChain_operands (op : Connective) (first : Rule) {others : List Rule}
    (h : 0 < others.length) (stack : List Rule) :
    joinChain op (others.length + 1) (others.reverse ++ first :: stack)
      = .ok (others.foldl (Rule.join op) first :: stack) := by
  -- the operands are the topmost rules, the first of them lowest
  have h_split : others.reverse ++ first :: stack = (others.reverse ++ [first]) ++ stack := by
    rw [List.append_assoc, List.singleton_append]
  have h_length : (others.reverse ++ [first]).length = others.length + 1 := by
    rw [List.length_append, List.length_reverse, List.length_singleton]
  have h_enough : ¬(others.reverse ++ first :: stack).length < others.length + 1 := by
    rw [h_split, List.length_append, h_length]
    omega
  unfold joinChain
  rw [if_neg (by omega), if_neg h_enough, h_split, List.take_left' h_length,
    List.drop_left' h_length, List.reverse_append, List.reverse_reverse]
  rfl

/-- The entries of several rules put one rule after the other on the stack. -/
theorem foldlM_push_rules {rs : List Rule}
    (h : ∀ r ∈ rs, ∀ stack, (flatten r).foldlM push stack
      = (checkAll r.leaves).map fun _ => r :: stack) (stack : List Rule) :
    (rs.flatMap flatten).foldlM push stack
      = (checkAll (rs.flatMap Rule.leaves)).map fun _ => rs.reverse ++ stack := by
  induction rs generalizing stack with
  | nil => rfl
  | cons r rs ih =>
    obtain ⟨h_first, h_rest⟩ := List.forall_mem_cons.mp h
    rw [List.flatMap_cons, List.foldlM_append, h_first, List.flatMap_cons, checkAll_append]
    cases checkAll r.leaves with
    | error fault => rfl
    | ok u =>
      -- the first rule lies below those that follow it
      rw [map_ok, ok_bind, ok_bind, ih h_rest, List.reverse_cons, List.append_assoc,
        List.singleton_append]

/-- **The entries of a rule put it on the stack**, once all of its conditions are checked. -/
theorem foldlM_push_flatten (r : Rule) (stack : List Rule) :
    (flatten r).foldlM push stack = (checkAll r.leaves).map fun _ => r :: stack := by
  induction r using chain_induction generalizing stack with
  | test c =>
    rw [flatten_test, Rule.leaves, List.foldlM_cons, push]
    unfold checkAll checkCondition
    -- a condition that passes is stored as it is
    split
    · rfl
    · split
      · rfl
      · rfl
  | join op left right ih_first ih_others =>
    have h_leaves := leaves_operands op left right
    have h_rule := foldl_chainOperands op left [right]
    have h_some := length_chainOperands op left [right]
    -- the first operand is checked and pushed, then the others, and an error among them is the end
    rw [flatten_join, List.foldlM_append, ih_first, ← h_leaves, checkAll_append]
    cases checkAll (chainOperands op left [right]).1.leaves with
    | error fault => rfl
    | ok u =>
      rw [map_ok, ok_bind, ok_bind, List.foldlM_append, foldlM_push_rules ih_others]
      cases checkAll ((chainOperands op left [right]).2.flatMap Rule.leaves) with
      | error fault => rfl
      | ok u =>
        -- all operands are on the stack, and the chain takes them off again
        rw [map_ok, map_ok, ok_bind, List.foldlM_cons, push, joinChain_operands op _ h_some, h_rule]
        rfl

/-! ### The number of conditions -/

theorem length_le_length_leaves (rs : List Rule) :
    rs.length ≤ (rs.flatMap Rule.leaves).length := by
  induction rs with
  | nil => exact Nat.le_refl 0
  | cons r rs ih =>
    have h_pos := r.length_leaves_pos
    rw [List.flatMap_cons, List.length_append, List.length_cons]
    omega

theorem length_leaves_le_of_mem {r : Rule} {rs : List Rule} (h : r ∈ rs) :
    r.leaves.length ≤ (rs.flatMap Rule.leaves).length := by
  obtain ⟨front, back, rfl⟩ := List.append_of_mem h
  rw [List.flatMap_append, List.flatMap_cons, List.length_append, List.length_append]
  omega

theorem countP_flatten (r : Rule) : (flatten r).countP isTest = r.leaves.length := by
  induction r using chain_induction with
  | test c =>
    rw [flatten_test]
    rfl
  | join op left right ih_first ih_others =>
    -- the leaves of the rule are those of the operands in turn: both sides are sums over these
    have h_leaves := leaves_operands op left right
    have h_others : ((chainOperands op left [right]).2.flatMap flatten).countP isTest
        = ((chainOperands op left [right]).2.flatMap Rule.leaves).length := by
      rw [List.countP_flatMap, List.length_flatMap]
      exact congrArg List.sum (List.map_congr_left ih_others)
    rw [flatten_join, List.countP_append, List.countP_append, ih_first, h_others, ← h_leaves,
      List.length_append]
    rfl

/-- A chain has at least one condition for each of its operands. -/
theorem arity_le_of_mem_flatten {r : Rule} {op : Connective} {arity : Nat}
    (h : chain op arity ∈ flatten r) : arity ≤ r.leaves.length := by
  induction r using chain_induction with
  | test c =>
    rw [flatten_test] at h
    exact absurd (List.mem_singleton.mp h) (by simp)
  | join op' left right ih_first ih_others =>
    rw [← leaves_operands, List.length_append]
    rw [flatten_join, List.mem_append, List.mem_append] at h
    -- the entry belongs to the first operand, to another one, or to the chain itself
    rcases h with h_mem | h_mem | h_mem
    · exact Nat.le_add_right_of_le (ih_first h_mem)
    · obtain ⟨r, hr, h_mem⟩ := List.mem_flatMap.mp h_mem
      exact Nat.le_add_left_of_le (Nat.le_trans (ih_others r hr h_mem) (length_leaves_le_of_mem hr))
    · obtain ⟨-, rfl⟩ := Entry.chain.inj (List.mem_singleton.mp h_mem)
      have h_first := (chainOperands op' left [right]).1.length_leaves_pos
      have h_others := length_le_length_leaves (chainOperands op' left [right]).2
      omega

end Entry

/-- **A rule comes out of its payload** if its conditions pass the check of stored conditions, and
else the fault of the first one that does not. -/
theorem Payload.toRule_ofRule (r : Rule) :
    (Payload.ofRule r).toRule = (Entry.checkAll r.leaves).map fun _ => r := by
  unfold Payload.ofRule Payload.toRule Entry.rebuild
  simp only
  rw [Entry.foldlM_push_flatten]
  cases Entry.checkAll r.leaves with
  | error fault => rfl
  | ok u =>
    rw [map_ok, ok_bind, if_neg (fun h => h rfl)]
    rfl

end Eligibility
