import Eligibility.Proofs.Rule.Walk
import Mathlib.Algebra.GroupWithZero.Nat

/-!
# Combined rules

Joining rules from the left keeps their conditions, in order, and adds one joint for every rule
after the first.
-/

namespace Eligibility.Rule

/-- Rules joined from the left have the conditions of all of them, in order. -/
theorem leaves_foldl_join (op : Connective) (first : Rule) (others : List Rule) :
    (others.foldl (Rule.join op) first).leaves = first.leaves ++ others.flatMap Rule.leaves := by
  induction others generalizing first with
  | nil => rw [List.foldl_nil, List.flatMap_nil, List.append_nil]
  | cons r others ih => rw [List.foldl_cons, ih, Rule.leaves, List.flatMap_cons, List.append_assoc]

/-- Every rule after the first brings a joint along. -/
theorem operatorCount_foldl_join (op : Connective) (first : Rule) (others : List Rule) :
    (others.foldl (Rule.join op) first).operatorCount
      = first.operatorCount + (others.map operatorCount).sum + others.length := by
  induction others generalizing first with
  | nil => rfl
  | cons r others ih =>
    rw [List.foldl_cons, ih, operatorCount_join, List.map_cons, List.sum_cons, List.length_cons]
    omega

/-- Rules that are joined keep their conditions, and no others come in. -/
theorem mem_conditions_combine {op : Connective} {rs : List Rule} {r : Rule} {c : Condition}
    (h : combine op rs = some r) : c ∈ r.conditions ↔ ∃ s ∈ rs, c ∈ s.conditions := by
  cases rs with
  | nil => exact absurd h (by simp [combine])
  | cons first others =>
    obtain rfl := Option.some.inj h
    simp only [conditions_eq_leaves, leaves_foldl_join, List.mem_append, List.mem_flatMap,
      List.mem_cons, or_and_right, exists_or, exists_eq_left]

/-- Any rules at all make a combined rule, with all their conditions in order. -/
theorem exists_combine (op : Connective) {rs : List Rule} (h : rs ≠ []) :
    ∃ r, combine op rs = some r ∧ r.conditions = rs.flatMap conditions ∧
      r.operatorCount = (rs.map operatorCount).sum + (rs.length - 1) := by
  obtain ⟨first, others, rfl⟩ := List.exists_cons_of_ne_nil h
  refine ⟨others.foldl (join op) first, rfl, ?_, ?_⟩
  · have h_conditions : conditions = leaves := funext conditions_eq_leaves
    rw [h_conditions, leaves_foldl_join, List.flatMap_cons]
  · rw [operatorCount_foldl_join, List.map_cons, List.sum_cons, List.length_cons,
      Nat.add_sub_cancel]

end Eligibility.Rule
