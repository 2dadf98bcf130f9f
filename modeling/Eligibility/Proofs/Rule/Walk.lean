import Eligibility.Rule.Walk

/-!
# Walks and recursion

The walks of `Eligibility.Rule.Walk` keep what is pending on a list. What each computes is said here
by recursion on the rule: a walk over pending rules does the first of them completely before it
comes to the next, so its answer is put together from the answers for the pending rules. The
statements are about arbitrary pending lists, and the walk over a single rule is the case of one.

`walks_by_recursion` puts them side by side for a single rule, with the two laws of a tree whose
joints have two parts each: there is one condition more than there are joints, and no way down is
longer than there are conditions.
-/

namespace Eligibility.Rule

/-- The rules still pending are visited one after the other. -/
theorem visit_eq (pending seen : List Rule) :
    visit pending seen = seen.reverse ++ pending.flatMap preorder := by
  fun_induction visit pending seen with
  | case1 seen => simp
  | case2 seen c rest ih =>
    rw [ih, List.reverse_cons, List.append_assoc, List.flatMap_cons, preorder]
  | case3 seen op left right rest ih =>
    rw [ih]
    simp only [List.reverse_cons, List.flatMap_cons, preorder, List.append_assoc, List.cons_append,
      List.nil_append]

/-- All nodes, parents before parts and left before right. -/
theorem nodes_eq_preorder (r : Rule) : r.nodes = r.preorder := by
  rw [nodes, visit_eq, List.reverse_nil, List.nil_append, List.flatMap_singleton]

/-- The conditions among the nodes are the leaves. -/
theorem filterMap_condition?_preorder (r : Rule) : r.preorder.filterMap condition? = r.leaves := by
  induction r with
  | test c => rfl
  | join op left right ihl ihr =>
    rw [preorder, List.filterMap_cons, List.filterMap_append, ihl, ihr]
    rfl

/-- The conditions from left to right. -/
theorem conditions_eq_leaves (r : Rule) : r.conditions = r.leaves := by
  rw [conditions, nodes_eq_preorder, filterMap_condition?_preorder]

/-- The nodes that are conditions are counted as the leaves are. -/
theorem leafCount_eq_length_leaves (r : Rule) : r.leafCount = r.leaves.length := by
  rw [leafCount, nodes_eq_preorder]
  induction r with
  | test c => rfl
  | join op left right ihl ihr =>
    rw [preorder, List.countP_cons_of_neg (by simp [isTest]), List.countP_append, ihl, ihr, leaves,
      List.length_append]

/-- The number of joints. -/
def joints : Rule → Nat
  | test _ => 0
  | join _ left right => left.joints + right.joints + 1

theorem operatorCount_test (c : Condition) : (test c).operatorCount = 0 := by
  rw [operatorCount, nodes_eq_preorder]
  rfl

theorem operatorCount_join (op : Connective) (left right : Rule) :
    (join op left right).operatorCount = left.operatorCount + right.operatorCount + 1 := by
  simp only [operatorCount, nodes_eq_preorder, preorder, isTest, List.countP_cons,
    List.countP_append, Bool.not_false, if_true]

/-- The other nodes are the joints. -/
theorem operatorCount_eq_joints (r : Rule) : r.operatorCount = r.joints := by
  induction r with
  | test c => exact operatorCount_test c
  | join op left right ihl ihr => rw [operatorCount_join, ihl, ihr, joints]

/-- Every joint takes two rules and makes one, so in the end there is one condition more. -/
theorem length_leaves_eq_joints_succ (r : Rule) : r.leaves.length = r.joints + 1 := by
  induction r with
  | test c => rfl
  | join op left right ihl ihr =>
    rw [leaves, List.length_append, joints, ihl, ihr]
    omega

/-- On the way down each joint leaves at least one condition aside. -/
theorem height_le_length_leaves (r : Rule) : r.height ≤ r.leaves.length := by
  induction r with
  | test c => exact Nat.le_refl 1
  | join op left right ihl ihr =>
    have h_left := left.length_leaves_eq_joints_succ
    have h_right := right.length_leaves_eq_joints_succ
    rw [height, leaves, List.length_append]
    -- the side that is not taken has a condition of its own
    omega

/-- A joined rule has the conditions of both sides. -/
theorem mem_conditions_join {op : Connective} {left right : Rule} {c : Condition} :
    c ∈ (join op left right).conditions ↔ c ∈ left.conditions ∨ c ∈ right.conditions := by
  simp only [conditions_eq_leaves, leaves, List.mem_append]

/-- Of equal neighbours one stays. -/
theorem mem_eraseReps {names : List String} {name : String} :
    name ∈ names.eraseReps ↔ name ∈ names := by
  -- the loop holds back the last name that it has seen, and the names before it are done
  have h_loop (rest : List String) (last : String) (done : List String) :
      name ∈ List.eraseRepsBy.loop (· == ·) last rest done
        ↔ name ∈ done ∨ name = last ∨ name ∈ rest := by
    fun_induction List.eraseRepsBy.loop (· == ·) last rest done with
    | case1 last done => simp [or_comm]
    | case2 last done next rest h_same ih =>
      rw [ih, List.mem_cons, eq_of_beq h_same, or_self_left]
    | case3 last done next rest h_new ih =>
      rw [ih, List.mem_cons, List.mem_cons]
      grind
  cases names with
  | nil => exact Iff.rfl
  | cons first rest =>
    rw [List.eraseReps, List.eraseRepsBy, h_loop, List.mem_cons]
    simp only [List.not_mem_nil, false_or]

/-- A rule reads the attributes of its conditions. -/
theorem mem_attributes_iff {r : Rule} {name : String} :
    name ∈ r.attributes ↔ ∃ c ∈ r.conditions, c.name = name := by
  rw [attributes, mem_eraseReps, List.mem_mergeSort, List.mem_map]

/-- The greatest level is reached on the way down from one of the pending rules. -/
theorem deepest_eq (pending : List (Rule × Nat)) (best : Nat) :
    deepest pending best
      = (pending.map fun p => p.2 + p.1.height - 1).foldl max best := by
  fun_induction deepest pending best with
  | case1 best => rfl
  | case2 best c level rest ih =>
    rw [ih, List.map_cons, List.foldl_cons, height, Nat.add_sub_cancel]
  | case3 best op left right level rest ih =>
    -- the level of a joint is below that of its parts, so it is no news
    have h_join : max (max (max best level) (level + 1 + left.height - 1))
          (level + 1 + right.height - 1)
        = max best (level + (1 + max left.height right.height) - 1) := by
      omega
    rw [ih]
    simp only [List.map_cons, List.foldl_cons, height, h_join]

/-- The height of the tree. -/
theorem depth_eq_height (r : Rule) : r.depth = r.height := by
  rw [depth, deepest_eq]
  simp only [List.map_cons, List.map_nil, List.foldl_cons, List.foldl_nil]
  omega

/-- The text of a pending piece. -/
def Piece.text : Piece → String
  | rule r => r.text
  | keyword op => " " ++ op.keyword ++ " "
  | close => ")"

/-- The pieces still pending are written one after the other. -/
theorem writePieces_eq (pending : List Piece) (written : String) :
    writePieces pending written = pending.foldl (fun s p => s ++ p.text) written := by
  -- a rule on the stack is written in one piece or replaced by its own pieces in order
  fun_induction writePieces pending written with
  | case1 written => rfl
  | case2 written c rest ih => rw [ih, List.foldl_cons, Piece.text, Rule.text]
  | case3 written op left right rest ih =>
    rw [ih]
    simp only [List.foldl_cons, Piece.text, Rule.text, String.append_assoc]
  | case4 written op rest ih =>
    rw [ih]
    simp only [List.foldl_cons, Piece.text, String.append_assoc]
  | case5 written rest ih => rw [ih, List.foldl_cons, Piece.text]

/-- The canonical text. -/
theorem render_eq_text (r : Rule) : r.render = r.text := by
  rw [render, writePieces_eq, List.foldl_cons, List.foldl_nil, Piece.text, String.empty_append]

/-- **Walks and recursion.** On every rule, of any shape and height, the walks that keep a stack of
their own find what recursion finds: the nodes in preorder, the conditions from left to right, the
height, the numbers of conditions and of joints, and the canonical text. -/
theorem walks_by_recursion (r : Rule) :
    r.nodes = r.preorder ∧ r.conditions = r.leaves ∧ r.depth = r.height ∧
      r.leafCount = r.leaves.length ∧ r.operatorCount = r.joints ∧
      r.leafCount = r.operatorCount + 1 ∧ r.depth ≤ r.leafCount ∧ r.render = r.text := by
  have h_leaves := r.leafCount_eq_length_leaves
  have h_joints := r.operatorCount_eq_joints
  have h_depth := r.depth_eq_height
  refine ⟨r.nodes_eq_preorder, r.conditions_eq_leaves, h_depth, h_leaves, h_joints, ?_, ?_,
    r.render_eq_text⟩
  · calc r.leafCount = r.leaves.length := h_leaves
      _ = r.joints + 1 := r.length_leaves_eq_joints_succ
      _ = r.operatorCount + 1 := by rw [h_joints]
  · calc r.depth = r.height := h_depth
      _ ≤ r.leaves.length := r.height_le_length_leaves
      _ = r.leafCount := h_leaves.symm

end Eligibility.Rule
