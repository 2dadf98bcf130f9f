import Eligibility.Rule.Basic

/-!
# Walking a rule with a stack

The walks that run on rules of any depth. Each keeps a list of what is still pending and takes one
piece of it at a time, so its own depth does not grow with the rule's. `Rule.nodes` visits the
nodes from the root on, `Rule.depth` carries each node's level along, and `Rule.render` writes the
canonical text. What they compute is said without a stack in `Eligibility.Rule.Basic`.
-/

namespace Eligibility.Rule

/-- The number of nodes in a list of pending rules. -/
def pendingSize : List Rule → Nat
  | [] => 0
  | r :: rs => r.size + pendingSize rs

@[simp] theorem pendingSize_nil : pendingSize [] = 0 := rfl

@[simp] theorem pendingSize_cons (r : Rule) (rs : List Rule) :
    pendingSize (r :: rs) = r.size + pendingSize rs := rfl

/-- Visits all nodes of the pending rules; the nodes `seen` so far are kept latest first. -/
def visit (pending seen : List Rule) : List Rule :=
  match pending with
  | [] => seen.reverse
  | test c :: rest => visit rest (test c :: seen)
  | join op left right :: rest => visit (left :: right :: rest) (join op left right :: seen)
termination_by pendingSize pending
decreasing_by all_goals simp only [pendingSize_cons, size]; omega

/-- All nodes, parents before parts and left before right. -/
def nodes (r : Rule) : List Rule := visit [r] []

/-- The number of conditions. -/
def leafCount (r : Rule) : Nat := r.nodes.countP isTest

/-- The number of joints. -/
def operatorCount (r : Rule) : Nat := r.nodes.countP (!·.isTest)

/-- The conditions from left to right. -/
def conditions (r : Rule) : List Condition := r.nodes.filterMap condition?

/-- The names of the attributes that the rule reads, each once and in order. -/
def attributes (r : Rule) : List String :=
  ((r.conditions.map (·.name)).mergeSort (fun a b => decide (a ≤ b))).eraseReps

/-- The greatest of `best` and all levels in the pending rules, each with the level of its root. -/
def deepest (pending : List (Rule × Nat)) (best : Nat) : Nat :=
  match pending with
  | [] => best
  | (test _, level) :: rest => deepest rest (max best level)
  | (join _ left right, level) :: rest =>
    deepest ((left, level + 1) :: (right, level + 1) :: rest) (max best level)
termination_by pendingSize (pending.map (·.1))
decreasing_by all_goals simp only [List.map_cons, pendingSize_cons, size]; omega

/-- The height of the tree. -/
def depth (r : Rule) : Nat := deepest [(r, 1)] 0

/-- What is still to be written of a rule's text. -/
inductive Piece
  | rule (r : Rule)
  | keyword (op : Connective)
  | close

/-- A bound on the steps that a pending piece still takes: at most three for each node of a rule,
and one for anything else. -/
def Piece.weight : Piece → Nat
  | rule r => 3 * r.size
  | keyword _ => 1
  | close => 1

/-- The same bound for all pending pieces together. -/
def Piece.pendingWeight : List Piece → Nat
  | [] => 0
  | piece :: pending => piece.weight + pendingWeight pending

/-- Writes the pending pieces behind the text that is `written`. -/
def writePieces (pending : List Piece) (written : String) : String :=
  match pending with
  | [] => written
  | .rule (.test c) :: rest => writePieces rest (written ++ c.render)
  | .rule (.join op left right) :: rest =>
    writePieces (.rule left :: .keyword op :: .rule right :: .close :: rest) (written ++ "(")
  | .keyword op :: rest => writePieces rest (written ++ " " ++ op.keyword ++ " ")
  | .close :: rest => writePieces rest (written ++ ")")
termination_by Piece.pendingWeight pending
decreasing_by
  all_goals
    simp only [Piece.pendingWeight, Piece.weight, size]
    omega

/-- The canonical rule text. -/
def render (r : Rule) : String := writePieces [.rule r] ""

end Eligibility.Rule
