import Eligibility.Rule.Equality

/-!
# Rules that share parts

A program that holds many rules does not copy a rule when it hands it on: the copy is the same
nodes. Comparison makes use of that and does not look into parts that are one and the same. This
shows in one case only, that of rules which compare with a double that is not a number, because
there a part is not alike itself.

A `Shared` rule is a rule whose parts carry a mark of the place where they were made. Joints of one
mark are one joint, so they have the same parts. A lone condition needs a mark only if several
joints have it for a part, as nothing else can be compared with itself. `Shared.same` is the
comparison, and `Shared.rule` forgets the marks.
-/

namespace Eligibility

/-- A rule whose parts know where they were made. -/
inductive Shared
  | test (c : Condition) (mark : Option Nat := none)
  | join (mark : Nat) (op : Connective) (left right : Shared)
  deriving DecidableEq, Inhabited

namespace Shared

/-- The rule without the marks. -/
def rule : Shared → Rule
  | test c _ => .test c
  | join _ op left right => .join op left.rule right.rule

def size : Shared → Nat
  | test _ _ => 1
  | join _ _ left right => 1 + left.size + right.size

theorem size_pos (a : Shared) : 0 < a.size := by
  cases a with
  | test => exact Nat.one_pos
  | join =>
    rw [size]
    omega

/-- Were the two parts made at one place? -/
def isAt : Shared → Shared → Bool
  | test _ (some mark), test _ (some mark') => mark == mark'
  | join mark _ _ _, join mark' _ _ _ => mark == mark'
  | _, _ => false

/-- The rule as it stands on its own. A lone condition then is no part of anything. -/
def alone : Shared → Shared
  | test c _ => test c
  | join mark op left right => join mark op left right

/-- Makes all joints of a rule anew, with marks from `next` on, and gives the next free mark. -/
def make (next : Nat) : Rule → Shared × Nat
  | .test c => (test c, next)
  | .join op left right =>
    let (l, next) := make next left
    let (r, next) := make next right
    (join next op l r, next + 1)

theorem rule_make (r : Rule) (next : Nat) : (make next r).1.rule = r := by
  induction r generalizing next with
  | test c => rfl
  | join op left right ihl ihr => simp [make, rule, ihl, ihr]

/-- The number of nodes in the first parts of pending pairs. -/
def pendingSize : List (Shared × Shared) → Nat
  | [] => 0
  | p :: rest => p.1.size + pendingSize rest

@[simp] theorem pendingSize_cons (p : Shared × Shared) (rest : List (Shared × Shared)) :
    pendingSize (p :: rest) = p.1.size + pendingSize rest := rfl

/-- Are the pending pairs alike, where a part is taken to be like itself? -/
def allSame (pending : List (Shared × Shared)) : Bool :=
  match pending with
  | [] => true
  | (a, b) :: rest =>
    if a.isAt b then allSame rest
    else
      match a, b with
      | test c _, test d _ => c.alike d && allSame rest
      | join _ op left right, join _ op' left' right' =>
        op == op' && allSame ((left, left') :: (right, right') :: rest)
      | _, _ => false
termination_by pendingSize pending
decreasing_by
  · have h_pos := a.size_pos
    simp only [pendingSize_cons]
    omega
  all_goals simp only [pendingSize_cons, size]; omega

/-- The comparison of shared rules. -/
def same (a b : Shared) : Bool := allSame [(a.alone, b.alone)]

/-- The part of a joint on one side. A lone condition has none. -/
def child (left : Bool) : Shared → Option Shared
  | test _ _ => none
  | join _ _ l r => some (if left then l else r).alone

/-- Joins rules from the left, with marks from `next` on for the new joints. The rules themselves
become parts as they are. -/
def combine (op : Connective) (next : Nat) : List Shared → Option Shared × Nat
  | [] => (none, next)
  | r :: rs =>
    let (all, next) := rs.foldl (fun (l, next) r => (join next op l r, next + 1)) (r, next)
    (some all, next)

end Shared

end Eligibility
