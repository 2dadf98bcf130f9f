import Eligibility.Rule.Walk

/-!
# The entries of a stored rule

A rule is stored as a list of entries in which every connective comes after its operands. A chain
of one connective that leans to the left is a single entry with the number of its operands, so
`flatten` descends along left sides and `rebuild` joins from the left. A right side of the same
connective came from grouping and stays an entry of its own.

Neither direction recurses into the rule, so rules of any depth can be stored.
-/

namespace Eligibility

/-- An entry of a stored rule. -/
inductive Entry
  | test (c : Condition)
  /-- Joins as many of the preceding operands as the arity says. -/
  | chain (op : Connective) (arity : Nat)
  deriving DecidableEq

namespace Entry

def isTest : Entry → Bool
  | test _ => true
  | chain _ _ => false

/-! ### Flattening -/

/-- What is still to come when a rule is flattened: the entries of a rule, or an entry that waits
for its operands. -/
inductive Pending
  | rule (r : Rule)
  | entry (e : Entry)

/-- A bound on the steps that it still takes. -/
def Pending.weight : Pending → Nat
  | rule r => 2 * r.size
  | entry _ => 1

/-- The same bound for all that is still to come. -/
def Pending.totalWeight : List Pending → Nat
  | [] => 0
  | p :: pending => p.weight + totalWeight pending

theorem Pending.totalWeight_append (ps qs : List Pending) :
    totalWeight (ps ++ qs) = totalWeight ps + totalWeight qs := by
  induction ps with
  | nil => rw [List.nil_append, totalWeight, Nat.zero_add]
  | cons p ps ih => rw [List.cons_append, totalWeight, totalWeight, ih, Nat.add_assoc]

theorem Pending.totalWeight_rules (rs : List Rule) :
    totalWeight (rs.map .rule) = 2 * Rule.pendingSize rs := by
  induction rs with
  | nil => rfl
  | cons r rs ih => rw [List.map_cons, totalWeight, ih, Rule.pendingSize_cons, weight, Nat.mul_add]

/-- The first operand of a chain of `op` and the others, in order; `rights` are found already. -/
def chainOperands (op : Connective) : Rule → List Rule → Rule × List Rule
  | .test c, rights => (.test c, rights)
  | .join op' left right, rights =>
    if op' = op then chainOperands op left (right :: rights) else (.join op' left right, rights)

theorem size_chainOperands (op : Connective) (r : Rule) (rights : List Rule) :
    let operands := chainOperands op r rights
    operands.1.size + Rule.pendingSize operands.2 + operands.2.length
      = r.size + Rule.pendingSize rights + rights.length := by
  fun_induction chainOperands op r rights with
  | case1 => rfl
  | case2 left right rights ih =>
    simp only [Rule.pendingSize_cons, List.length_cons, Rule.size] at ih ⊢
    omega
  | case3 => rfl

theorem length_chainOperands (op : Connective) (r : Rule) (rights : List Rule) :
    rights.length ≤ (chainOperands op r rights).2.length := by
  fun_induction chainOperands op r rights with
  | case1 => exact Nat.le_refl _
  | case2 left right rights ih =>
    simp only [List.length_cons] at ih
    omega
  | case3 => exact Nat.le_refl _

/-- Works off what is pending; the entries that are `done` are kept latest first. -/
def flattenFrom (pending : List Pending) (done : List Entry) : List Entry :=
  match pending with
  | [] => done.reverse
  | .entry e :: pending => flattenFrom pending (e :: done)
  | .rule (.test c) :: pending => flattenFrom pending (test c :: done)
  | .rule (.join op left right) :: pending =>
    let operands := chainOperands op left [right]
    let arity := operands.2.length + 1
    -- the chain follows all of its operands
    flattenFrom
      (.rule operands.1 :: (operands.2.map .rule ++ .entry (chain op arity) :: pending)) done
termination_by Pending.totalWeight pending
decreasing_by
  · simp only [Pending.totalWeight, Pending.weight]
    omega
  · simp only [Pending.totalWeight, Pending.weight, Rule.size]
    omega
  · have hs := size_chainOperands op left [right]
    have hl := length_chainOperands op left [right]
    simp only [Pending.totalWeight, Pending.totalWeight_append, Pending.totalWeight_rules,
      Pending.weight, Rule.size, Rule.pendingSize_cons, Rule.pendingSize_nil, List.length_cons,
      List.length_nil] at hs hl ⊢
    omega

/-- The entries of a rule. -/
def flatten (r : Rule) : List Entry := flattenFrom [.rule r] []

/-! ### Rebuilding -/

/-- What can be wrong with a list of entries. -/
inductive Fault
  | emptyAttribute
  /-- An ordering condition has no finite number to order by. -/
  | literalNotFinite (c : Condition)
  | shortChain (arity : Nat)
  | operandsMissing (arity available : Nat)
  /-- The stated number of conditions is not the number found. -/
  | countMismatch (stated found : Nat)
  | noEntries
  /-- More than one rule is left at the end. -/
  | unconnected (rules : Nat)
  deriving DecidableEq

def Fault.message : Fault → String
  | emptyAttribute => "condition with empty attribute"
  | literalNotFinite c => "condition '" ++ c.render ++ "' needs a finite numeric literal"
  | shortChain arity => "operator chain with " ++ toString arity ++ " operand(s)"
  | operandsMissing arity available =>
    "operator chain wants " ++ toString arity ++ " operands, only " ++ toString available
      ++ " available"
  | countMismatch stated found =>
    "metadata says " ++ toString stated ++ " conditions but payload has " ++ toString found
  | noEntries => "empty payload"
  | unconnected rules => "payload leaves " ++ toString rules ++ " unconnected subtrees"

/-- Checks a stored condition. -/
def checkCondition (c : Condition) : Except Fault Condition :=
  if c.name = "" then .error .emptyAttribute
  else if c.comparison.isOrdering && c.value.orderingBound.isNone then .error (.literalNotFinite c)
  else .ok c

/-- Joins the topmost `arity` rules of a stack from the left. -/
def joinChain (op : Connective) (arity : Nat) (stack : List Rule) : Except Fault (List Rule) :=
  if arity < 2 then .error (.shortChain arity)
  else if stack.length < arity then .error (.operandsMissing arity stack.length)
  else
    match Rule.combine op (stack.take arity).reverse with
    | none => .error (.shortChain arity)
    | some r => .ok (r :: stack.drop arity)

/-- Takes an entry onto the stack of finished rules, latest first. -/
def push (stack : List Rule) : Entry → Except Fault (List Rule)
  | test c => do
    let c ← checkCondition c
    return .test c :: stack
  | chain op arity => joinChain op arity stack

/-- The rule of a list of entries, for which `stated` is the number of conditions. -/
def rebuild (stated : Nat) (entries : List Entry) : Except Fault Rule := do
  let stack ← entries.foldlM push []
  let found := entries.countP isTest
  if found ≠ stated then throw (.countMismatch stated found)
  match stack with
  | [] => throw .noEntries
  | [r] => return r
  | _ => throw (.unconnected stack.length)

end Entry

end Eligibility
