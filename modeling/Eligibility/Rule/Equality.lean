import Eligibility.Rule.Walk

/-!
# Alike rules

Two rules are alike when they have the same shape, the same connectives and alike conditions. As a
double that is not a number is not alike itself, neither is a rule that compares with one.
-/

namespace Eligibility.Rule

/-- The same rule, condition by condition. -/
def alike : Rule → Rule → Bool
  | test c, test d => c.alike d
  | join op left right, join op' left' right' =>
    op == op' && left.alike left' && right.alike right'
  | _, _ => false

/-- Are the rules of all pending pairs alike? -/
def allAlike (pending : List (Rule × Rule)) : Bool :=
  match pending with
  | [] => true
  | (test c, test d) :: rest => c.alike d && allAlike rest
  | (join op left right, join op' left' right') :: rest =>
    op == op' && allAlike ((left, left') :: (right, right') :: rest)
  | _ :: _ => false
termination_by pendingSize (pending.map (·.1))
decreasing_by all_goals simp only [List.map_cons, pendingSize_cons, size]; omega

/-- The comparison that keeps a stack of its own finds what recursion on both rules finds. -/
theorem allAlike_eq (pending : List (Rule × Rule)) :
    allAlike pending = pending.all fun p => p.1.alike p.2 := by
  fun_induction allAlike pending with
  | case1 => rfl
  | case2 rest c d ih => simp [alike, ih]
  | case3 rest op left right op' left' right' ih => simp [alike, ih, Bool.and_assoc]
  | case4 p rest h₁ h₂ =>
    obtain ⟨r, s⟩ := p
    cases r <;> cases s <;> simp_all [alike]

/-- One pair of rules is found alike exactly if they are. -/
theorem allAlike_pair (r s : Rule) : allAlike [(r, s)] = r.alike s := by
  rw [allAlike_eq, List.all_cons, List.all_nil, Bool.and_true]

end Eligibility.Rule
