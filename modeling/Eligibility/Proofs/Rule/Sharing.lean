import Eligibility.Proofs.Rule.Match
import Eligibility.Rule.Sharing

/-!
# Comparing what is shared

The comparison of rules keeps a stack of its own, and it passes over parts that were made at one
place. The stack makes no difference (`Shared.allSame_eq`): what is found is what recursion on both
rules finds, part by part (`Shared.agrees`).

Passing over a part does. It is right if the part is alike itself, and so if none of its conditions
compares with a double that is not a number. With such a condition the part is alike no rule at all,
and the comparison does not see it. The main statement, `Shared.alike_iff_same`, is that this is all
that it does not see: two rules are alike exactly if the comparison finds them to be the same and no
condition that it passed over compares with such a double.

That all of this depends on where the parts were made is clear from a rule and its copies
(`Shared.not_alike_of_same`). The copy that has the same parts is the same, and the one that has
parts of its own is not.
-/

namespace Eligibility

/-! ### Rules that are alike themselves -/

/-- Does the condition compare with a double that is not a number? -/
def Condition.hasNaN (c : Condition) : Bool :=
  match c.value with
  | .float x => x.isNaN
  | _ => false

/-- Such a condition is not alike itself, and all others are. -/
theorem Condition.alike_self (c : Condition) : c.alike c = !c.hasNaN := by
  obtain ⟨name, comparison, v⟩ := c
  cases v with
  | float x => simp [alike, hasNaN, Value.alike, Binary64.equals]
  | _ => simp [alike, hasNaN, Value.alike]

theorem Rule.alike_self_iff {r : Rule} : r.alike r ↔ ∀ c ∈ r.leaves, c.hasNaN = false := by
  rw [alike_iff_matches, matches_self_iff]
  simp only [Condition.alike_self, Bool.not_eq_true']

namespace Shared

variable {a b : Shared}

/-! ### Places -/

/-- All parts of a rule, with the rule itself. -/
def parts : Shared → List Shared
  | test c mark => [test c mark]
  | join mark op left right => join mark op left right :: (left.parts ++ right.parts)

/-- **Places are places**: what was made at one place is one rule. -/
def Coherent (a b : Shared) : Prop := ∀ p ∈ a.parts, ∀ q ∈ b.parts, p.isAt q → p.rule = q.rule

/-- The two rules have no part in common. -/
def Apart (a b : Shared) : Prop := ∀ p ∈ a.parts, ∀ q ∈ b.parts, ¬p.isAt q

instance (a b : Shared) : Decidable (Coherent a b) :=
  inferInstanceAs (Decidable (∀ p ∈ a.parts, ∀ q ∈ b.parts, p.isAt q → p.rule = q.rule))

instance (a b : Shared) : Decidable (Apart a b) :=
  inferInstanceAs (Decidable (∀ p ∈ a.parts, ∀ q ∈ b.parts, ¬p.isAt q))

theorem self_mem_parts (a : Shared) : a ∈ a.parts := by
  cases a with
  | test => exact List.mem_singleton.mpr rfl
  | join => exact List.mem_cons_self

theorem mem_parts_of_left {mark : Nat} {op : Connective} {left right p : Shared}
    (h : p ∈ left.parts) : p ∈ (join mark op left right).parts :=
  List.mem_cons_of_mem _ (List.mem_append_left _ h)

theorem mem_parts_of_right {mark : Nat} {op : Connective} {left right p : Shared}
    (h : p ∈ right.parts) : p ∈ (join mark op left right).parts :=
  List.mem_cons_of_mem _ (List.mem_append_right _ h)

/-- On its own a rule has no other parts, apart from a lone condition, which was made nowhere. -/
theorem mem_parts_alone {p : Shared} (h : p ∈ a.alone.parts) :
    p ∈ a.parts ∨ ∃ c, p = test c := by
  cases a with
  | test c mark => exact .inr ⟨c, List.mem_singleton.mp h⟩
  | join => exact .inl h

theorem isAt_test (p : Shared) (c : Condition) :
    p.isAt (test c) = false ∧ (test c).isAt p = false := by
  cases p with
  | test d mark => cases mark <;> exact ⟨rfl, rfl⟩
  | join => exact ⟨rfl, rfl⟩

/-- What holds of parts that were made at one place holds of them in rules on their own. -/
theorem forall_parts_alone {P : Shared → Shared → Prop}
    (h : ∀ p ∈ a.parts, ∀ q ∈ b.parts, p.isAt q → P p q) :
    ∀ p ∈ a.alone.parts, ∀ q ∈ b.alone.parts, p.isAt q → P p q := by
  intro p hp q hq h_at
  rcases mem_parts_alone hp with hp | ⟨c, rfl⟩
  · rcases mem_parts_alone hq with hq | ⟨c, rfl⟩
    · exact h p hp q hq h_at
    · exact absurd h_at (by simp [isAt_test])
  · exact absurd h_at (by simp [isAt_test])

@[simp] theorem rule_alone (a : Shared) : a.alone.rule = a.rule := by
  cases a with
  | test => rfl
  | join => rfl

/-! ### The comparison by recursion -/

/-- What the comparison finds of two parts. -/
def agrees (a b : Shared) : Bool :=
  a.isAt b ||
    match a, b with
    | test c _, test d _ => c.alike d
    | join _ op left right, join _ op' left' right' =>
      op == op' && left.agrees left' && right.agrees right'
    | _, _ => false

/-- The conditions of the parts that the two have in common, in corresponding places. -/
def common (a b : Shared) : List Condition :=
  if a.isAt b then a.rule.leaves
  else
    match a, b with
    | join _ _ left right, join _ _ left' right' => left.common left' ++ right.common right'
    | _, _ => []

/-- The conditions that are not looked at when the two rules are compared. -/
def passedOver (a b : Shared) : List Condition := a.alone.common b.alone

theorem agrees_of_isAt (h : a.isAt b) : a.agrees b = true := by
  unfold agrees
  rw [h, Bool.true_or]

theorem common_of_isAt (h : a.isAt b) : a.common b = a.rule.leaves := by
  unfold common
  rw [if_pos h]

/-- **The stack makes no difference.** -/
theorem allSame_eq (pending : List (Shared × Shared)) :
    allSame pending = pending.all fun p => p.1.agrees p.2 := by
  fun_induction allSame pending with
  | case1 => rfl
  | case2 a b rest h_at ih => rw [List.all_cons, agrees_of_isAt h_at, Bool.true_and, ih]
  | case3 rest c mark d mark' h_at ih => simp [agrees, h_at, ih]
  | case4 rest mark op left right mark' op' left' right' h_at ih =>
    simp [agrees, h_at, ih, Bool.and_assoc]
  | case5 a b rest h_at h_test h_join =>
    -- a condition and a joint
    cases a with
    | test c mark =>
      cases b with
      | test d mark' => exact absurd rfl (h_test c mark d mark' rfl)
      | join => simp [agrees, isAt]
    | join mark op left right =>
      cases b with
      | test => simp [agrees, isAt]
      | join mark' op' left' right' =>
        exact absurd rfl (h_join mark op left right mark' op' left' right' rfl)

theorem same_eq (a b : Shared) : a.same b = a.alone.agrees b.alone := by
  rw [same, allSame_eq, List.all_cons, List.all_nil, Bool.and_true]

/-! ### What is not looked at -/

/-- One part, seen from two rules: the question is whether it is alike itself. -/
theorem alike_iff_of_isAt (h : Coherent a b) (h_at : a.isAt b) :
    a.rule.alike b.rule ↔ a.agrees b ∧ ∀ c ∈ a.common b, c.hasNaN = false := by
  have h_rule := h a a.self_mem_parts b b.self_mem_parts h_at
  rw [agrees_of_isAt h_at, common_of_isAt h_at, ← h_rule, Rule.alike_self_iff]
  exact (and_iff_right rfl).symm

/-- The parts of two joints are coherent as well. -/
theorem Coherent.of_join {mark mark' : Nat} {op op' : Connective}
    {left right left' right' : Shared}
    (h : Coherent (join mark op left right) (join mark' op' left' right')) :
    Coherent left left' ∧ Coherent right right' :=
  ⟨fun p hp q hq => h p (mem_parts_of_left hp) q (mem_parts_of_left hq),
    fun p hp q hq => h p (mem_parts_of_right hp) q (mem_parts_of_right hq)⟩

/-- **Passing over parts** is right for all but those with a double that is not a number. -/
theorem alike_iff_agrees (h : Coherent a b) :
    a.rule.alike b.rule ↔ a.agrees b ∧ ∀ c ∈ a.common b, c.hasNaN = false := by
  induction a generalizing b with
  | test c mark =>
    by_cases h_at : (test c mark).isAt b
    · exact alike_iff_of_isAt h h_at
    · cases b with
      | test d mark' => simp [agrees, common, h_at, rule, Rule.alike]
      | join => simp [agrees, common, isAt, rule, Rule.alike]
  | join mark op left right ihl ihr =>
    by_cases h_at : (join mark op left right).isAt b
    · exact alike_iff_of_isAt h h_at
    · cases b with
      | test => simp [agrees, common, isAt, rule, Rule.alike]
      | join mark' op' left' right' =>
        -- neither joint is passed over, so what is common is common to the left or to the right
        simp only [agrees, common, h_at, rule, Rule.alike, Bool.false_or, Bool.and_eq_true,
          ihl h.of_join.1, ihr h.of_join.2, List.forall_mem_append, Bool.false_eq_true, if_false]
        constructor
        · rintro ⟨⟨h_op, hl, hl'⟩, hr, hr'⟩
          exact ⟨⟨⟨h_op, hl⟩, hr⟩, hl', hr'⟩
        · rintro ⟨⟨⟨h_op, hl⟩, hr⟩, hl', hr'⟩
          exact ⟨⟨h_op, hl, hl'⟩, hr, hr'⟩

/-- Between rules that have no part in common nothing is passed over. -/
theorem Apart.common_eq_nil (h : Apart a b) : a.common b = [] := by
  have h_at := h a a.self_mem_parts b b.self_mem_parts
  induction a generalizing b with
  | test c mark => simp [common, h_at]
  | join mark op left right ihl ihr =>
    cases b with
    | test => simp [common, isAt]
    | join mark' op' left' right' =>
      -- the parts of the sides are parts of the whole, so none of them is common either
      have h_left : Apart left left' := fun p hp q hq =>
        h p (mem_parts_of_left hp) q (mem_parts_of_left hq)
      have h_right : Apart right right' := fun p hp q hq =>
        h p (mem_parts_of_right hp) q (mem_parts_of_right hq)
      simp only [common, h_at, Bool.false_eq_true, if_false]
      rw [ihl h_left (h_left _ left.self_mem_parts _ left'.self_mem_parts),
        ihr h_right (h_right _ right.self_mem_parts _ right'.self_mem_parts), List.append_nil]

/-! ### Comparing rules -/

/-- **What the comparison finds.** Two rules are alike exactly if the comparison finds them to be
the same and passes over no condition with a double that is not a number. So it never takes alike
rules for different, it takes different rules for the same only for such a condition, and it makes
no difference where there is none. A copy that has parts of its own is compared as it should be. -/
theorem alike_iff_same (h : Coherent a b) :
    (a.rule.alike b.rule ↔ a.same b ∧ ∀ c ∈ a.passedOver b, c.hasNaN = false) ∧
    ∀ copy : Shared, copy.rule = b.rule → Apart a copy →
      a.same copy = a.rule.alike b.rule := by
  have h_alike {b : Shared} (h : Coherent a b) :
      a.rule.alike b.rule ↔ a.same b ∧ ∀ c ∈ a.passedOver b, c.hasNaN = false := by
    have h_iff := alike_iff_agrees (a := a.alone) (b := b.alone) (forall_parts_alone h)
    rwa [rule_alone, rule_alone, ← same_eq] at h_iff
  refine ⟨h_alike h, fun copy h_copy h_apart => ?_⟩
  -- a copy has no part in common, so there is nothing to pass over
  have h_none : a.passedOver copy = [] :=
    Apart.common_eq_nil (forall_parts_alone h_apart)
  have h_iff := h_alike fun p hp q hq h_at => absurd h_at (h_apart p hp q hq)
  rw [h_none, and_iff_left (List.forall_mem_nil _), h_copy] at h_iff
  exact (Bool.eq_iff_iff.mpr h_iff).symm

/-- Two joints over one part, which is alike itself, and a copy of the second. -/
theorem alike_iff_same_joints :
    let part : Shared := join 0 .or (test ⟨"x", .equal, .float ⟨0⟩⟩) (test ⟨"y", .equal, .int 1⟩)
    let z : Shared := test ⟨"z", .less, .int 2⟩ (some 0)
    let a : Shared := join 1 .and part z
    let b : Shared := join 2 .and part z
    let copy : Shared := (make 3 b.rule).1
    Coherent a b ∧ a.passedOver b = a.rule.leaves ∧ a.same b ∧ a.rule.alike b.rule ∧
      copy.rule = b.rule ∧ Apart a copy ∧ a.same copy := by
  intro part z a b copy
  have h_coherent : Coherent a b := by decide
  -- the joints differ in their marks, but both of their sides are common
  have h_passed : a.passedOver b = a.rule.leaves := by decide
  have h_same : a.same b := by
    rw [same_eq]
    decide
  have h_apart : Apart a copy := by decide
  obtain ⟨h_iff, h_copies⟩ := alike_iff_same h_coherent
  have h_alike : a.rule.alike b.rule := h_iff.mpr ⟨h_same, by rw [h_passed]; decide⟩
  exact ⟨h_coherent, h_passed, h_same, h_alike, rule_make _ _, h_apart,
    (h_copies copy (rule_make _ _) h_apart).trans h_alike⟩

/-- **What the comparison misses.** A rule with a double that is not a number is the same as its
copy, and it is not alike itself. A copy with parts of its own is not the same, and neither is that
condition alone. -/
theorem not_alike_of_same :
    let c : Condition := ⟨"x", .equal, .float ⟨0x7FF8000000000000⟩⟩
    let a : Shared := join 0 .and (test c) (test ⟨"y", .equal, .int 1⟩)
    let copy : Shared := (make 1 a.rule).1
    Coherent a a ∧ a.same a = true ∧ a.rule.alike a.rule = false ∧
      copy.rule = a.rule ∧ a.same copy = false ∧ (test c).same (test c) = false := by
  intro c a copy
  -- the rule and itself have all parts in common, a copy has none, and a lone condition is no part
  refine ⟨by decide, ?_, by decide, rule_make _ _, ?_, ?_⟩
  · rw [same_eq]
    decide
  · rw [same_eq]
    decide
  · rw [same_eq]
    decide

end Shared

end Eligibility
