import Eligibility.Proofs.Blob.Normal
import Mathlib.Algebra.BigOperators.Group.List.Basic
import Mathlib.Data.List.Induction

/-!
# Heights of entry lists

Whether a list of entries can be rebuilt is a matter of counting. The *height* of a list is the
number of rules that its entries leave on the stack: a condition adds one, and a chain takes off its
operands and puts back one rule. Nothing else about the stack decides what happens next. An entry
can be taken exactly if it `FitsAt` at the height before it, and if it does not, the height tells its
fault (`Entry.push_of_fits`, `Entry.push_of_not_fits`).

So the run over a list of entries succeeds exactly if each of them fits where it stands
(`Entry.exists_run_iff`), and it stops at the first that does not. What is left to check at the end
are the number of conditions and the height, in this order. `Entry.Refuses` lists the reasons for
which a list is refused, and the main statement, `Entry.rebuild_by_height`, is that there are no
others and what is rebuilt where there is none.

The operands of a chain are cut off the stack only after their number was compared with the height,
so the cut never goes below the bottom of the stack, however large the number is.
-/

namespace Eligibility

namespace Entry

/-! ### Heights -/

/-- By how much an entry changes the number of rules on the stack. -/
def growth : Entry → Int
  | test _ => 1
  | chain _ arity => 1 - arity

/-- The number of rules that entries leave on the stack, if there are none to begin with. -/
def height (entries : List Entry) : Int := entries.foldl (fun h e => h + e.growth) 0

/-- The number of joints that an entry makes. -/
def joints : Entry → Nat
  | test _ => 0
  | chain _ arity => arity - 1

/-- The entry can be taken at this height: a condition that may be stored, or a chain of two or more
operands that are all there. -/
def FitsAt (height : Int) : Entry → Prop
  | test c => c.IsStorable
  | chain _ arity => 2 ≤ arity ∧ arity ≤ height

/-- What is wrong with an entry that cannot be taken at this height. -/
def faultAt (height : Int) : Entry → Fault
  | test c => c.storageFault
  | chain _ arity => if arity < 2 then .shortChain arity else .operandsMissing arity height.toNat

/-- Every entry can be taken where it stands. -/
def AllFit (entries : List Entry) : Prop :=
  ∀ front e back, entries = front ++ e :: back → e.FitsAt (height front)

/-- **Why a list of entries is refused**, where `stated` is the number of conditions that it should
have. -/
inductive Refuses (stated : Nat) : List Entry → Fault → Prop
  /-- The first entry that does not fit decides, whatever follows. -/
  | entry {front back : List Entry} {e : Entry} (h_front : AllFit front)
      (h_bad : ¬e.FitsAt (height front)) :
      Refuses stated (front ++ e :: back) (e.faultAt (height front))
  /-- If all entries fit, their conditions are counted first. -/
  | count {entries : List Entry} (h : AllFit entries)
      (h_count : (entries.filterMap condition?).length ≠ stated) :
      Refuses stated entries (.countMismatch stated (entries.filterMap condition?).length)
  /-- There is nothing to rebuild. -/
  | nothing (h_count : 0 = stated) : Refuses stated [] .noEntries
  /-- More than one rule is left. -/
  | unconnected {entries : List Entry} (h : AllFit entries)
      (h_count : (entries.filterMap condition?).length = stated) (h_height : 2 ≤ height entries) :
      Refuses stated entries (.unconnected (height entries).toNat)

theorem height_concat (entries : List Entry) (e : Entry) :
    height (entries ++ [e]) = height entries + e.growth := by
  rw [height, List.foldl_append]
  rfl

/-- No entry adds more than one rule. -/
theorem height_le_length (entries : List Entry) : height entries ≤ entries.length := by
  induction entries using List.reverseRecOn with
  | nil => exact Int.le_refl 0
  | append_singleton entries e ih =>
    have h_one : e.growth ≤ 1 := by
      cases e with
      | test c => exact Int.le_refl 1
      | chain op arity => simp only [growth]; omega
    rw [height_concat, List.length_append, List.length_singleton]
    omega

theorem allFit_nil : AllFit [] := fun front e back h => absurd h (by simp)

/-- An entry at the end changes nothing for those before it. -/
theorem forall_split_concat_iff {P : List Entry → Entry → Prop} {entries : List Entry}
    {e : Entry} :
    (∀ front d back, entries ++ [e] = front ++ d :: back → P front d) ↔
      (∀ front d back, entries = front ++ d :: back → P front d) ∧ P entries e := by
  constructor
  · intro h
    refine ⟨fun front d back h_split => ?_, h entries e [] rfl⟩
    exact h front d (back ++ [e]) (by rw [h_split, List.append_assoc, List.cons_append])
  · rintro ⟨h, h_last⟩ front d back h_split
    -- the entry is the last one, or it stands among those before
    rcases List.eq_nil_or_concat back with rfl | ⟨back, last, rfl⟩
    · obtain ⟨rfl, h_eq⟩ := List.append_inj' h_split rfl
      obtain rfl := (List.cons.inj h_eq).1
      exact h_last
    · rw [List.concat_eq_append, ← List.cons_append, ← List.append_assoc] at h_split
      exact h front d back (List.append_inj' h_split rfl).1

theorem allFit_concat_iff {entries : List Entry} {e : Entry} :
    AllFit (entries ++ [e]) ↔ AllFit entries ∧ e.FitsAt (height entries) :=
  forall_split_concat_iff

/-! ### One entry -/

variable {stack stack' : List Rule} {e : Entry} {entries : List Entry}

/-- An entry that fits is taken. -/
theorem push_of_fits (h : e.FitsAt stack.length) : ∃ stack', push stack e = .ok stack' := by
  cases e with
  | test c =>
    refine ⟨.test c :: stack, ?_⟩
    rw [push, checkCondition_eq_ok h]
    rfl
  | chain op arity =>
    obtain ⟨h_two, h_enough⟩ := h
    rw [Int.ofNat_le] at h_enough
    rw [push, joinChain, if_neg (by omega), if_neg (by omega)]
    -- the operands are there, so there is a rule to be made of them
    have h_length : (stack.take arity).reverse.length = arity := by
      rw [List.length_reverse, List.length_take_of_le h_enough]
    cases h_operands : (stack.take arity).reverse with
    | nil =>
      rw [h_operands, List.length_nil] at h_length
      omega
    | cons first others => exact ⟨_, rfl⟩

/-- **An entry that does not fit is the error**, with the fault that the height tells. -/
theorem push_of_not_fits (h : ¬e.FitsAt stack.length) :
    push stack e = .error (e.faultAt stack.length) := by
  cases e with
  | test c =>
    rw [push, checkCondition_eq_error h]
    rfl
  | chain op arity =>
    rw [FitsAt, Int.ofNat_le, not_and_or, Nat.not_le, Nat.not_le] at h
    rw [push, joinChain, faultAt, Int.toNat_natCast]
    -- a chain of less than two operands is refused first, however high the stack is
    by_cases h_two : arity < 2
    · rw [if_pos h_two, if_pos h_two]
    · rw [if_neg h_two, if_neg h_two, if_pos (h.resolve_left h_two)]

theorem push_eq_ok_iff : (∃ stack', push stack e = .ok stack') ↔ e.FitsAt stack.length := by
  constructor
  · rintro ⟨stack', h⟩
    refine Classical.byContradiction fun h_bad => ?_
    exact absurd (h.symm.trans (push_of_not_fits h_bad)) (by simp)
  · exact push_of_fits

/-- The stack grows as the entry says. -/
theorem length_of_push (h : push stack e = .ok stack') :
    (stack'.length : Int) = stack.length + e.growth := by
  rcases push_cases h with ⟨c, rfl, -, rfl⟩ | ⟨op, first, others, rest, -, rfl, rfl, rfl⟩
  · rfl
  · simp only [growth, List.length_cons, List.length_append, List.length_reverse]
    omega

/-- The stack gets the joints that the entry makes. -/
theorem joints_of_push (h : push stack e = .ok stack') :
    (stack'.map Rule.operatorCount).sum = (stack.map Rule.operatorCount).sum + e.joints := by
  rcases push_cases h with ⟨c, rfl, -, rfl⟩ | ⟨op, first, others, rest, -, rfl, rfl, rfl⟩
  · rw [List.map_cons, List.sum_cons, Rule.operatorCount_test, joints, Nat.zero_add, Nat.add_zero]
  · have h_others : (others.reverse.map Rule.operatorCount).sum
        = (others.map Rule.operatorCount).sum := by
      rw [List.map_reverse, List.sum_reverse]
    rw [List.map_cons, List.sum_cons, Rule.operatorCount_foldl_join, List.map_append,
      List.sum_append, h_others, List.map_cons, List.sum_cons, joints]
    omega

/-! ### Runs -/

/-- A run ends with its last entry. -/
theorem run_concat_iff :
    (entries ++ [e]).foldlM push stack = .ok stack' ↔
      ∃ stack₁, entries.foldlM push stack = .ok stack₁ ∧ push stack₁ e = .ok stack' := by
  rw [List.foldlM_append]
  constructor
  · intro h
    -- the run over the last entry alone is one push
    obtain ⟨stack₁, h_run, h_last⟩ := exists_of_bind_eq_ok h
    rw [List.foldlM_cons] at h_last
    obtain ⟨stack₂, h_push, h_end⟩ := exists_of_bind_eq_ok h_last
    obtain rfl := Except.ok.inj h_end
    exact ⟨stack₁, h_run, h_push⟩
  · rintro ⟨stack₁, h_run, h_push⟩
    rw [h_run, ok_bind, List.foldlM_cons, h_push]
    rfl

/-- **The stack is as high as its entries say**, if none of them was refused. -/
theorem length_of_run (h : entries.foldlM push stack = .ok stack') :
    (stack'.length : Int) = stack.length + height entries := by
  -- on the last entry, where the height changes
  induction entries using List.reverseRecOn generalizing stack' with
  | nil =>
    obtain rfl := Except.ok.inj h
    exact (Int.add_zero _).symm
  | append_singleton entries e ih =>
    obtain ⟨stack₁, h_run, h_push⟩ := run_concat_iff.mp h
    calc (stack'.length : Int)
        = stack₁.length + e.growth := length_of_push h_push
      _ = stack.length + height entries + e.growth := by rw [ih h_run]
      _ = stack.length + height (entries ++ [e]) := by rw [height_concat, Int.add_assoc]

theorem joints_of_run (h : entries.foldlM push stack = .ok stack') :
    (stack'.map Rule.operatorCount).sum
      = (stack.map Rule.operatorCount).sum + (entries.map joints).sum := by
  induction entries generalizing stack with
  | nil =>
    obtain rfl := Except.ok.inj h
    rfl
  | cons e entries ih =>
    rw [List.foldlM_cons] at h
    obtain ⟨stack₁, h_push, h_run⟩ := exists_of_bind_eq_ok h
    -- what is still to come by induction, and what the first entry made
    calc (stack'.map Rule.operatorCount).sum
        = (stack₁.map Rule.operatorCount).sum + (entries.map joints).sum := ih h_run
      _ = (stack.map Rule.operatorCount).sum + e.joints + (entries.map joints).sum := by
        rw [joints_of_push h_push]
      _ = (stack.map Rule.operatorCount).sum + ((e :: entries).map joints).sum := by
        rw [List.map_cons, List.sum_cons, Nat.add_assoc]

/-- The height of entries that were taken, with nothing below them. -/
theorem length_eq_height (h : entries.foldlM push [] = .ok stack) :
    (stack.length : Int) = height entries := by
  rw [length_of_run h, List.length_nil, Int.natCast_zero, Int.zero_add]

/-- **Entries are taken exactly if each of them fits where it stands.** -/
theorem exists_run_iff : (∃ stack, entries.foldlM push [] = .ok stack) ↔ AllFit entries := by
  -- on the last entry, as the height is that of the entries before
  induction entries using List.reverseRecOn with
  | nil => exact ⟨fun _ => allFit_nil, fun _ => ⟨[], rfl⟩⟩
  | append_singleton entries e ih =>
    rw [allFit_concat_iff, ← ih]
    simp only [run_concat_iff]
    constructor
    · rintro ⟨stack', stack, h_run, h_push⟩
      exact ⟨⟨stack, h_run⟩, length_eq_height h_run ▸ push_eq_ok_iff.mp ⟨stack', h_push⟩⟩
    · rintro ⟨⟨stack, h_run⟩, h_fits⟩
      rw [← length_eq_height h_run] at h_fits
      obtain ⟨stack', h_push⟩ := push_of_fits h_fits
      exact ⟨stack', stack, h_run, h_push⟩

/-- The run stops at the first entry that does not fit. -/
theorem run_of_not_fits {front back : List Entry} (h_front : AllFit front)
    (h_bad : ¬e.FitsAt (height front)) :
    (front ++ e :: back).foldlM push [] = .error (e.faultAt (height front)) := by
  obtain ⟨stack, h_run⟩ := exists_run_iff.mpr h_front
  rw [← length_eq_height h_run] at h_bad ⊢
  rw [List.foldlM_append, h_run, ok_bind, List.foldlM_cons, push_of_not_fits h_bad, error_bind]

/-- If not all entries fit, there is a first one that does not. -/
theorem allFit_or_exists_first (entries : List Entry) :
    AllFit entries ∨ ∃ front e back, entries = front ++ e :: back ∧ AllFit front ∧
      ¬e.FitsAt (height front) := by
  -- from the end, as whether an entry fits depends on all that are in front of it
  induction entries using List.reverseRecOn with
  | nil => exact .inl allFit_nil
  | append_singleton entries e ih =>
    rcases ih with h_fit | ⟨front, d, back, rfl, h_front, h_bad⟩
    · by_cases h_last : e.FitsAt (height entries)
      · exact .inl (allFit_concat_iff.mpr ⟨h_fit, h_last⟩)
      · exact .inr ⟨entries, e, [], rfl, h_fit, h_last⟩
    · exact .inr ⟨front, d, back ++ [e], by rw [List.append_assoc, List.cons_append], h_front,
        h_bad⟩

/-- Where a rule was put on the stack, one is left: a chain takes none off without putting one
back. -/
theorem one_le_height (h : AllFit entries) (h_ne : entries ≠ []) : 1 ≤ height entries := by
  rcases List.eq_nil_or_concat entries with rfl | ⟨front, e, rfl⟩
  · exact absurd rfl h_ne
  · rw [List.concat_eq_append] at h ⊢
    obtain ⟨h_front, h_fits⟩ := allFit_concat_iff.mp h
    obtain ⟨stack, h_run⟩ := exists_run_iff.mpr h_front
    have h_height := length_eq_height h_run
    rw [height_concat]
    cases e with
    | test c =>
      rw [growth]
      omega
    | chain op arity =>
      -- at least the operands were on the stack, and the chain takes off one less
      obtain ⟨-, h_enough⟩ := h_fits
      rw [growth]
      omega

/-! ### Rebuilding -/

/-- The rule that is left on the stack, if it is the only one. -/
def soleRule : List Rule → Except Fault Rule
  | [] => .error .noEntries
  | [r] => .ok r
  | stack => .error (.unconnected stack.length)

/-- Once all entries were taken, their conditions are counted first. -/
theorem rebuild_of_count_ne {stated : Nat} (h : entries.foldlM push [] = .ok stack)
    (h_count : (entries.filterMap condition?).length ≠ stated) :
    rebuild stated entries
      = .error (.countMismatch stated (entries.filterMap condition?).length) := by
  rw [← countP_isTest] at h_count ⊢
  rw [rebuild, h, ok_bind]
  exact if_pos h_count

/-- If their number is right, the rule is what is left on the stack. -/
theorem rebuild_of_count_eq {stated : Nat} (h : entries.foldlM push [] = .ok stack)
    (h_count : (entries.filterMap condition?).length = stated) :
    rebuild stated entries = soleRule stack := by
  rw [← countP_isTest] at h_count
  rw [rebuild, h, ok_bind]
  refine (if_neg (not_not_intro h_count)).trans ?_
  match stack with
  | [] => rfl
  | [r] => rfl
  | r :: s :: rest => rfl

/-- A list that is refused has that fault. -/
theorem rebuild_of_refuses {stated : Nat} {fault : Fault} (h : Refuses stated entries fault) :
    rebuild stated entries = .error fault := by
  cases h with
  | entry h_front h_bad => rw [rebuild, run_of_not_fits h_front h_bad, error_bind]
  | count h h_count =>
    obtain ⟨stack, h_run⟩ := exists_run_iff.mpr h
    exact rebuild_of_count_ne h_run h_count
  | nothing h_count =>
    subst h_count
    rfl
  | unconnected h h_count h_height =>
    obtain ⟨stack, h_run⟩ := exists_run_iff.mpr h
    have h_length := length_eq_height h_run
    rw [rebuild_of_count_eq h_run h_count, ← h_length, Int.toNat_natCast]
    rw [← h_length] at h_height
    -- the stack has two rules or more
    match stack, h_height with
    | [], h_two => exact absurd h_two (by simp)
    | [r], h_two => exact absurd h_two (by simp)
    | r :: s :: rest, _ => rfl

/-- A list that is not refused has one rule. -/
theorem exists_rebuild {stated : Nat} (h : AllFit entries) (h_height : height entries = 1)
    (h_count : (entries.filterMap condition?).length = stated) :
    ∃ r, rebuild stated entries = .ok r := by
  obtain ⟨stack, h_run⟩ := exists_run_iff.mpr h
  have h_length := length_eq_height h_run
  rw [h_height] at h_length
  obtain ⟨r, rfl⟩ := List.length_eq_one_iff.mp (Int.ofNat.inj h_length)
  exact ⟨r, rebuild_of_count_eq h_run h_count⟩

/-- Every list of entries makes a rule, or it is refused. -/
theorem rebuilds_or_refuses (stated : Nat) (entries : List Entry) :
    (AllFit entries ∧ height entries = 1 ∧ (entries.filterMap condition?).length = stated) ∨
      ∃ fault, Refuses stated entries fault := by
  -- the checks in their order: each entry, then the count, then what is left on the stack
  rcases allFit_or_exists_first entries with h_fit | ⟨front, e, back, rfl, h_front, h_bad⟩
  · by_cases h_count : (entries.filterMap condition?).length = stated
    · by_cases h_one : height entries = 1
      · exact .inl ⟨h_fit, h_one, h_count⟩
      · by_cases h_nil : entries = []
        · subst h_nil
          exact .inr ⟨_, .nothing h_count⟩
        · have h_pos := one_le_height h_fit h_nil
          exact .inr ⟨_, .unconnected h_fit h_count (by omega)⟩
    · exact .inr ⟨_, .count h_fit h_count⟩
  · exact .inr ⟨_, .entry h_front h_bad⟩

/-- The number of operands of a chain that was joined, as a word of 64 bits: subtracting it from the
height of the stack does not wrap around. -/
theorem sub_arity {op : Connective} {arity : UInt64} (h_small : stack.length < 2 ^ 64)
    (h : push stack (chain op arity.toNat) = .ok stack') :
    arity ≤ UInt64.ofNat stack.length ∧
      stack'.length = (UInt64.ofNat stack.length - arity).toNat + 1 := by
  obtain ⟨-, h_enough⟩ := push_eq_ok_iff.mp ⟨stack', h⟩
  have h_length := length_of_push h
  have h_word : (UInt64.ofNat stack.length).toNat = stack.length := UInt64.toNat_ofNat_of_lt' h_small
  -- the chain was accepted, so it takes no more than there is
  have h_le : arity ≤ UInt64.ofNat stack.length := by
    rw [UInt64.le_iff_toNat_le, h_word]
    exact Int.ofNat_le.mp h_enough
  refine ⟨h_le, ?_⟩
  rw [UInt64.toNat_sub_of_le _ _ h_le, h_word]
  rw [growth] at h_length
  omega

/-- **Which lists of entries make a rule.** Exactly those of which every entry fits at the height
before it, with a height of one at the end and the stated number of conditions. The rule has these
conditions, in order, and the joints that the chains say. Every other list is refused for the first
of the reasons that it gives, and no chain is ever cut off below the bottom of the stack. -/
theorem rebuild_by_height (stated : Nat) (entries : List Entry) :
    ((∃ r, rebuild stated entries = .ok r) ↔
      AllFit entries ∧ height entries = 1 ∧ (entries.filterMap condition?).length = stated) ∧
    (∀ r, rebuild stated entries = .ok r →
      r.leafCount = stated ∧ r.conditions = entries.filterMap condition? ∧
        r.operatorCount = (entries.map joints).sum) ∧
    (∀ fault, rebuild stated entries = .error fault ↔ Refuses stated entries fault) ∧
    ∀ (front back : List Entry) (op : Connective) (arity : UInt64) (stack stack' : List Rule),
      entries = front ++ chain op arity.toNat :: back → entries.length < 2 ^ 64 →
      front.foldlM push [] = .ok stack → push stack (chain op arity.toNat) = .ok stack' →
      (stack.length : Int) = height front ∧ arity ≤ UInt64.ofNat stack.length ∧
        stack'.length = (UInt64.ofNat stack.length - arity).toNat + 1 := by
  -- what is refused is not accepted, so the two directions only need one case split
  have h_refused {fault : Fault} (h : Refuses stated entries fault) (r : Rule) :
      rebuild stated entries ≠ .ok r := by
    rw [rebuild_of_refuses h]
    simp
  refine ⟨⟨?_, fun ⟨h, h_height, h_count⟩ => exists_rebuild h h_height h_count⟩, fun r h => ?_,
    fun fault => ⟨fun h => ?_, rebuild_of_refuses⟩, ?_⟩
  · rintro ⟨r, h⟩
    rcases rebuilds_or_refuses stated entries with h_fit | ⟨fault, h_fault⟩
    · exact h_fit
    · exact absurd h (h_refused h_fault r)
  · -- counts of the result: nothing was on the stack before the run, and one rule is after it
    have h_leaves := leaves_of_rebuild h
    obtain ⟨h_run, h_count⟩ := run_of_rebuild h
    have h_joints := joints_of_run h_run
    rw [countP_isTest] at h_count
    refine ⟨?_, ?_, ?_⟩
    · rw [Rule.leafCount_eq_length_leaves, h_leaves, h_count]
    · rw [Rule.conditions_eq_leaves, h_leaves]
    · rwa [List.map_singleton, List.sum_singleton, List.map_nil, List.sum_nil, Nat.zero_add]
        at h_joints
  · rcases rebuilds_or_refuses stated entries with ⟨h_fit, h_height, h_count⟩ | ⟨fault', h_fault⟩
    · obtain ⟨r, h_ok⟩ := exists_rebuild h_fit h_height h_count
      exact absurd (h.symm.trans h_ok) (by simp)
    · obtain rfl := Except.error.inj (h.symm.trans (rebuild_of_refuses h_fault))
      exact h_fault
  · rintro front back op arity stack stack' rfl h_small h_run h_push
    have h_height := length_eq_height h_run
    have h_le := height_le_length front
    -- the stack is no higher than the entries are many, so its height fits the word
    rw [List.length_append] at h_small
    exact ⟨h_height, sub_arity (by omega) h_push⟩

/-- A chain of two operands that are there, one of them a chain itself; and in its place one with as
many operands as a word can say. -/
theorem rebuild_by_height_wide :
    let c : Condition := ⟨"a", .equal, .int 1⟩
    let front : List Entry := [test c, test c, chain .and 2, test c]
    let r : Rule := .join .or (.join .and (.test c) (.test c)) (.test c)
    let wide : UInt64 := 18446744073709551615
    rebuild 3 (front ++ [chain .or 2]) = .ok r ∧
      (r.leafCount = 3 ∧ r.conditions = [c, c, c] ∧ r.operatorCount = 2) ∧
      ((2 : Int) = height front ∧ 1 = (UInt64.ofNat 2 - 2).toNat + 1) ∧
      rebuild 3 (front ++ [chain .or wide.toNat]) = .error (.operandsMissing wide.toNat 2) := by
  intro c front r wide
  have h_ok : rebuild 3 (front ++ [chain .or 2]) = .ok r := rfl
  obtain ⟨h_some, h_rule, -, h_cut⟩ := rebuild_by_height 3 (front ++ [chain .or 2])
  have h_front : AllFit front := (allFit_concat_iff.mp (h_some.mp ⟨r, h_ok⟩).1).1
  -- one below zero in 64 bits is more than any stack has
  have h_bad : ¬(chain .or wide.toNat).FitsAt (height front) := fun h => absurd h.2 (by decide)
  obtain ⟨h_height, -, h_length⟩ := h_cut front [] .or 2
    [.test c, .join .and (.test c) (.test c)] [r] rfl (by decide) rfl rfl
  refine ⟨h_ok, h_rule r h_ok, ⟨h_height, h_length⟩, ?_⟩
  exact ((rebuild_by_height 3 (front ++ [chain .or wide.toNat])).2.2.1 _).mpr
    (.entry h_front h_bad)

end Entry

end Eligibility
