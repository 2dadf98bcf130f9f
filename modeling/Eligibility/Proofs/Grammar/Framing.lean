import Eligibility.Proofs.Grammar.Fault
import Mathlib.Control.Monad.Basic
import Mathlib.Data.List.Pairwise

/-!
# What the open groups own

The machine keeps all its levels on two stacks, and the frames say where each of them begins. Of the
stacks a level owns what lies between its own frame and the next. `Machine.WellFramed` says how much
that is: nothing, one rule, or one rule and the keyword behind it. A rule alone is owned by the
innermost level only, and by that exactly if no operand is awaited.

The invariant is about heights of stacks and nothing else, and it is all that is needed: the stacks of
a machine that has it are those of levels (`Machine.WellFramed.levels`), and on levels all handlers
have been computed. So it is kept by every token that is taken (`Machine.safe_takeToken`), whatever
the tokens before were.

Some errors of the machine are there only to guard the stacks (`ParseError.IsDefensive`). Under the
invariant no handler comes to one of them. Both are said at once by `Safe`: a result has a property,
or it is an error of another kind.
-/

namespace Eligibility

/-- **The errors that guard the stacks**: a keyword without both its operands, a group and a text that
leave more than one rule, and a parenthesis among the fields of a condition. -/
inductive ParseError.IsDefensive : ParseError → Prop
  | operandMissing (offset : Nat) : IsDefensive (.unbalancedGrouping offset .operandMissing)
  | groupNotSingle (offset : Nat) : IsDefensive (.unbalancedGrouping offset .groupNotSingle)
  | ruleNotSingle (offset : Nat) : IsDefensive (.unbalancedGrouping offset .ruleNotSingle)
  | missingValue (condition : String) : IsDefensive (.malformedCondition condition .missingValue)

/-- The result has the property, or it is an error that does not guard the stacks. -/
def Safe {α : Type} (P : α → Prop) : Except ParseError α → Prop
  | .ok a => P a
  | .error e => ¬e.IsDefensive

namespace Safe

variable {α β : Type} {P : α → Prop} {Q : β → Prop} {x : Except ParseError α} {a : α}
  {e : ParseError}

theorem of_eq_ok (h : Safe P x) (h_ok : x = .ok a) : P a := by
  rw [h_ok] at h
  exact h

theorem of_eq_error (h : Safe P x) (h_err : x = .error e) : ¬e.IsDefensive := by
  rw [h_err] at h
  exact h

/-- Safe steps make a safe sequence. -/
theorem bind {f : α → Except ParseError β} (h : Safe P x) (h_next : ∀ a, P a → Safe Q (f a)) :
    Safe Q (x >>= f) := by
  cases x with
  | error e => exact h
  | ok a => exact h_next a h

theorem grouping {offset : Nat} {fault : GroupingFault} (h_operand : fault ≠ .operandMissing)
    (h_group : fault ≠ .groupNotSingle) (h_rule : fault ≠ .ruleNotSingle) :
    Safe P (.error (.unbalancedGrouping offset fault)) := by
  intro h
  cases h with
  | operandMissing => exact h_operand rfl
  | groupNotSingle => exact h_group rfl
  | ruleNotSingle => exact h_rule rfl

theorem malformed {condition : String} {fault : ConditionFault} (h : fault ≠ .missingValue) :
    Safe P (.error (.malformedCondition condition fault)) := by
  intro h_defensive
  cases h_defensive with
  | missingValue => exact h rfl

theorem operator (operator : String) (offset : Nat) :
    Safe P (.error (.unsupportedOperator operator offset)) := by
  intro h
  cases h

theorem nesting (limit : Nat) : Safe P (.error (.nestingTooDeep limit)) := by
  intro h
  cases h

theorem unterminated (offset : Nat) : Safe P (.error (.unterminatedString offset)) := by
  intro h
  cases h

end Safe

namespace Machine

variable {limits : Limits} {m m' : Machine} {t : Token} {ts : List Token} {outer : List Level}
  {r : Rule}

/-! ### The invariant -/

/-- What the levels own of stacks with so many rules and keywords, innermost level first. -/
def sharesOf (rules keywords : Nat) : List Frame → List (Nat × Nat)
  | [] => [(rules, keywords)]
  | f :: frames =>
    (rules - f.rulesBefore, keywords - f.keywordsBefore)
      :: sharesOf f.rulesBefore f.keywordsBefore frames

/-- What the levels own, innermost level first: so many rules and so many keywords. -/
def shares (m : Machine) : List (Nat × Nat) :=
  sharesOf m.rules.length m.keywords.length m.frames

/-- **The invariant of the stacks.** -/
structure WellFramed (m : Machine) : Prop where
  /-- The frames lie within the stacks, and none begins below the one around it. -/
  rules_sorted : (m.rules.length :: m.frames.map (·.rulesBefore)).Pairwise (· ≥ ·)
  keywords_sorted : (m.keywords.length :: m.frames.map (·.keywordsBefore)).Pairwise (· ≥ ·)
  /-- A level owns nothing, one rule, or one rule and the keyword behind it. -/
  share : ∀ s ∈ m.shares, s = (0, 0) ∨ s = (1, 0) ∨ s = (1, 1)
  /-- The innermost level has come to a single rule exactly if no operand is awaited. -/
  innermost : m.shares.head? = some (1, 0) ↔ m.awaitsOperand = false
  /-- A level around an open group waits for it. -/
  enclosing : ∀ s ∈ m.shares.tail, s ≠ (1, 0)
  /-- Fields are kept only while an operand is awaited. -/
  awaits_of_fields : m.fields ≠ [] → m.awaitsOperand
  /-- They are neither parentheses nor keywords. -/
  isField : ∀ t ∈ m.fields, t.isField

/-! ### Levels are well framed -/

/-- The frames of levels cut the stacks where the levels meet. -/
theorem sharesOf_framesOf (outer : List Level) (rules keywords : Nat) :
    sharesOf (rules + (rulesOf outer).length) (keywords + (keywordsOf outer).length)
        (framesOf outer)
      = (rules, keywords)
        :: outer.map fun l => (l.waiting.rules.length, l.waiting.keywords.length) := by
  induction outer generalizing rules keywords with
  | nil => rfl
  | cons l outer ih =>
    -- below the frame of the level stand its own share and the levels around it
    have h_rules : (rulesOf (l :: outer)).length
        = l.waiting.rules.length + (rulesOf outer).length := by
      rw [rulesOf, List.flatMap_cons, List.length_append]
      rfl
    have h_keywords : (keywordsOf (l :: outer)).length
        = l.waiting.keywords.length + (keywordsOf outer).length := by
      rw [keywordsOf, List.flatMap_cons, List.length_append]
      rfl
    rw [framesOf, sharesOf, Nat.add_sub_cancel, Nat.add_sub_cancel, List.map_cons, h_rules,
      h_keywords, ih]

/-- They lie within stacks that hold the levels, one above the other. -/
theorem framesOf_sorted (outer : List Level) {rules keywords : Nat}
    (h_rules : (rulesOf outer).length ≤ rules) (h_keywords : (keywordsOf outer).length ≤ keywords) :
    (rules :: (framesOf outer).map (·.rulesBefore)).Pairwise (· ≥ ·) ∧
      (keywords :: (framesOf outer).map (·.keywordsBefore)).Pairwise (· ≥ ·) := by
  -- from the innermost level outwards: each level stands on all that is in those around it
  induction outer generalizing rules keywords with
  | nil => exact ⟨List.pairwise_singleton _ _, List.pairwise_singleton _ _⟩
  | cons l outer ih =>
    have h_rules' : (rulesOf outer).length ≤ (rulesOf (l :: outer)).length := by
      rw [rulesOf, rulesOf, List.flatMap_cons, List.length_append]
      omega
    have h_keywords' : (keywordsOf outer).length ≤ (keywordsOf (l :: outer)).length := by
      rw [keywordsOf, keywordsOf, List.flatMap_cons, List.length_append]
      omega
    obtain ⟨h_below, h_below'⟩ := ih h_rules' h_keywords'
    rw [framesOf, List.map_cons, List.map_cons]
    exact ⟨List.pairwise_cons_cons_iff_of_trans.mpr ⟨h_rules, h_below⟩,
      List.pairwise_cons_cons_iff_of_trans.mpr ⟨h_keywords, h_below'⟩⟩

theorem Waiting.share_cases (w : Waiting) :
    (w.rules.length, w.keywords.length) = (0, 0) ∨
      (w.rules.length, w.keywords.length) = (1, 1) := by
  cases w with
  | none => exact .inl rfl
  | some p => exact .inr rfl

/-- What waits in the levels around is never a rule alone. -/
theorem share_of_mem_map {s : Nat × Nat}
    (h : s ∈ outer.map fun l => (l.waiting.rules.length, l.waiting.keywords.length)) :
    s = (0, 0) ∨ s = (1, 1) := by
  obtain ⟨l, -, rfl⟩ := List.mem_map.mp h
  exact l.waiting.share_cases

theorem wellFramed_awaiting (outer : List Level) (w : Waiting) {fields : List Token}
    (h : ∀ t ∈ fields, t.isField) : (awaiting outer w fields).WellFramed := by
  have h_shares : (awaiting outer w fields).shares = (w.rules.length, w.keywords.length)
      :: outer.map fun l => (l.waiting.rules.length, l.waiting.keywords.length) := by
    rw [shares, awaiting, List.length_append, List.length_append]
    exact sharesOf_framesOf outer _ _
  have h_rules_le : (rulesOf outer).length ≤ (w.rules ++ rulesOf outer).length := by simp
  have h_keywords_le : (keywordsOf outer).length ≤ (w.keywords ++ keywordsOf outer).length := by
    simp
  obtain ⟨h_rules, h_keywords⟩ := framesOf_sorted outer h_rules_le h_keywords_le
  refine ⟨h_rules, h_keywords, ?_, ?_, ?_, fun _ => rfl, h⟩
  · rw [h_shares]
    intro s hs
    rcases List.mem_cons.mp hs with rfl | hs
    · exact w.share_cases.imp id .inr
    · exact (share_of_mem_map hs).imp id .inr
  · rw [h_shares, List.head?_cons]
    -- an operand is awaited, and what waits for it is not a rule alone
    refine iff_of_false (fun h_head => ?_) (by simp [awaiting])
    rcases w.share_cases with h_share | h_share
    · rw [h_share] at h_head
      exact absurd h_head (by simp)
    · rw [h_share] at h_head
      exact absurd h_head (by simp)
  · rw [h_shares]
    intro s hs
    rcases share_of_mem_map hs with rfl | rfl
    · decide
    · decide

theorem wellFramed_complete (outer : List Level) (r : Rule) : (complete outer r).WellFramed := by
  -- the innermost level has one rule and no keyword; those around it have both or neither
  have h_shares : (complete outer r).shares = (1, 0)
      :: outer.map fun l => (l.waiting.rules.length, l.waiting.keywords.length) := by
    rw [← sharesOf_framesOf outer 1 0, Nat.add_comm, Nat.zero_add]
    rfl
  have h_rules_le : (rulesOf outer).length ≤ (r :: rulesOf outer).length := by simp
  obtain ⟨h_rules, h_keywords⟩ := framesOf_sorted outer h_rules_le
    (Nat.le_refl (keywordsOf outer).length)
  refine ⟨h_rules, h_keywords, ?_, ?_, ?_, fun h => absurd rfl h, List.forall_mem_nil _⟩
  · rw [h_shares]
    intro s hs
    rcases List.mem_cons.mp hs with rfl | hs
    · exact .inr (.inl rfl)
    · exact (share_of_mem_map hs).imp id .inr
  · rw [h_shares]
    exact iff_of_true rfl rfl
  · rw [h_shares]
    intro s hs
    rcases share_of_mem_map hs with rfl | rfl
    · decide
    · decide

/-! ### What is well framed are levels -/

/-- Stacks of heights that a level may have while it waits are those of a level. -/
theorem exists_waiting {rules : List Rule} {keywords : List Connective}
    (h : (rules.length, keywords.length) = (0, 0) ∨ (rules.length, keywords.length) = (1, 1)) :
    ∃ w : Waiting, rules = w.rules ∧ keywords = w.keywords := by
  rcases h with h | h
  · obtain ⟨h_rules, h_keywords⟩ := Prod.mk.inj h
    exact ⟨none, List.length_eq_zero_iff.mp h_rules, List.length_eq_zero_iff.mp h_keywords⟩
  · obtain ⟨h_rules, h_keywords⟩ := Prod.mk.inj h
    obtain ⟨r, rfl⟩ := List.length_eq_one_iff.mp h_rules
    obtain ⟨op, rfl⟩ := List.length_eq_one_iff.mp h_keywords
    exact ⟨some (r, op), rfl, rfl⟩

/-- Below the innermost level, frames whose levels all wait are the frames of levels. -/
theorem exists_outer (rules : List Rule) (keywords : List Connective) (frames : List Frame)
    (h_rules : (rules.length :: frames.map (·.rulesBefore)).Pairwise (· ≥ ·))
    (h_keywords : (keywords.length :: frames.map (·.keywordsBefore)).Pairwise (· ≥ ·))
    (h_shares : ∀ s ∈ (sharesOf rules.length keywords.length frames).tail,
      s = (0, 0) ∨ s = (1, 1)) :
    ∃ outer own ownKeywords, rules = own ++ rulesOf outer ∧
      keywords = ownKeywords ++ keywordsOf outer ∧ frames = framesOf outer := by
  -- from the innermost frame outwards: it cuts its level off the stacks that are left
  induction frames generalizing rules keywords with
  | nil => exact ⟨[], rules, keywords, (List.append_nil _).symm, (List.append_nil _).symm, rfl⟩
  | cons f frames ih =>
    rw [List.map_cons, List.pairwise_cons_cons_iff_of_trans] at h_rules h_keywords
    have h_length : (rules.drop (rules.length - f.rulesBefore)).length = f.rulesBefore := by
      rw [List.length_drop, Nat.sub_sub_self h_rules.1]
    have h_length' : (keywords.drop (keywords.length - f.keywordsBefore)).length
        = f.keywordsBefore := by
      rw [List.length_drop, Nat.sub_sub_self h_keywords.1]
    -- what is left below the frame is a level that waits, and the levels around it
    have h_below : ∀ s ∈ sharesOf f.rulesBefore f.keywordsBefore frames,
        s = (0, 0) ∨ s = (1, 1) := h_shares
    obtain ⟨outer, own, ownKeywords, h_own, h_own', rfl⟩ :=
      ih (rules.drop (rules.length - f.rulesBefore))
        (keywords.drop (keywords.length - f.keywordsBefore))
        (by rw [h_length]; exact h_rules.2) (by rw [h_length']; exact h_keywords.2)
        (by rw [h_length, h_length']; exact fun s hs => h_below s (List.mem_of_mem_tail hs))
    have h_base := congrArg List.length h_own
    have h_base' := congrArg List.length h_own'
    rw [h_length, List.length_append] at h_base
    rw [h_length', List.length_append] at h_base'
    rw [h_base, h_base', sharesOf_framesOf] at h_below
    obtain ⟨w, rfl, rfl⟩ := exists_waiting (h_below _ List.mem_cons_self)
    refine ⟨⟨w, f.offset⟩ :: outer, rules.take (rules.length - f.rulesBefore),
      keywords.take (keywords.length - f.keywordsBefore), ?_, ?_, ?_⟩
    · show rules = _ ++ (w.rules ++ rulesOf outer)
      rw [← h_own, List.take_append_drop]
    · show keywords = _ ++ (w.keywords ++ keywordsOf outer)
      rw [← h_own', List.take_append_drop]
    · show f :: framesOf outer
        = ⟨(w.rules ++ rulesOf outer).length, (w.keywords ++ keywordsOf outer).length, f.offset⟩
          :: framesOf outer
      rw [List.length_append, List.length_append, ← h_base, ← h_base']

/-- **The stacks of a well-framed machine are those of levels.** -/
theorem WellFramed.levels (h : m.WellFramed) :
    (∃ outer w fields, (∀ t ∈ fields, t.isField) ∧ m = awaiting outer w fields) ∨
      ∃ outer r, m = complete outer r := by
  -- the frames cut both stacks into shares, and every share around the innermost is one of a level
  obtain ⟨outer, own, ownKeywords, h_rules, h_keywords, h_frames⟩ :=
    exists_outer m.rules m.keywords m.frames h.rules_sorted h.keywords_sorted fun s hs => by
      rcases h.share s (List.mem_of_mem_tail hs) with h_none | h_rule | h_both
      · exact .inl h_none
      · exact absurd h_rule (h.enclosing s hs)
      · exact .inr h_both
  have h_shares : m.shares = (own.length, ownKeywords.length)
      :: outer.map fun l => (l.waiting.rules.length, l.waiting.keywords.length) := by
    rw [shares, h_rules, h_keywords, h_frames, List.length_append, List.length_append,
      sharesOf_framesOf]
  -- what remains is the innermost share, and whether an operand is awaited tells which it is
  have h_own := h.share (own.length, ownKeywords.length) (h_shares ▸ List.mem_cons_self)
  have h_innermost := h.innermost
  rw [h_shares, List.head?_cons, Option.some.injEq] at h_innermost
  obtain ⟨rules, keywords, frames, fields, awaits⟩ := m
  obtain rfl := h_rules
  obtain rfl := h_keywords
  obtain rfl := h_frames
  cases awaits with
  | true =>
    left
    have h_wait : (own.length, ownKeywords.length) = (0, 0) ∨
        (own.length, ownKeywords.length) = (1, 1) := by
      rcases h_own with h_none | h_rule | h_both
      · exact .inl h_none
      · exact absurd (h_innermost.mp h_rule) (by simp)
      · exact .inr h_both
    obtain ⟨w, rfl, rfl⟩ := exists_waiting h_wait
    exact ⟨outer, w, fields, h.isField, rfl⟩
  | false =>
    right
    obtain ⟨h_one, h_zero⟩ := Prod.mk.inj (h_innermost.mpr rfl)
    obtain ⟨r, rfl⟩ := List.length_eq_one_iff.mp h_one
    obtain rfl := List.length_eq_zero_iff.mp h_zero
    -- fields are collected only while an operand is awaited
    have h_fields : fields = [] := by
      by_contra h_ne
      exact absurd (h.awaits_of_fields h_ne) (by simp)
    exact ⟨outer, r, by rw [h_fields]; rfl⟩

/-! ### Finishing an operand -/

/-- **A condition is put on the stack.** The keyword that waits for it, if there is one, finds both
its operands. -/
theorem WellFramed.completeOperand_push (h : m.WellFramed) (h_wait : m.awaitsOperand) (r : Rule)
    (offset : Nat) :
    ∃ m', completeOperand { m with rules := r :: m.rules, fields := [] } offset = .ok m' ∧
      m'.WellFramed := by
  rcases h.levels with ⟨outer, w, fields, -, rfl⟩ | ⟨outer, s, rfl⟩
  · exact ⟨_, Machine.completeOperand_push outer w r true offset, wellFramed_complete outer _⟩
  · exact absurd h_wait (by simp [complete])

/-- **A group is closed.** Its frame is taken away, and the keyword that waits for the group, if there
is one, finds both its operands above the frame around it. -/
theorem WellFramed.completeOperand_close {f : Frame} {frames : List Frame} (h : m.WellFramed)
    (h_wait : m.awaitsOperand = false) (h_frames : m.frames = f :: frames) (offset : Nat) :
    ∃ m', completeOperand { m with frames } offset = .ok m' ∧ m'.WellFramed := by
  rcases h.levels with ⟨outer, w, fields, -, rfl⟩ | ⟨outer, r, rfl⟩
  · exact absurd h_wait (by simp [awaiting])
  · cases outer with
    | nil => exact absurd h_frames (by simp [complete, framesOf])
    | cons l outer =>
      obtain rfl : framesOf outer = frames := (List.cons.inj h_frames).2
      exact ⟨_, Machine.completeOperand_push outer l.waiting r false offset,
        wellFramed_complete outer _⟩

/-! ### The handlers are safe -/

/-- No parenthesis is among the fields, so none stands in the place of a value. -/
theorem safe_valueOf (comparison : Comparison) (h : t.isField) {fault : ConditionFault}
    (h_err : valueOf comparison t = .error fault) : fault ≠ .missingValue := by
  -- a field has a value; a parenthesis would have none, but it is no field
  have h_number (cs : List Char) (s : String) (h_err : numberOrText cs s = .error fault) :
      fault ≠ .missingValue := by
    unfold numberOrText at h_err
    split at h_err
    · exact absurd h_err (by simp)
    · exact Except.error.inj h_err ▸ by simp
    · exact absurd h_err (by simp)
  unfold valueOf at h_err
  split at h_err
  · split at h_err
    · exact h_number _ _ h_err
    · exact absurd h_err (by simp)
  · exact h_number _ _ h_err
  · exact Except.error.inj h_err ▸ by simp
  · next h_open => exact absurd h_open (Token.lexeme_ne_opening_of_isField h)
  · next h_close => exact absurd h_close (Token.lexeme_ne_closing_of_isField h)

theorem safe_readCondition {fields : List Token} (h : ∀ t ∈ fields, t.isField) :
    Safe (fun _ => True) (readCondition fields) := by
  unfold readCondition
  split
  · next subject comparison value =>
    split
    · exact .malformed (by simp)
    · split
      · exact .operator _ _
      · next cmp _ =>
        split
        · next fault h_err =>
          -- the fault is one of the value, or of the value as a number to order by
          refine .malformed ?_
          cases h_value : valueOf cmp value with
          | error fault' =>
            rw [h_value, error_bind] at h_err
            exact Except.error.inj h_err ▸ safe_valueOf cmp (h value (by simp)) h_value
          | ok v =>
            rw [h_value, ok_bind, checkOrdering] at h_err
            split at h_err
            · exact Except.error.inj h_err ▸ by simp
            · exact absurd h_err (by simp)
        · exact trivial
  · exact .malformed (by simp)

/-- The fields become an operand, or they are refused for themselves. -/
theorem safe_completeCondition (h : m.WellFramed) : Safe WellFramed m.completeCondition := by
  rcases h.levels with ⟨outer, w, fields, h_fields, rfl⟩ | ⟨outer, r, rfl⟩
  · by_cases h_nil : fields = []
    · subst h_nil
      exact wellFramed_awaiting outer w (List.forall_mem_nil _)
    · -- the fault of the condition is none of the machine's own
      have h_reverse : ∀ t ∈ fields.reverse, t.isField := fun t ht =>
        h_fields t (List.mem_reverse.mp ht)
      have h_read := safe_readCondition h_reverse
      rw [completeCondition_awaiting h_nil]
      cases h_condition : readCondition fields.reverse with
      | error e =>
        rw [h_condition] at h_read
        exact h_read
      | ok c => exact wellFramed_complete outer _
  · exact wellFramed_complete outer r

/-- After that no fields are left: a level awaits an operand or has come to a single rule. -/
theorem levels_of_completeCondition (h : m.WellFramed) (h_done : m.completeCondition = .ok m') :
    (∃ outer w, m' = awaiting outer w []) ∨ ∃ outer r, m' = complete outer r := by
  rcases h.levels with ⟨outer, w, fields, -, rfl⟩ | ⟨outer, r, rfl⟩
  · rcases completeCondition_cases h_done with ⟨-, rfl⟩ | ⟨c, -, rfl⟩
    · exact .inl ⟨outer, w, rfl⟩
    · exact .inr ⟨outer, _, rfl⟩
  · exact .inr ⟨outer, r, (Except.ok.inj h_done).symm⟩

theorem safe_takeToken_field (h : m.WellFramed) (h_field : t.isField) :
    Safe WellFramed (m.takeToken limits t) := by
  cases h_take : m.takeToken limits t with
  | ok m' =>
    obtain ⟨h_wait, rfl⟩ := eq_of_takeToken_field h_field h_take
    -- one field more, and nothing else is touched
    exact { h with
      awaits_of_fields := fun _ => h_wait
      isField := List.forall_mem_cons.mpr ⟨h_field, h.isField⟩ }
  | error e =>
    rcases error_of_takeToken_field h_field h_take with ⟨-, rfl⟩ | ⟨x, -, rfl⟩
    · exact Safe.grouping (P := WellFramed) (by simp) (by simp) (by simp)
    · exact Safe.operator (P := WellFramed) _ _

theorem safe_takeToken_opening (h : m.WellFramed) (h_open : t.lexeme = .opening) :
    Safe WellFramed (m.takeToken limits t) := by
  cases h_take : m.takeToken limits t with
  | ok m' =>
    obtain ⟨h_fields, h_wait, -, rfl⟩ := eq_of_takeToken_opening h_open h_take
    rcases h.levels with ⟨outer, w, fields, -, rfl⟩ | ⟨outer, r, rfl⟩
    · obtain rfl := h_fields
      exact wellFramed_awaiting (⟨w, t.offset⟩ :: outer) none (List.forall_mem_nil _)
    · exact absurd h_wait (by simp [complete])
  | error e =>
    rcases error_of_takeToken_opening h_open h_take with ⟨-, rfl⟩ | ⟨-, rfl⟩ | rfl
    · exact Safe.grouping (P := WellFramed) (by simp) (by simp) (by simp)
    · exact Safe.grouping (P := WellFramed) (by simp) (by simp) (by simp)
    · exact Safe.nesting (P := WellFramed) _

theorem safe_takeToken_keyword {op : Connective} (h : m.WellFramed) (h_key : t.keyword? = some op) :
    Safe WellFramed (m.takeToken limits t) := by
  have h_condition := safe_completeCondition h
  cases h_done : m.completeCondition with
  | error e =>
    rw [h_done] at h_condition
    rw [takeToken_keyword h_key, takeKeyword, h_done, error_bind]
    exact h_condition
  | ok m₁ =>
    rcases levels_of_completeCondition h h_done with ⟨outer, w, rfl⟩ | ⟨outer, r, rfl⟩
    · rw [takeToken_awaiting_keyword h_key h_done]
      exact .grouping (by simp) (by simp) (by simp)
    · rw [takeToken_complete_keyword h_key h_done]
      exact wellFramed_awaiting outer (some (r, op)) (List.forall_mem_nil _)

theorem safe_takeToken_closing (h : m.WellFramed) (h_close : t.lexeme = .closing) :
    Safe WellFramed (m.takeToken limits t) := by
  have h_condition := safe_completeCondition h
  cases h_done : m.completeCondition with
  | error e =>
    rw [h_done] at h_condition
    rw [takeToken_closing h_close, takeClosing, h_done, error_bind]
    exact h_condition
  | ok m₁ =>
    have h_top (h_frames : m₁.frames = []) : Safe WellFramed (m.takeToken limits t) := by
      rw [takeToken_top_closing h_close h_done h_frames]
      exact .grouping (by simp) (by simp) (by simp)
    rcases levels_of_completeCondition h h_done with ⟨outer, w, rfl⟩ | ⟨outer, r, rfl⟩
    · cases outer with
      | nil => exact h_top rfl
      | cons l outer =>
        -- the group is empty, or its last keyword has no right operand
        rw [takeToken_awaiting_closing h_close h_done]
        split
        · exact .malformed (by simp)
        · exact .grouping (by simp) (by simp) (by simp)
    · cases outer with
      | nil => exact h_top rfl
      | cons l outer =>
        rw [takeToken_complete_closing h_close h_done]
        exact wellFramed_complete outer _

/-- **One token.** It is taken, and the machine is well framed again, or it is refused with an error
that does not guard the stacks. -/
theorem safe_takeToken (h : m.WellFramed) (limits : Limits) (t : Token) :
    Safe WellFramed (m.takeToken limits t) := by
  rcases t.kind with h_field | ⟨op, h_key⟩ | h_open | h_close
  · exact safe_takeToken_field h h_field
  · exact safe_takeToken_keyword h h_key
  · exact safe_takeToken_opening h h_open
  · exact safe_takeToken_closing h h_close

/-- **The end of the text.** -/
theorem safe_finish (h : m.WellFramed) (size : Nat) : Safe (fun _ => True) (m.finish size) := by
  have h_condition := safe_completeCondition h
  cases h_done : m.completeCondition with
  | error e =>
    rw [h_done] at h_condition
    rw [Machine.finish, h_done, error_bind]
    exact h_condition
  | ok m₁ =>
    -- an open group is a fault of the text, whatever is on the stacks
    have h_open {f : Frame} {frames : List Frame} (h_frames : m₁.frames = f :: frames) :
        Safe (fun _ => True) (m.finish size) := by
      rw [finish_of_frames h_done h_frames]
      exact .grouping (by simp) (by simp) (by simp)
    rcases levels_of_completeCondition h h_done with ⟨outer, w, rfl⟩ | ⟨outer, r, rfl⟩
    · cases outer with
      | nil =>
        rw [finish_of_awaiting h_done]
        exact .grouping (by simp) (by simp) (by simp)
      | cons l outer => exact h_open rfl
    · cases outer with
      | nil =>
        rw [finish_of_complete h_done]
        exact trivial
      | cons l outer => exact h_open rfl

/-! ### Runs -/

/-- The machine is well framed before the first token. -/
theorem wellFramed_initial : WellFramed {} :=
  wellFramed_awaiting [] none (List.forall_mem_nil _)

/-- **Runs are safe** from every well-framed machine, whatever the tokens are. -/
theorem safe_run (h : m.WellFramed) (limits : Limits) (ts : List Token) :
    Safe WellFramed (run limits m ts) := by
  induction ts generalizing m with
  | nil => exact h
  | cons t ts ih =>
    rw [run_cons]
    exact (safe_takeToken h limits t).bind fun m' h' => ih h'

end Machine

theorem safe_tokensFrom (offset : Nat) (cs : List Char) (found : List Token) :
    Safe (fun _ => True) (tokensFrom offset cs found) := by
  fun_induction tokensFrom offset cs found with
  | case1 => exact trivial
  | case2 _ _ _ _ _ ih => exact ih
  | case3 => exact .unterminated _
  | case4 _ _ _ _ _ _ _ _ _ _ ih => exact ih

/-- **No tokens are refused for the stacks.** -/
theorem Rule.safe_ofTokens (limits : Limits) (size : Nat) (ts : List Token) :
    Safe (fun _ => True) (Rule.ofTokens limits size ts) := by
  cases ts with
  | nil =>
    intro h
    cases h
  | cons t ts =>
    have h_run := Machine.safe_run Machine.wellFramed_initial limits (t :: ts)
    exact h_run.bind fun m h => Machine.safe_finish h size

/-- **No text is refused for the stacks.** -/
theorem Rule.safe_parse (limits : Limits) (text : String) :
    Safe (fun _ => True) (Rule.parse limits text) :=
  (safe_tokensFrom 0 text.toList []).bind fun ts _ => Rule.safe_ofTokens limits _ ts

/-- **Stacks and frames.** After any tokens that the machine takes, under any limits, it is well
framed, and so it is when the condition under way is finished. A keyword that is applied finds both
its operands, be it for a condition or for a group that is closed. Therefore the errors that guard the
stacks are never returned: not for a next token, not at the end of the text, and not for any text. -/
theorem Machine.wellFramed_run (limits : Limits) :
    (∀ ts m, Machine.run limits {} ts = .ok m →
      m.WellFramed ∧
      (∀ m₁, m.completeCondition = .ok m₁ → m₁.WellFramed) ∧
      (∀ c offset, m.awaitsOperand → ∃ m',
        completeOperand { m with rules := .test c :: m.rules, fields := [] } offset = .ok m' ∧
          m'.WellFramed) ∧
      (∀ m₁ f frames offset, m.completeCondition = .ok m₁ → m₁.awaitsOperand = false →
        m₁.frames = f :: frames → ∃ m',
          completeOperand { m₁ with frames } offset = .ok m' ∧ m'.WellFramed) ∧
      (∀ t e, m.takeToken limits t = .error e → ¬e.IsDefensive) ∧
      ∀ size e, m.finish size = .error e → ¬e.IsDefensive) ∧
    (∀ size ts e, Rule.ofTokens limits size ts = .error e → ¬e.IsDefensive) ∧
    ∀ text e, Rule.parse limits text = .error e → ¬e.IsDefensive := by
  refine ⟨fun ts m h_run => ?_, fun size ts e => (Rule.safe_ofTokens limits size ts).of_eq_error,
    fun text e => (Rule.safe_parse limits text).of_eq_error⟩
  -- all else is about one machine with the invariant
  have h : m.WellFramed := (safe_run wellFramed_initial limits ts).of_eq_ok h_run
  have h_done := safe_completeCondition h
  refine ⟨h, fun m₁ => h_done.of_eq_ok, fun c offset h_wait => ?_,
    fun m₁ f frames offset h_ok h_wait h_frames => ?_,
    fun t e => (safe_takeToken h limits t).of_eq_error,
    fun size e => (safe_finish h size).of_eq_error⟩
  · exact h.completeOperand_push h_wait (.test c) offset
  · exact (h_done.of_eq_ok h_ok).completeOperand_close h_wait h_frames offset

/-- A group behind a keyword, up to its last field. The level around the group owns a rule and a
keyword, and when the condition is finished, the group owns a rule alone. -/
theorem Machine.wellFramed_run_group :
    let token (lexeme : Lexeme) : Token := ⟨lexeme, 0, ""⟩
    let fields (name number : String) := [token (.word name), token (.symbol "="),
      token (.word number)]
    let front := fields "x" "1" ++ [token (.word "AND"), token .opening]
    let x : Rule := .test ⟨"x", .equal, .int 1⟩
    let y : Condition := ⟨"y", .equal, .int 2⟩
    let around : List Level := [⟨some (x, .and), 0⟩]
    let m := awaiting around none (fields "y" "2").reverse
    let m₁ := complete around (.test y)
    let openAgain := ParseError.unbalancedGrouping 0 .openInCondition
    let stillOpen := ParseError.unbalancedGrouping 0 .unmatchedOpen
    let stillOpenThere := ParseError.unbalancedGrouping 10 .unmatchedOpen
    (run ⟨1⟩ {} (front ++ fields "y" "2") = .ok m ∧ m.WellFramed ∧ m.shares = [(0, 0), (1, 1)]) ∧
      (m.completeCondition = .ok m₁ ∧ m₁.WellFramed ∧ m₁.shares = [(1, 0), (1, 1)]) ∧
      (m.awaitsOperand ∧ ∃ m', completeOperand { m with rules := .test y :: m.rules, fields := [] } 0
        = .ok m' ∧ m'.WellFramed) ∧
      (m₁.awaitsOperand = false ∧ m₁.frames = [⟨1, 1, 0⟩] ∧
        ∃ m', completeOperand { m₁ with frames := [] } 0 = .ok m' ∧ m'.WellFramed) ∧
      (m.takeToken ⟨1⟩ (token .opening) = .error openAgain ∧ ¬openAgain.IsDefensive) ∧
      (m.finish 9 = .error stillOpen ∧ ¬stillOpen.IsDefensive) ∧
      (Rule.ofTokens ⟨1⟩ 9 (front ++ fields "y" "2") = .error stillOpen ∧ ¬stillOpen.IsDefensive) ∧
      Rule.parse ⟨1⟩ "x = 1 AND (y = 2" = .error stillOpenThere ∧ ¬stillOpenThere.IsDefensive := by
  intro token fields front x y around m m₁ openAgain stillOpen stillOpenThere
  obtain ⟨h_framed, h_tokens, h_text⟩ := wellFramed_run ⟨1⟩
  -- a group is open behind a keyword, with a condition read in it but not yet pushed
  have h_run : run ⟨1⟩ {} (front ++ fields "y" "2") = .ok m := rfl
  have h_condition : m.completeCondition = .ok m₁ := rfl
  have h_again : m.takeToken ⟨1⟩ (token .opening) = .error openAgain := rfl
  have h_open : m.finish 9 = .error stillOpen := rfl
  have h_refused : Rule.ofTokens ⟨1⟩ 9 (front ++ fields "y" "2") = .error stillOpen := rfl
  have h_parse : Rule.parse ⟨1⟩ "x = 1 AND (y = 2" = .error stillOpenThere := by decide +kernel
  obtain ⟨h, h_done, h_push, h_close, h_take, h_finish⟩ := h_framed _ m h_run
  exact ⟨⟨h_run, h, rfl⟩, ⟨h_condition, h_done m₁ h_condition, rfl⟩, ⟨rfl, h_push y 0 rfl⟩,
    ⟨rfl, rfl, h_close m₁ ⟨1, 1, 0⟩ [] 0 h_condition rfl rfl⟩,
    ⟨h_again, h_take (token .opening) openAgain h_again⟩, ⟨h_open, h_finish 9 stillOpen h_open⟩,
    ⟨h_refused, h_tokens 9 (front ++ fields "y" "2") stillOpen h_refused⟩,
    ⟨h_parse, h_text "x = 1 AND (y = 2" stillOpenThere h_parse⟩⟩

end Eligibility
