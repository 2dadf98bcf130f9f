import Eligibility.Proofs.Grammar.Acceptance
import Eligibility.Proofs.Grammar.Grouping

/-!
# Reading under different limits

A text is read under a limit on how deep its parentheses nest. The limit is looked at in one place
only, where a parenthesis is opened, and only after the other faults of that parenthesis were looked
for. So two runs of the machine under different limits go side by side until one of them runs into
its limit, and there is a threshold: under every limit from it on the text comes to one and the same
result, and under every limit below it the nesting is the error (`Machine.exists_threshold`, and
`Rule.parse_by_limit` for texts).

The threshold is the nesting of the tokens that are read before any other fault is found. A
parenthesis behind such a fault does not count, and neither does the one that is itself at fault.

No other handler of the machine can speak of nesting (`IgnoresLimits`), which is what tells the two
kinds of results apart.
-/

namespace Eligibility

/-- The result is not that a text nests too deep. -/
def IgnoresLimits {α : Type} (x : Except ParseError α) : Prop :=
  ∀ limit, x ≠ .error (.nestingTooDeep limit)

namespace IgnoresLimits

variable {α β : Type} {x : Except ParseError α} {f : α → Except ParseError β}

theorem ok (a : α) : IgnoresLimits (.ok a) := fun limit => by simp

theorem malformed (condition : String) (fault : ConditionFault) :
    IgnoresLimits (.error (.malformedCondition condition fault) : Except ParseError α) :=
  fun limit => by simp

theorem grouping (offset : Nat) (fault : GroupingFault) :
    IgnoresLimits (.error (.unbalancedGrouping offset fault) : Except ParseError α) :=
  fun limit => by simp

theorem operator (operator : String) (offset : Nat) :
    IgnoresLimits (.error (.unsupportedOperator operator offset) : Except ParseError α) :=
  fun limit => by simp

theorem unterminated (offset : Nat) :
    IgnoresLimits (.error (.unterminatedString offset) : Except ParseError α) :=
  fun limit => by simp

/-- Steps that ignore the limits make a sequence that does. -/
theorem bind (h : IgnoresLimits x) (h_next : ∀ a, IgnoresLimits (f a)) :
    IgnoresLimits (x >>= f) := by
  cases x with
  | error e =>
    intro limit h_error
    obtain rfl : e = .nestingTooDeep limit := Except.error.inj h_error
    exact h limit rfl
  | ok a => exact h_next a

end IgnoresLimits

namespace Machine

variable {limits : Limits} {m m' : Machine} {t : Token}

/-! ### Handlers that ignore the limits -/

theorem ignoresLimits_readCondition (fields : List Token) :
    IgnoresLimits (readCondition fields) := by
  unfold readCondition
  split
  · split
    · exact .malformed _ _
    · split
      · exact .operator _ _
      · split
        · exact .malformed _ _
        · exact .ok _
  · exact .malformed _ _

theorem ignoresLimits_applyKeywords (rulesBefore keywordsBefore offset : Nat)
    (keywords : List Connective) (rules : List Rule) :
    IgnoresLimits (applyKeywords rulesBefore keywordsBefore offset keywords rules) := by
  fun_induction applyKeywords rulesBefore keywordsBefore offset keywords rules with
  | case1 => exact .ok _
  | case2 => exact .ok _
  | case3 => exact .grouping _ _
  | case4 _ _ _ _ _ _ _ ih => exact ih
  | case5 => exact .grouping _ _

theorem ignoresLimits_completeOperand (m : Machine) (offset : Nat) :
    IgnoresLimits (m.completeOperand offset) :=
  (ignoresLimits_applyKeywords _ _ _ _ _).bind fun _ => .ok _

theorem ignoresLimits_completeCondition (m : Machine) : IgnoresLimits m.completeCondition := by
  unfold completeCondition
  split
  · exact .ok _
  · exact (ignoresLimits_readCondition _).bind fun c => ignoresLimits_completeOperand _ _

theorem ignoresLimits_takeField (m : Machine) (t : Token) : IgnoresLimits (m.takeField t) := by
  unfold takeField
  split
  · exact .ok _
  · exact .grouping _ _

theorem ignoresLimits_takeKeyword (m : Machine) (op : Connective) (t : Token) :
    IgnoresLimits (m.takeKeyword op t) := by
  refine (ignoresLimits_completeCondition m).bind fun m₁ => ?_
  cases h_wait : m₁.awaitsOperand with
  | true => exact .grouping _ _
  | false => exact .ok _

theorem ignoresLimits_takeClosing (m : Machine) (t : Token) :
    IgnoresLimits (m.takeClosing t) := by
  refine (ignoresLimits_completeCondition m).bind fun m₁ => ?_
  -- no case asks for the limit, as a group is only closed here
  cases h_frames : m₁.frames with
  | nil => exact .grouping _ _
  | cons f frames =>
    cases h_wait : m₁.awaitsOperand with
    | true =>
      simp only [if_true]
      split
      · exact .malformed _ _
      · exact .grouping _ _
    | false =>
      simp only [Bool.false_eq_true, if_false]
      split
      · exact .grouping _ _
      · exact ignoresLimits_completeOperand _ _

theorem ignoresLimits_finish (m : Machine) (size : Nat) : IgnoresLimits (m.finish size) := by
  refine (ignoresLimits_completeCondition m).bind fun m₁ => ?_
  cases h_frames : m₁.frames with
  | cons f frames => exact .grouping _ _
  | nil =>
    cases h_wait : m₁.awaitsOperand with
    | true => exact .grouping _ _
    | false =>
      simp only [Bool.false_eq_true, if_false]
      split
      · exact .ok _
      · exact .grouping _ _

theorem ignoresLimits_tokensFrom (offset : Nat) (cs : List Char) (found : List Token) :
    IgnoresLimits (tokensFrom offset cs found) := by
  fun_induction tokensFrom offset cs found with
  | case1 => exact .ok _
  | case2 _ _ _ _ _ ih => exact ih
  | case3 => exact .unterminated _
  | case4 _ _ _ _ _ _ _ _ _ _ ih => exact ih

/-! ### One token under different limits -/

/-- Only a parenthesis that is opened adds a level. -/
theorem length_frames_le_of_takeToken (h_open : t.lexeme ≠ .opening)
    (h_ok : m.takeToken limits t = .ok m') : m'.frames.length ≤ m.frames.length := by
  rcases t.kind with h_field | ⟨op, h_key⟩ | h_lex | h_close
  · obtain ⟨-, rfl⟩ := eq_of_takeToken_field h_field h_ok
    exact Nat.le_refl _
  · obtain ⟨m₁, h_done, -, rfl⟩ := exists_of_takeToken_keyword h_key h_ok
    rw [frames_of_completeCondition h_done]
  · exact absurd h_lex h_open
  · obtain ⟨m₁, f, frames, h_done, -, h_pop, h_push⟩ := exists_of_takeToken_closing h_close h_ok
    rw [frames_of_completeOperand h_push, ← frames_of_completeCondition h_done, h_pop]
    exact Nat.le_succ _

/-- Other tokens never look at the limits. -/
theorem takeToken_congr (h_open : t.lexeme ≠ .opening) (m : Machine) (limits limits' : Limits) :
    m.takeToken limits t = m.takeToken limits' t := by
  unfold takeToken
  cases h_lex : t.lexeme with
  | opening => exact absurd h_lex h_open
  | _ => rfl

theorem ignoresLimits_takeToken (h_open : t.lexeme ≠ .opening) (limits : Limits) (m : Machine) :
    IgnoresLimits (m.takeToken limits t) := by
  -- of the four kinds of tokens only the opening parenthesis looks at the limit
  rcases t.kind with h_field | ⟨op, h_key⟩ | h_lex | h_close
  · rcases takeToken_isField h_field limits m with h_take | ⟨-, x, -, h_err⟩
    · rw [h_take]
      exact ignoresLimits_takeField m t
    · rw [h_err]
      exact .operator x t.offset
  · rw [takeToken_keyword h_key]
    exact ignoresLimits_takeKeyword m op t
  · exact absurd h_lex h_open
  · rw [takeToken_closing h_close]
    exact ignoresLimits_takeClosing m t

/-- **One token under different limits.** It is refused under all of them, for something else, or it
leads to one state under all limits that leave room for the levels of that state. -/
theorem takeToken_by_limit (m : Machine) (t : Token) :
    (∃ e, IgnoresLimits (.error e : Except ParseError Rule) ∧
      ∀ limits, m.takeToken limits t = .error e) ∨
    ∃ m', ∀ limits, m.frames.length ≤ limits.maxDepth → m.takeToken limits t =
      if m'.frames.length ≤ limits.maxDepth then .ok m'
      else .error (.nestingTooDeep limits.maxDepth) := by
  by_cases h_lex : t.lexeme = .opening
  · -- the faults of the parenthesis itself come before the limit
    by_cases h_fields : m.fields ≠ []
    · exact .inl ⟨_, .grouping t.offset .openInCondition, fun limits => by
        rw [takeToken_opening h_lex, takeOpening, if_pos h_fields]⟩
    by_cases h_wait : !m.awaitsOperand
    · exact .inl ⟨_, .grouping t.offset .openWithoutKeyword, fun limits => by
        rw [takeToken_opening h_lex, takeOpening, if_neg h_fields, if_pos h_wait]⟩
    · refine .inr ⟨{ m with
        frames := ⟨m.rules.length, m.keywords.length, t.offset⟩ :: m.frames }, fun limits _ => ?_⟩
      rw [takeToken_opening h_lex, takeOpening, if_neg h_fields, if_neg h_wait]
      show _ = if m.frames.length + 1 ≤ limits.maxDepth then _ else _
      by_cases h_full : limits.maxDepth ≤ m.frames.length
      · rw [if_pos h_full, if_neg (Nat.not_le_of_lt (Nat.lt_succ_of_le h_full))]
      · rw [if_neg h_full, if_pos (Nat.succ_le_of_lt (Nat.lt_of_not_le h_full))]
  · cases h_take : m.takeToken default t with
    | error e =>
      have h_ignores := ignoresLimits_takeToken h_lex default m
      rw [h_take] at h_ignores
      exact .inl ⟨e, fun limit h => h_ignores limit (by simpa using h),
        fun limits => (takeToken_congr h_lex m limits default).trans h_take⟩
    | ok m' =>
      -- no other token opens a group, so there is room for what is left
      have h_le := length_frames_le_of_takeToken h_lex h_take
      refine .inr ⟨m', fun limits h_room => ?_⟩
      rw [if_pos (Nat.le_trans h_le h_room), takeToken_congr h_lex m limits default, h_take]

/-- The levels of the machine are those of the tokens. -/
theorem deepest_cons_of_takeToken (h_ok : m.takeToken limits t = .ok m') (ts : List Token) :
    deepest m.frames.length (t :: ts)
      = max m.frames.length (deepest m'.frames.length ts) := by
  have h_le := le_deepest m.frames.length ts
  -- the frames of the machine count the open parentheses, token by token
  rcases t.kind with h_field | ⟨op, h_key⟩ | h_open | h_close
  · obtain ⟨-, rfl⟩ := eq_of_takeToken_field h_field h_ok
    rw [deepest_cons_field h_field, Nat.max_eq_right h_le]
  · obtain ⟨m₁, h_done, -, rfl⟩ := exists_of_takeToken_keyword h_key h_ok
    rw [deepest_cons_keyword h_key, frames_of_completeCondition h_done, Nat.max_eq_right h_le]
  · obtain ⟨-, -, -, rfl⟩ := eq_of_takeToken_opening h_open h_ok
    have h_succ := le_deepest (m.frames.length + 1) ts
    rw [deepest_cons_opening h_open, List.length_cons, Nat.max_eq_right (by omega)]
  · obtain ⟨m₁, f, frames, h_done, -, h_pop, h_push⟩ := exists_of_takeToken_closing h_close h_ok
    rw [deepest_cons_closing h_close, frames_of_completeOperand h_push,
      ← frames_of_completeCondition h_done, h_pop, List.length_cons, Nat.add_sub_cancel]

/-! ### Runs -/

/-- The rule that a run comes to, in a text of `size` bytes. -/
def outcome (limits : Limits) (size : Nat) (m : Machine) (ts : List Token) :
    Except ParseError Rule :=
  run limits m ts >>= fun m' => m'.finish size

theorem outcome_cons (limits : Limits) (size : Nat) (m : Machine) (t : Token) (ts : List Token) :
    outcome limits size m (t :: ts)
      = m.takeToken limits t >>= fun m' => outcome limits size m' ts := by
  rw [outcome, run_cons]
  cases m.takeToken limits t <;> rfl

/-- **How far tokens are read** as long as no limit is in the way: `front` is taken, and what comes
behind it, if anything does, starts with a token that has the result for its fault. -/
structure Stops (m : Machine) (front back : List Token) (result : Except ParseError Rule) :
    Prop where
  taken (limits : Limits) (h : deepest m.frames.length front ≤ limits.maxDepth) :
    ∃ m', run limits m front = .ok m'
  fault (t : Token) (rest : List Token) (h_back : back = t :: rest) (limits : Limits)
    (h : deepest m.frames.length front ≤ limits.maxDepth) :
    ∃ e, run limits m (front ++ [t]) = .error e ∧ result = .error e

/-- **The threshold.** Under all limits that the open groups leave room for, the result is the same
from the nesting of what is read on, and below it the nesting is the error. -/
theorem exists_threshold (size : Nat) (m : Machine) (ts : List Token) :
    ∃ front back result, ts = front ++ back ∧ IgnoresLimits result ∧ Stops m front back result ∧
      ∀ limits, m.frames.length ≤ limits.maxDepth → outcome limits size m ts =
        if limits.maxDepth < deepest m.frames.length front then
          .error (.nestingTooDeep limits.maxDepth)
        else result := by
  -- token by token, both runs from the same state
  induction ts generalizing m with
  | nil =>
    refine ⟨[], [], m.finish size, rfl, ignoresLimits_finish m size,
      ⟨fun limits _ => ⟨m, rfl⟩, fun t rest h => absurd h (by simp)⟩, fun limits h_room => ?_⟩
    rw [deepest_nil, if_neg (Nat.not_lt_of_le h_room)]
    rfl
  | cons t ts ih =>
    rcases takeToken_by_limit m t with ⟨e, h_ignores, h_refused⟩ | ⟨m₁, h_limit⟩
    · -- nothing more is read, whatever the limit
      refine ⟨[], t :: ts, .error e, rfl, h_ignores, ⟨fun limits _ => ⟨m, rfl⟩, ?_⟩,
        fun limits h_room => ?_⟩
      · intro t' rest h_back limits _
        obtain rfl := (List.cons.inj h_back).1
        exact ⟨e, by rw [List.nil_append, run_cons, h_refused, error_bind], rfl⟩
      · rw [outcome_cons, h_refused, error_bind, deepest_nil, if_neg (Nat.not_lt_of_le h_room)]
    · have h_taken (limits : Limits) (h_room : m.frames.length ≤ limits.maxDepth)
          (h : m₁.frames.length ≤ limits.maxDepth) : m.takeToken limits t = .ok m₁ := by
        rw [h_limit limits h_room, if_pos h]
      have h_deep (us : List Token) : deepest m.frames.length (t :: us)
          = max m.frames.length (deepest m₁.frames.length us) :=
        deepest_cons_of_takeToken (h_taken ⟨max m.frames.length m₁.frames.length⟩
          (Nat.le_max_left _ _) (Nat.le_max_right _ _)) us
      obtain ⟨front, back, result, rfl, h_result, h_stops, h_eq⟩ := ih m₁
      have h_le := le_deepest m₁.frames.length front
      refine ⟨t :: front, back, result, rfl, h_result, ⟨fun limits h => ?_, ?_⟩,
        fun limits h_room => ?_⟩
      · rw [h_deep, Nat.max_le] at h
        rw [run_cons, h_taken limits h.1 (Nat.le_trans h_le h.2), ok_bind]
        exact h_stops.taken limits h.2
      · intro t' rest h_back limits h
        rw [h_deep, Nat.max_le] at h
        rw [List.cons_append, run_cons, h_taken limits h.1 (Nat.le_trans h_le h.2), ok_bind]
        exact h_stops.fault t' rest h_back limits h.2
      · rw [outcome_cons, h_limit limits h_room, h_deep]
        by_cases h_fits : m₁.frames.length ≤ limits.maxDepth
        · rw [if_pos h_fits, ok_bind, h_eq limits h_fits]
          simp only [lt_max_iff, Nat.not_lt_of_le h_room, false_or]
        · -- the token itself is one level too many
          rw [if_neg h_fits, error_bind, if_pos (by omega)]

end Machine

/-- Adding a pair of parentheses takes one level more. -/
theorem Rule.parse_parenthesised {m : Nat} {text : String} {r : Rule}
    (h : Rule.parse ⟨m⟩ text = .ok r) : Rule.parse ⟨m + 1⟩ ("(" ++ text ++ ")") = .ok r := by
  -- a single text that is grouped is the text in parentheses
  obtain ⟨r', h_combine, h_parse⟩ :=
    Rule.parse_groupedText default (.cons h .nil) (List.cons_ne_nil text [])
  obtain rfl := Option.some.inj h_combine
  exact h_parse

/-- A text has a threshold, as its tokens have. -/
theorem Rule.exists_threshold (text : String) :
    ∃ d result, IgnoresLimits result ∧
      (∀ m, Rule.parse ⟨m⟩ text = if m < d then .error (.nestingTooDeep m) else result) ∧
      (∀ e, tokenize text = .error e → d = 0 ∧ result = .error e) ∧
      ∀ ts, tokenize text = .ok ts → ∃ front back, ts = front ++ back ∧ d = nesting front ∧
        Machine.Stops {} front back result := by
  -- a text that is not tokenized, or has no tokens, never comes to the machine
  cases h_tokens : tokenize text with
  | error e =>
    have h_ignores : IgnoresLimits (tokenize text) := Machine.ignoresLimits_tokensFrom _ _ _
    rw [h_tokens] at h_ignores
    refine ⟨0, .error e, fun limit h => h_ignores limit (by simpa using h), fun m => ?_,
      fun e' h => ⟨rfl, by rw [Except.error.inj h]⟩, fun ts h => absurd h (by simp)⟩
    rw [if_neg (Nat.not_lt_zero _), Rule.parse, h_tokens, error_bind]
  | ok ts =>
    cases ts with
    | nil =>
      refine ⟨0, .error .empty, fun limit => by simp, fun m => ?_, fun e h => absurd h (by simp),
        fun ts h => ⟨[], [], (Except.ok.inj h).symm, rfl, ⟨fun limits _ => ⟨{}, rfl⟩, ?_⟩⟩⟩
      · rw [if_neg (Nat.not_lt_zero _), Rule.parse, h_tokens, ok_bind, Rule.ofTokens]
      · exact fun t rest h => absurd h (by simp)
    | cons t ts =>
      obtain ⟨front, back, result, h_split, h_result, h_stops, h_eq⟩ :=
        Machine.exists_threshold text.utf8ByteSize {} (t :: ts)
      refine ⟨nesting front, result, h_result, fun m => ?_, fun e h => absurd h (by simp),
        fun us h => ⟨front, back, (Except.ok.inj h).symm.trans h_split, rfl, h_stops⟩⟩
      rw [Rule.parse, h_tokens, ok_bind]
      exact h_eq ⟨m⟩ (Nat.zero_le m)

/-- **Limits.** Every text has a threshold, the nesting of the tokens that are read before any fault
of their own. Under each limit from there on it comes to the same result, a rule or an error that is
not about nesting, and under each limit below the nesting is the error. So a higher limit changes
neither a rule nor such an error, a lower one can only put the nesting in their place, and a pair of
parentheses around a rule takes one level more. -/
theorem Rule.parse_by_limit (text : String) :
    (∃ d result, IgnoresLimits result ∧
      (∀ m, Rule.parse ⟨m⟩ text = if m < d then .error (.nestingTooDeep m) else result) ∧
      (∀ e, tokenize text = .error e → d = 0 ∧ result = .error e) ∧
      ∀ ts, tokenize text = .ok ts → ∃ front back, ts = front ++ back ∧ d = nesting front ∧
        Machine.Stops {} front back result) ∧
    (∀ m n, m ≤ n → IgnoresLimits (Rule.parse ⟨m⟩ text) →
      Rule.parse ⟨n⟩ text = Rule.parse ⟨m⟩ text) ∧
    (∀ m n, m ≤ n → Rule.parse ⟨m⟩ text = Rule.parse ⟨n⟩ text ∨
      Rule.parse ⟨m⟩ text = .error (.nestingTooDeep m)) ∧
    ∀ m r, Rule.parse ⟨m⟩ text = .ok r → Rule.parse ⟨m + 1⟩ ("(" ++ text ++ ")") = .ok r := by
  obtain ⟨d, result, h_result, h_eq, h_rest⟩ := Rule.exists_threshold text
  refine ⟨⟨d, result, h_result, h_eq, h_rest⟩, fun m n h_le h_ignores => ?_, fun m n h_le => ?_,
    fun m r => Rule.parse_parenthesised⟩
  · -- an outcome that is not about the limit was reached beyond the threshold
    have h_deep : ¬m < d := fun h_lt => h_ignores m (by rw [h_eq, if_pos h_lt])
    rw [h_eq, h_eq, if_neg h_deep, if_neg (by omega)]
  · by_cases h_lt : m < d
    · exact .inr (by rw [h_eq, if_pos h_lt])
    · exact .inl (by rw [h_eq, h_eq, if_neg h_lt, if_neg (by omega)])

/-- A field behind a group is at fault under all limits from the two levels in front of it on, as
the parentheses behind the fault do not count. A pair of parentheses around a rule takes a level. -/
theorem Rule.parse_by_limit_shallow :
    let text := "((x = y) z (("
    Rule.parse ⟨1⟩ text = .error (.nestingTooDeep 1) ∧
      (∀ m, 2 ≤ m →
        Rule.parse ⟨m⟩ text = .error (.unbalancedGrouping 9 .fieldWithoutKeyword)) ∧
      Rule.parse ⟨0⟩ ("(" ++ "x = y" ++ ")") = .error (.nestingTooDeep 0) ∧
      Rule.parse ⟨1⟩ ("(" ++ "x = y" ++ ")") = .ok (.test ⟨"x", .equal, .text "y"⟩) := by
  -- the fault comes before the third level is opened, so two levels are enough to see it
  have h_fault : Rule.parse ⟨2⟩ "((x = y) z (("
      = .error (.unbalancedGrouping 9 .fieldWithoutKeyword) := by decide +kernel
  have h_rule : Rule.parse ⟨0⟩ "x = y" = .ok (.test ⟨"x", .equal, .text "y"⟩) := by
    decide +kernel
  obtain ⟨-, h_raise, -, -⟩ := Rule.parse_by_limit "((x = y) z (("
  obtain ⟨-, -, -, h_group⟩ := Rule.parse_by_limit "x = y"
  refine ⟨by decide +kernel, fun m h => ?_, by decide +kernel, h_group 0 _ h_rule⟩
  rw [h_raise 2 m h (by rw [h_fault]; exact .grouping 9 .fieldWithoutKeyword), h_fault]

end Eligibility
