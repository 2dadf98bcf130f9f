import Eligibility.Proofs.Grammar.Acceptance

/-!
# Tokens in other places

The machine never looks at the offset of a token: it only copies it, into a frame or into an error.
So moving the tokens of a text, and its end, to other places changes nothing but the places in the
error. With `move` for a map of offsets, this is an equation for every handler of the machine, and
for the whole reader

    Rule.ofTokens limits (move size) (ts.map (Token.relocate move))
      = (Rule.ofTokens limits size ts).mapError (ParseError.relocate move)

(`Rule.ofTokens_relocate`). Nothing is asked of `move`. If it takes all offsets to zero, two token
lists that are spelled alike (`Token.spelling`) become one list, wherever they stood. So what comes
of tokens is a matter of their spelling, up to the place in the error
(`Rule.ofTokens_of_spelling`).
-/

namespace Eligibility

/-- The same token in another place. -/
def Token.relocate (move : Nat → Nat) (t : Token) : Token := { t with offset := move t.offset }

/-- The same error about another place. -/
def ParseError.relocate (move : Nat → Nat) : ParseError → ParseError
  | .unbalancedGrouping offset fault => .unbalancedGrouping (move offset) fault
  | .unsupportedOperator operator offset => .unsupportedOperator operator (move offset)
  | .unterminatedString offset => .unterminatedString (move offset)
  | .malformedCondition condition fault => .malformedCondition condition fault
  | .empty => .empty
  | .nestingTooDeep limit => .nestingTooDeep limit

/-- A token without its place: what it is and how it is written. -/
def Token.spelling (t : Token) : Lexeme × String := (t.lexeme, t.raw)

section

variable (move : Nat → Nat) (t : Token) (fields : List Token)

@[simp] theorem Token.lexeme_relocate : (t.relocate move).lexeme = t.lexeme := rfl

@[simp] theorem Token.raw_relocate : (t.relocate move).raw = t.raw := rfl

@[simp] theorem Token.offset_relocate : (t.relocate move).offset = move t.offset := rfl

@[simp] theorem attributeName?_relocate :
    attributeName? (t.relocate move) = attributeName? t := rfl

@[simp] theorem comparisonOf?_relocate : comparisonOf? (t.relocate move) = comparisonOf? t := rfl

@[simp] theorem valueOf_relocate (comparison : Comparison) :
    valueOf comparison (t.relocate move) = valueOf comparison t := rfl

@[simp] theorem fieldsText_relocate :
    fieldsText (fields.map (Token.relocate move)) = fieldsText fields := by
  rw [fieldsText, fieldsText, List.map_map]
  rfl

/-- Tokens that are spelled alike are the same but for their places. -/
theorem map_relocate_eq_of_spelling {ts us : List Token}
    (h : us.map Token.spelling = ts.map Token.spelling) :
    us.map (Token.relocate fun _ => 0) = ts.map (Token.relocate fun _ => 0) := by
  have h_unplaced (vs : List Token) : vs.map (Token.relocate fun _ => 0)
      = (vs.map Token.spelling).map fun s => ⟨s.1, 0, s.2⟩ := by
    rw [List.map_map]
    rfl
  rw [h_unplaced, h_unplaced, h]

end

/-! ### Outcomes -/

section Carry

variable {α β γ δ : Type} {move : Nat → Nat}

/-- An outcome about other places: a result is carried over by `f`, and an error tells the other
place. -/
def carry (move : Nat → Nat) (f : α → β) : Except ParseError α → Except ParseError β
  | .ok a => .ok (f a)
  | .error e => .error (e.relocate move)

@[simp] theorem carry_ok (f : α → β) (a : α) : carry move f (.ok a) = .ok (f a) := rfl

@[simp] theorem carry_error (f : α → β) (e : ParseError) :
    carry move f (.error e) = .error (e.relocate move) := rfl

/-- What does not depend on places is carried over as it is. -/
theorem carry_id (x : Except ParseError α) :
    carry move id x = x.mapError (ParseError.relocate move) := by
  cases x <;> rfl

/-- Steps that carry places over make a sequence that does. -/
theorem carry_bind {f : α → β} {g : γ → δ} {next : α → Except ParseError γ}
    {next' : β → Except ParseError δ} (x : Except ParseError α)
    (h : ∀ a, next' (f a) = carry move g (next a)) :
    (carry move f x >>= next') = carry move g (x >>= next) := by
  cases x with
  | error e => rfl
  | ok a => exact h a

theorem carry_ite {p : Prop} [Decidable p] (f : α → β) (x y : Except ParseError α) :
    carry move f (if p then x else y) = if p then carry move f x else carry move f y := by
  split
  · rfl
  · rfl

end Carry

/-! ### Conditions -/

/-- A condition has three fields. -/
theorem readCondition_of_length_ne {fields : List Token} (h : fields.length ≠ 3) :
    readCondition fields
      = .error (.malformedCondition (fieldsText fields) (.fieldCount fields.length)) := by
  unfold readCondition
  split
  · exact absurd rfl h
  · rfl

/-- Fields make the same condition in other places. -/
theorem readCondition_relocate (move : Nat → Nat) (fields : List Token) :
    readCondition (fields.map (Token.relocate move)) = carry move id (readCondition fields) := by
  have h_text := fieldsText_relocate move fields
  by_cases h_len : fields.length = 3
  · match fields with
    | [s, o, v] =>
    -- the text of the fields, the name, the comparison and the value do not tell places
    simp only [List.map_cons, List.map_nil] at h_text ⊢
    simp only [readCondition, attributeName?_relocate, comparisonOf?_relocate, valueOf_relocate,
      h_text]
    cases attributeName? s with
    | none => rfl
    | some name =>
      cases comparisonOf? o with
      | none => rfl
      | some comparison =>
        cases h_value : valueOf comparison v >>= checkOrdering comparison with
        | error fault => simp [h_value, ParseError.relocate]
        | ok w => simp [h_value]
  · rw [readCondition_of_length_ne h_len, readCondition_of_length_ne (by simpa using h_len), h_text,
      List.length_map]
    rfl

/-! ### The handlers -/

/-- The frame of a group whose parenthesis stands in another place. -/
def Frame.relocate (move : Nat → Nat) (f : Frame) : Frame := { f with offset := move f.offset }

namespace Machine

/-- The state after the same tokens in other places. -/
def relocate (move : Nat → Nat) (m : Machine) : Machine :=
  { m with frames := m.frames.map (Frame.relocate move)
           fields := m.fields.map (Token.relocate move) }

variable {limits : Limits} (move : Nat → Nat) (m : Machine) (t : Token)

@[simp] theorem awaitsOperand_relocate : (m.relocate move).awaitsOperand = m.awaitsOperand := rfl

@[simp] theorem frames_relocate :
    (m.relocate move).frames = m.frames.map (Frame.relocate move) := rfl

@[simp] theorem fields_relocate :
    (m.relocate move).fields = m.fields.map (Token.relocate move) := rfl

@[simp] theorem stacksBefore_relocate : (m.relocate move).stacksBefore = m.stacksBefore := by
  unfold stacksBefore
  rw [frames_relocate]
  cases m.frames with
  | nil => rfl
  | cons f frames => rfl

@[simp] theorem keywordDue_relocate : (m.relocate move).keywordDue = m.keywordDue := by
  unfold keywordDue
  rw [fields_relocate]
  -- only the number of the fields counts
  match m.fields with
  | [] => rfl
  | [_] => rfl
  | [_, _] => rfl
  | [_, _, _] => rfl
  | _ :: _ :: _ :: _ :: _ => rfl

/-- Applying keywords copies the offset into the one error that there is. -/
theorem applyKeywords_relocate (rulesBefore keywordsBefore offset : Nat)
    (keywords : List Connective) (rules : List Rule) :
    applyKeywords rulesBefore keywordsBefore (move offset) keywords rules
      = carry move id (applyKeywords rulesBefore keywordsBefore offset keywords rules) := by
  induction keywords generalizing rules with
  | nil => rfl
  | cons op ops ih =>
    -- whether a keyword is applied is a matter of counts, and these do not move
    unfold applyKeywords
    split
    · rfl
    · split
      · rfl
      · split
        · exact ih _
        · rfl

theorem completeOperand_relocate (offset : Nat) :
    (m.relocate move).completeOperand (move offset)
      = carry move (relocate move) (m.completeOperand offset) := by
  unfold completeOperand
  rw [stacksBefore_relocate]
  show (applyKeywords _ _ (move offset) m.keywords m.rules >>= _) = _
  rw [applyKeywords_relocate]
  exact carry_bind _ fun p => rfl

theorem completeCondition_relocate :
    (m.relocate move).completeCondition
      = carry move (relocate move) m.completeCondition := by
  unfold completeCondition
  rw [fields_relocate, ← List.map_reverse]
  cases m.fields.reverse with
  | nil => rfl
  | cons field fields =>
    show (readCondition ((field :: fields).map (Token.relocate move)) >>= _) = _
    rw [readCondition_relocate]
    refine carry_bind _ fun c => ?_
    exact completeOperand_relocate move { m with rules := .test c :: m.rules, fields := [] } _

theorem takeField_relocate :
    (m.relocate move).takeField (t.relocate move) = carry move (relocate move) (m.takeField t) := by
  unfold takeField
  rw [awaitsOperand_relocate]
  split
  · rfl
  · rfl

theorem takeKeyword_relocate (op : Connective) :
    (m.relocate move).takeKeyword op (t.relocate move)
      = carry move (relocate move) (m.takeKeyword op t) := by
  unfold takeKeyword
  rw [completeCondition_relocate]
  refine carry_bind _ fun m₁ => ?_
  rw [awaitsOperand_relocate]
  cases m₁.awaitsOperand with
  | true => rfl
  | false => rfl

theorem takeOpening_relocate :
    (m.relocate move).takeOpening limits (t.relocate move)
      = carry move (relocate move) (m.takeOpening limits t) := by
  unfold takeOpening
  simp only [awaitsOperand_relocate, fields_relocate, frames_relocate, List.length_map, ne_eq,
    List.map_eq_nil_iff]
  split
  · rfl
  · split
    · rfl
    · split
      · rfl
      · rfl

theorem takeClosing_relocate :
    (m.relocate move).takeClosing (t.relocate move)
      = carry move (relocate move) (m.takeClosing t) := by
  unfold takeClosing
  rw [completeCondition_relocate]
  refine carry_bind _ fun ⟨rules, keywords, frames, fields, awaitsOperand⟩ => ?_
  cases frames with
  | nil => rfl
  | cons f frames =>
    cases awaitsOperand with
    | true =>
      -- the two errors of a group without an operand
      show (if _ ∧ _ then _ else _) = carry move _ (if _ ∧ _ then _ else _)
      simp only [carry_ite]
      rfl
    | false =>
      show (if _ ∨ _ then _ else _) = carry move _ (if _ ∨ _ then _ else _)
      simp only [carry_ite]
      -- the group is popped in both, and what is left is an operand
      rw [← completeOperand_relocate]
      rfl

/-- **One token in another place** leads to the same state, with the places moved. -/
theorem takeToken_relocate :
    (m.relocate move).takeToken limits (t.relocate move)
      = carry move (relocate move) (m.takeToken limits t) := by
  -- one case for each handler
  unfold takeToken
  rw [Token.lexeme_relocate, keywordDue_relocate]
  cases t.lexeme with
  | opening => exact takeOpening_relocate move m t
  | closing => exact takeClosing_relocate move m t
  | symbol s => exact takeField_relocate move m t
  | quoted s => exact takeField_relocate move m t
  | word w =>
    simp only
    cases Connective.ofKeyword? w with
    | some op => exact takeKeyword_relocate move m t op
    | none =>
      simp only
      split
      · rfl
      · exact takeField_relocate move m t

/-- **A run over the tokens in other places.** -/
theorem run_relocate (ts : List Token) :
    run limits (m.relocate move) (ts.map (Token.relocate move))
      = carry move (relocate move) (run limits m ts) := by
  induction ts generalizing m with
  | nil => rfl
  | cons t ts ih =>
    rw [List.map_cons, run_cons, takeToken_relocate]
    exact carry_bind _ fun m₁ => ih m₁

theorem finish_relocate (size : Nat) :
    (m.relocate move).finish (move size) = carry move id (m.finish size) := by
  unfold finish
  rw [completeCondition_relocate]
  refine carry_bind _ fun ⟨rules, keywords, frames, fields, awaitsOperand⟩ => ?_
  cases frames with
  | cons f frames => rfl
  | nil =>
    cases awaitsOperand with
    | true => rfl
    | false =>
      -- one rule and no keyword, or else it is an error
      cases rules with
      | nil => rfl
      | cons r rules =>
        cases rules with
        | nil => cases keywords <;> rfl
        | cons r' rules => rfl

end Machine

/-- **Reading tokens in other places.** The rule is the same, and an error tells the other place. -/
theorem Rule.ofTokens_relocate (limits : Limits) (move : Nat → Nat) (size : Nat)
    (ts : List Token) :
    Rule.ofTokens limits (move size) (ts.map (Token.relocate move))
      = (Rule.ofTokens limits size ts).mapError (ParseError.relocate move) := by
  rw [← carry_id]
  cases ts with
  | nil => rfl
  | cons t ts =>
    -- the machine starts with no tokens, so it does not matter whether they are moved first
    have h_run : Machine.run limits {} ((t :: ts).map (Token.relocate move))
        = carry move (Machine.relocate move) (Machine.run limits {} (t :: ts)) :=
      Machine.run_relocate move {} (t :: ts)
    show (Machine.run limits {} ((t :: ts).map (Token.relocate move)) >>= _) = _
    rw [h_run]
    exact carry_bind _ fun m => Machine.finish_relocate move m size

/-- **Only the spelling counts.** Tokens that are spelled alike come to the same, but for the place
in the error. -/
theorem Rule.ofTokens_of_spelling (limits : Limits) (size size' : Nat) {ts us : List Token}
    (h : us.map Token.spelling = ts.map Token.spelling) :
    (Rule.ofTokens limits size' us).mapError (ParseError.relocate fun _ => 0)
      = (Rule.ofTokens limits size ts).mapError (ParseError.relocate fun _ => 0) :=
  calc (Rule.ofTokens limits size' us).mapError (ParseError.relocate fun _ => 0)
    _ = Rule.ofTokens limits 0 (us.map (Token.relocate fun _ => 0)) :=
      (Rule.ofTokens_relocate limits (fun _ => 0) size' us).symm
    _ = Rule.ofTokens limits 0 (ts.map (Token.relocate fun _ => 0)) := by
      rw [map_relocate_eq_of_spelling h]
    _ = (Rule.ofTokens limits size ts).mapError (ParseError.relocate fun _ => 0) :=
      Rule.ofTokens_relocate limits (fun _ => 0) size ts

/-- An error that tells no place is the same error. -/
theorem Rule.malformedCondition_of_spelling {limits : Limits} {size size' : Nat}
    {ts us : List Token} {condition : String} {fault : ConditionFault}
    (h : us.map Token.spelling = ts.map Token.spelling)
    (h_err : Rule.ofTokens limits size ts = .error (.malformedCondition condition fault)) :
    Rule.ofTokens limits size' us = .error (.malformedCondition condition fault) := by
  have h_same := Rule.ofTokens_of_spelling limits size size' h
  rw [h_err] at h_same
  cases h_us : Rule.ofTokens limits size' us with
  | ok r =>
    rw [h_us] at h_same
    have h_ok : Except.ok r = .error (ParseError.malformedCondition condition fault) := h_same
    cases h_ok
  | error e =>
    rw [h_us] at h_same
    -- no other error comes to this one when its place is dropped
    have h_error : e.relocate (fun _ => 0) = .malformedCondition condition fault :=
      Except.error.inj h_same
    cases e with
    | malformedCondition => exact congrArg Except.error h_error
    | _ => exact absurd h_error (by simp [ParseError.relocate])

end Eligibility
