import Eligibility.Proofs.Grammar.Derivation

/-!
# The levels of the machine

What the machine that reads rules can look like between two tokens. Its two stacks and its frames
are one list of *levels*, one for every open group and one for the top: a level whose operand is
under way holds nothing yet, or one finished rule and the keyword that waits behind it
(`Waiting`). So a machine is in one of two conditions:

* `Machine.awaiting outer w fields` — the innermost level holds `w` and an operand is to come, of
  which `fields` are there already;
* `Machine.complete outer r` — the innermost level has come to a single rule `r`.

All handlers are computed on these two forms here, and nothing later looks at a stack again. The
central one is `completeOperand_push`: an operand that is finished is joined to what waits for it,
and the levels further out are not touched, although they share the stacks.
-/

namespace Eligibility

namespace Machine

/-- What a level holds while its next operand is under way. -/
abbrev Waiting := Option (Rule × Connective)

namespace Waiting

/-- The rules of a level, as they lie on the stack. -/
def rules : Waiting → List Rule
  | none => []
  | some (left, _) => [left]

/-- The keywords of a level, as they lie on the stack. -/
def keywords : Waiting → List Connective
  | none => []
  | some (_, op) => [op]

/-- The rule of a level once its operand is there. -/
def join : Waiting → Rule → Rule
  | none, r => r
  | some (left, op), r => .join op left r

end Waiting

/-- A level around an open group, with the offset of the group's parenthesis. -/
structure Level where
  waiting : Waiting
  offset : Nat

/-- The rules of all levels, innermost first. -/
def rulesOf (outer : List Level) : List Rule := outer.flatMap (·.waiting.rules)

/-- The keywords of all levels, innermost first. -/
def keywordsOf (outer : List Level) : List Connective := outer.flatMap (·.waiting.keywords)

/-- The frames of the open groups: each starts where the levels around it end. -/
def framesOf : List Level → List Frame
  | [] => []
  | l :: outer =>
    ⟨(rulesOf (l :: outer)).length, (keywordsOf (l :: outer)).length, l.offset⟩ :: framesOf outer

/-- The machine while an operand of the innermost level is under way. -/
def awaiting (outer : List Level) (w : Waiting) (fields : List Token) : Machine where
  rules := w.rules ++ rulesOf outer
  keywords := w.keywords ++ keywordsOf outer
  frames := framesOf outer
  fields := fields
  awaitsOperand := true

/-- The machine when the innermost level has come to a single rule. -/
def complete (outer : List Level) (r : Rule) : Machine where
  rules := r :: rulesOf outer
  keywords := keywordsOf outer
  frames := framesOf outer
  fields := []
  awaitsOperand := false

@[simp] theorem length_framesOf (outer : List Level) :
    (framesOf outer).length = outer.length := by
  induction outer with
  | nil => rfl
  | cons l outer ih => rw [framesOf, List.length_cons, List.length_cons, ih]

/-- The machine before the first token. -/
theorem awaiting_nil : awaiting [] none [] = {} := rfl

/-- What stands below the innermost level belongs to the levels around it. -/
theorem stacksBefore_eq {m : Machine} {outer : List Level} (h : m.frames = framesOf outer) :
    m.stacksBefore = ((rulesOf outer).length, (keywordsOf outer).length) := by
  unfold stacksBefore
  rw [h]
  cases outer <;> rfl

/-! ### Finishing an operand -/

/-- Keywords of the levels around are never applied. -/
theorem applyKeywords_outer (before offset : Nat) (keywords : List Connective)
    (rules : List Rule) :
    applyKeywords before keywords.length offset keywords rules = .ok (keywords, rules) := by
  cases keywords with
  | nil => rfl
  | cons op ops =>
    unfold applyKeywords
    rw [if_pos (by simp)]

/-- **An operand is finished.** It is joined to the rule and keyword that wait for it, if there are
any, and the levels further out stay as they are. -/
theorem completeOperand_push (outer : List Level) (w : Waiting) (r : Rule) (b : Bool)
    (offset : Nat) :
    completeOperand ⟨r :: (w.rules ++ rulesOf outer), w.keywords ++ keywordsOf outer,
      framesOf outer, [], b⟩ offset = .ok (complete outer (w.join r)) := by
  unfold completeOperand
  -- the levels further out end where the innermost frame says that this one begins
  rw [stacksBefore_eq rfl]
  cases w with
  | none =>
    -- nothing waits on this level, and the keywords left belong to others
    change (applyKeywords _ _ offset (keywordsOf outer) (r :: rulesOf outer) >>= _) = _
    rw [applyKeywords_outer]
    rfl
  | some p =>
    obtain ⟨left, op⟩ := p
    -- one keyword waits: it is applied, and then no other one of this level is left
    change (applyKeywords _ _ offset (op :: keywordsOf outer) (r :: left :: rulesOf outer) >>= _)
      = _
    rw [applyKeywords, if_neg (Nat.lt_irrefl _),
      if_neg (by simp only [List.length_cons]; omega), applyKeywords_outer]
    rfl

@[simp] theorem completeCondition_complete (outer : List Level) (r : Rule) :
    (complete outer r).completeCondition = .ok (complete outer r) := rfl

/-- The fields of a level that make a condition become its operand. -/
theorem completeCondition_awaiting {outer : List Level} {w : Waiting} {fields : List Token}
    (h : fields ≠ []) :
    (awaiting outer w fields).completeCondition =
      (readCondition fields.reverse).map fun c => complete outer (w.join (.test c)) := by
  obtain ⟨field, rest, h_rev⟩ := List.exists_cons_of_ne_nil (List.reverse_ne_nil_iff.mpr h)
  have h_fields : (awaiting outer w fields).fields.reverse = field :: rest := h_rev
  rw [completeCondition, h_fields, h_rev]
  -- the buffer is read, and the condition is pushed as an operand
  show (readCondition (field :: rest) >>= _) = _
  cases readCondition (field :: rest) with
  | error e => rfl
  | ok c => exact completeOperand_push outer w (.test c) true field.offset

/-- What `completeCondition` can come to: it changes nothing where no operand is under way, and
else it leaves a complete level. -/
theorem completeCondition_cases {outer : List Level} {w : Waiting} {fields : List Token}
    {m : Machine} (h : (awaiting outer w fields).completeCondition = .ok m) :
    (fields = [] ∧ m = awaiting outer w []) ∨
      ∃ c, readCondition fields.reverse = .ok c ∧ m = complete outer (w.join (.test c)) := by
  -- without fields nothing is done; with fields they are read, or the machine fails
  by_cases h_nil : fields = []
  · subst h_nil
    exact .inl ⟨rfl, (Except.ok.inj h).symm⟩
  · rw [completeCondition_awaiting h_nil] at h
    cases hc : readCondition fields.reverse with
    | error e =>
      rw [hc] at h
      exact absurd h (by simp [Except.map])
    | ok c =>
      rw [hc] at h
      exact .inr ⟨c, rfl, (Except.ok.inj h).symm⟩

/-! ### The handlers

Each of the four kinds of tokens has one handler. First what a handler does where a rule is read
without a fault, then what must have been the case where it succeeded. -/

section Handlers

variable {limits : Limits} {t : Token} {m m' : Machine} {outer : List Level} {w : Waiting}
  {r : Rule}

/-- A token that may stand in a condition is taken as a field, or it is refused as a keyword in the
wrong case where a keyword is due. -/
theorem takeToken_isField (h : t.isField) (limits : Limits) (m : Machine) :
    m.takeToken limits t = m.takeField t ∨
      m.keywordDue ∧ ∃ x, t.lexeme = .word x ∧
        m.takeToken limits t = .error (.unsupportedOperator x t.offset) := by
  have h_key := Token.keyword?_of_isField h
  unfold takeToken
  unfold Token.keyword? at h_key
  -- of the lexemes only a word can be refused: it may be a keyword in the wrong case
  cases h_lex : t.lexeme with
  | opening => exact absurd h_lex (Token.lexeme_ne_opening_of_isField h)
  | closing => exact absurd h_lex (Token.lexeme_ne_closing_of_isField h)
  | symbol s => exact .inl rfl
  | quoted s => exact .inl rfl
  | word x =>
    rw [h_lex] at h_key
    simp only at h_key
    simp only [h_key]
    by_cases h_mis : m.keywordDue && isMiscasedKeyword x
    · rw [if_pos h_mis]
      exact .inr ⟨(Bool.and_eq_true _ _ ▸ h_mis).1, x, rfl, rfl⟩
    · rw [if_neg h_mis]
      exact .inl rfl

theorem takeToken_keyword {op : Connective} (h : t.keyword? = some op) (m : Machine) :
    m.takeToken limits t = m.takeKeyword op t := by
  unfold Token.keyword? at h
  unfold takeToken
  cases h_lex : t.lexeme with
  | word x =>
    rw [h_lex] at h
    simp only at h
    simp only [h]
  | _ => simp [h_lex] at h

theorem takeToken_opening (h : t.lexeme = .opening) (m : Machine) :
    m.takeToken limits t = m.takeOpening limits t := by
  unfold takeToken
  rw [h]

theorem takeToken_closing (h : t.lexeme = .closing) (m : Machine) :
    m.takeToken limits t = m.takeClosing t := by
  unfold takeToken
  rw [h]

/-- A field is put to the fields before it, as long as these are not a whole condition. -/
theorem takeToken_awaiting_field {fields : List Token} (h : t.isField) (h_len : fields.length < 3) :
    (awaiting outer w fields).takeToken limits t = .ok (awaiting outer w (t :: fields)) := by
  rcases takeToken_isField h limits (awaiting outer w fields) with h_take | ⟨h_due, -⟩
  · rw [h_take]
    rfl
  · -- a keyword is due only behind three fields, or where an operand is finished
    unfold keywordDue at h_due
    split at h_due
    · next h_three =>
      rw [show fields = _ from h_three] at h_len
      exact absurd h_len (by simp)
    · exact absurd h_due (by simp [awaiting])

/-- A keyword waits behind the rule to which its level has come. -/
theorem takeToken_complete_keyword {op : Connective} (h : t.keyword? = some op)
    (hm : m.completeCondition = .ok (complete outer r)) :
    m.takeToken limits t = .ok (awaiting outer (some (r, op)) []) := by
  rw [takeToken_keyword h, takeKeyword, hm]
  rfl

/-- A parenthesis opens a level, unless the levels are used up. -/
theorem takeToken_awaiting_opening (h : t.lexeme = .opening) :
    (awaiting outer w []).takeToken limits t =
      if limits.maxDepth ≤ outer.length then .error (.nestingTooDeep limits.maxDepth)
      else .ok (awaiting (⟨w, t.offset⟩ :: outer) none []) := by
  rw [takeToken_opening h, takeOpening]
  change (if limits.maxDepth ≤ (framesOf outer).length then _ else _) = _
  rw [length_framesOf]
  rfl

/-- A parenthesis closes a level: its rule is an operand of the level around it. -/
theorem takeToken_complete_closing {offset : Nat} (h : t.lexeme = .closing)
    (hm : m.completeCondition = .ok (complete (⟨w, offset⟩ :: outer) r)) :
    m.takeToken limits t = .ok (complete outer (w.join r)) := by
  rw [takeToken_closing h, takeClosing, hm]
  change (if _ then _ else _) = _
  rw [if_neg (by simp [complete])]
  exact completeOperand_push outer w r false t.offset

/-! What a handler that succeeded has found and done. -/

/-- A field that was taken: an operand is still under way, with one field more. -/
theorem eq_of_takeToken_field (h : t.isField) (h_ok : m.takeToken limits t = .ok m') :
    m.awaitsOperand ∧ m' = { m with fields := t :: m.fields } := by
  rcases takeToken_isField h limits m with h_take | ⟨-, x, -, h_err⟩
  · rw [h_take, takeField] at h_ok
    by_cases h_wait : m.awaitsOperand
    · rw [if_pos h_wait] at h_ok
      exact ⟨h_wait, (Except.ok.inj h_ok).symm⟩
    · rw [if_neg h_wait] at h_ok
      exact absurd h_ok (by simp)
  · rw [h_err] at h_ok
    exact absurd h_ok (by simp)

/-- A keyword that was taken: its level had come to a single rule. -/
theorem exists_of_takeToken_keyword {op : Connective} (h : t.keyword? = some op)
    (h_ok : m.takeToken limits t = .ok m') :
    ∃ m₁, m.completeCondition = .ok m₁ ∧ m₁.awaitsOperand = false ∧
      m' = { m₁ with keywords := op :: m₁.keywords, awaitsOperand := true } := by
  rw [takeToken_keyword h, takeKeyword] at h_ok
  obtain ⟨m₁, h_done, h_ok⟩ := exists_of_bind_eq_ok h_ok
  refine ⟨m₁, h_done, ?_⟩
  cases h_wait : m₁.awaitsOperand with
  | true => simp [h_wait] at h_ok
  | false =>
    simp only [h_wait, Bool.false_eq_true, if_false, pure_eq_ok, Except.ok.injEq] at h_ok
    exact ⟨rfl, h_ok.symm⟩

/-- A parenthesis that was opened: no field stood before it, and there was a level left. -/
theorem eq_of_takeToken_opening (h : t.lexeme = .opening) (h_ok : m.takeToken limits t = .ok m') :
    m.fields = [] ∧ m.awaitsOperand ∧ m.frames.length < limits.maxDepth ∧
      m' = { m with frames := ⟨m.rules.length, m.keywords.length, t.offset⟩ :: m.frames } := by
  rw [takeToken_opening h, takeOpening] at h_ok
  -- three checks stand before the frame is pushed
  split at h_ok
  · exact absurd h_ok (by simp)
  · next h_fields =>
    split at h_ok
    · exact absurd h_ok (by simp)
    · next h_wait =>
      split at h_ok
      · exact absurd h_ok (by simp)
      · next h_depth =>
        exact ⟨Decidable.not_not.mp h_fields, by simpa using h_wait, Nat.lt_of_not_le h_depth,
          (Except.ok.inj h_ok).symm⟩

/-- A parenthesis that was closed: a level was open and had come to a single rule. -/
theorem exists_of_takeToken_closing (h : t.lexeme = .closing)
    (h_ok : m.takeToken limits t = .ok m') :
    ∃ m₁ f frames, m.completeCondition = .ok m₁ ∧ m₁.awaitsOperand = false ∧
      m₁.frames = f :: frames ∧ completeOperand { m₁ with frames } t.offset = .ok m' := by
  rw [takeToken_closing h, takeClosing] at h_ok
  obtain ⟨m₁, h_done, h_ok⟩ := exists_of_bind_eq_ok h_ok
  cases h_frames : m₁.frames with
  | nil => simp [h_frames] at h_ok
  | cons f frames =>
    refine ⟨m₁, f, frames, h_done, ?_⟩
    cases h_wait : m₁.awaitsOperand with
    | true =>
      simp only [h_frames, h_wait, if_true] at h_ok
      -- both errors of an operand that is missing
      split at h_ok <;> simp at h_ok
    | false =>
      simp only [h_frames, h_wait, Bool.false_eq_true, if_false] at h_ok
      split at h_ok
      · simp at h_ok
      · exact ⟨rfl, h_frames, h_ok⟩

end Handlers

end Machine

end Eligibility
