import Eligibility.Proofs.Grammar.Acceptance

/-!
# What the machine finds at fault

When the machine refuses a token, or the end of the text, its error names a place. `Locates` says,
for each fault of grouping, which token of the text stands at that place and what around it is
wrong; `Blames` adds the errors of conditions. Neither mentions the machine. An unmatched
parenthesis is one with matching parentheses only (`Balanced`) between it and the end of the text on
its side, a keyword lacks its left operand if there is nothing in front of it, a parenthesis or
another keyword, and so on.

That the machine is right about it follows from the invariant `Reads` of its runs. A token is
refused in a state that an accepted run has led to, and there the invariant gives the tokens in front
of it, level by level. One thing it does not give: that a level which has come to an expression has
done so by a closing parenthesis, since else its last fields are still in the buffer
(`exists_closing_of_run`).

Three of the faults are in no constructor of `Locates`. They would need a level that holds more than
one rule, which no run comes to.
-/

namespace Eligibility

/-! ### Matching parentheses -/

/-- In these tokens every parenthesis has its counterpart. -/
inductive Balanced : List Token → Prop
  | nil : Balanced []
  | token {t : Token} (h_open : t.lexeme ≠ .opening) (h_close : t.lexeme ≠ .closing) : Balanced [t]
  | group {o c : Token} {ts : List Token} (ho : o.lexeme = .opening) (hc : c.lexeme = .closing)
      (h : Balanced ts) : Balanced (o :: (ts ++ [c]))
  | append {ts us : List Token} (h : Balanced ts) (h' : Balanced us) : Balanced (ts ++ us)

namespace Balanced

theorem field {t : Token} (h : t.isField) : Balanced [t] :=
  .token (Token.lexeme_ne_opening_of_isField h) (Token.lexeme_ne_closing_of_isField h)

theorem keyword {t : Token} {op : Connective} (h : t.keyword? = some op) : Balanced [t] :=
  .token (Token.lexeme_ne_opening_of_keyword? h) (Token.lexeme_ne_closing_of_keyword? h)

end Balanced

/-- The parentheses of a phrase match. -/
theorem Derives.balanced {phrase : Phrase} {ts : List Token} {r : Rule} (h : Derives phrase ts r) :
    Balanced ts := by
  induction h with
  | condition hs ho hv => exact .append (.field hs) (.append (.field ho) (.field hv))
  | group ho hc _ ih => exact .group ho hc ih
  | single _ ih => exact ih
  | joined _ hk _ ihl ihr => exact .append ihl (.append (.keyword hk) ihr)

/-! ### Places -/

/-- An operand is to come behind these tokens: there are none, or the last of them is an opening
parenthesis or a keyword. -/
def LeadsToOperand (ts : List Token) : Prop :=
  ∀ t ∈ ts.getLast?, t.lexeme = .opening ∨ ∃ op, t.keyword? = some op

/-- **The place of a fault of grouping** in the tokens of a text of `size` bytes. -/
inductive Locates (size : Nat) : GroupingFault → Nat → List Token → Prop
  /-- A parenthesis that opens behind a field. -/
  | openInCondition {front back : List Token} {s o : Token} (hs : s.isField)
      (ho : o.lexeme = .opening) :
      Locates size .openInCondition o.offset (front ++ s :: o :: back)
  /-- A parenthesis that opens behind a group. -/
  | openWithoutKeyword {front back : List Token} {c o : Token} (hc : c.lexeme = .closing)
      (ho : o.lexeme = .opening) :
      Locates size .openWithoutKeyword o.offset (front ++ c :: o :: back)
  /-- A parenthesis that closes where no group is open. -/
  | unmatchedClose {front back : List Token} {c : Token} (h_front : Balanced front)
      (hc : c.lexeme = .closing) : Locates size .unmatchedClose c.offset (front ++ c :: back)
  /-- The innermost group that is still open at the end. -/
  | unmatchedOpen {front back : List Token} {o : Token} (ho : o.lexeme = .opening)
      (h_back : Balanced back) : Locates size .unmatchedOpen o.offset (front ++ o :: back)
  /-- A keyword where an operand must be. -/
  | noLeftOperand {front back : List Token} {k : Token} {op : Connective}
      (h_front : LeadsToOperand front) (hk : k.keyword? = some op) :
      Locates size .noLeftOperand k.offset (front ++ k :: back)
  /-- A parenthesis that closes behind a keyword. -/
  | noRightOperand {front back : List Token} {k c : Token} {op : Connective}
      (hk : k.keyword? = some op) (hc : c.lexeme = .closing) :
      Locates size .noRightOperand c.offset (front ++ k :: c :: back)
  /-- The end of the text, behind a keyword. -/
  | noRightOperandAtEnd {front : List Token} {k : Token} {op : Connective}
      (hk : k.keyword? = some op) : Locates size .noRightOperand size (front ++ [k])
  /-- A field behind a group. -/
  | fieldWithoutKeyword {front back : List Token} {c t : Token} (hc : c.lexeme = .closing)
      (ht : t.isField) : Locates size .fieldWithoutKeyword t.offset (front ++ c :: t :: back)

/-- **What is blamed** in the tokens of a text of `size` bytes. -/
inductive Blames (size : Nat) (ts : List Token) : ParseError → Prop
  | condition (condition : String) (fault : ConditionFault) :
      Blames size ts (.malformedCondition condition fault)
  /-- A field that is no comparison, as written or as the word that it is. -/
  | operator {t : Token} {operator : String} (h_mem : t ∈ ts) (h_field : t.isField)
      (h_none : comparisonOf? t = none) (h_eq : operator = t.raw ∨ t.lexeme = .word operator) :
      Blames size ts (.unsupportedOperator operator t.offset)
  | grouping {offset : Nat} {fault : GroupingFault} (h : Locates size fault offset ts) :
      Blames size ts (.unbalancedGrouping offset fault)
  | nesting (limit : Nat) : Blames size ts (.nestingTooDeep limit)

/-- What is named is the end of the text or a token of it. -/
theorem Locates.eq_size_or_exists_mem {size offset : Nat} {fault : GroupingFault}
    {ts : List Token} (h : Locates size fault offset ts) :
    offset = size ∨ ∃ t ∈ ts, offset = t.offset := by
  cases h with
  | noRightOperandAtEnd => exact .inl rfl
  | _ => exact .inr ⟨_, by simp, rfl⟩

/-- Fields that are no condition are at fault as a whole, or the second of them is no comparison. -/
theorem error_of_readCondition {fields : List Token} {e : ParseError}
    (h : readCondition fields = .error e) :
    (∃ condition fault, e = .malformedCondition condition fault) ∨
      ∃ t ∈ fields, comparisonOf? t = none ∧ e = .unsupportedOperator t.raw t.offset := by
  unfold readCondition at h
  -- only the comparison has an error of its own
  split at h
  · next subject comparison value =>
    split at h
    · exact .inl ⟨_, _, (Except.error.inj h).symm⟩
    · split at h
      · next h_none =>
        exact .inr ⟨comparison, by simp, h_none, (Except.error.inj h).symm⟩
      · split at h
        · exact .inl ⟨_, _, (Except.error.inj h).symm⟩
        · exact absurd h (by simp)
  · exact .inl ⟨_, _, (Except.error.inj h).symm⟩

namespace Machine

variable {limits : Limits} {size : Nat} {m m' : Machine} {t : Token} {ts : List Token}
  {outer : List Level} {w : Waiting} {r : Rule} {e : ParseError}

/-! ### Levels that refuse a token -/

/-- A field is refused behind a group, or for being a keyword in the wrong case. -/
theorem error_of_takeToken_field (h : t.isField) (h_err : m.takeToken limits t = .error e) :
    m.awaitsOperand = false ∧ e = .unbalancedGrouping t.offset .fieldWithoutKeyword ∨
      ∃ x, t.lexeme = .word x ∧ e = .unsupportedOperator x t.offset := by
  rcases takeToken_isField h limits m with h_take | ⟨-, x, h_lex, h_refused⟩
  · rw [h_take, takeField] at h_err
    split at h_err
    · exact absurd h_err (by simp)
    · next h_wait => exact .inl ⟨by simpa using h_wait, (Except.error.inj h_err).symm⟩
  · exact .inr ⟨x, h_lex, Except.error.inj (h_err.symm.trans h_refused)⟩

theorem takeToken_awaiting_keyword {op : Connective} (h : t.keyword? = some op)
    (hm : m.completeCondition = .ok (awaiting outer w [])) :
    m.takeToken limits t = .error (.unbalancedGrouping t.offset .noLeftOperand) := by
  rw [takeToken_keyword h, takeKeyword, hm]
  rfl

/-- A parenthesis is refused inside a condition, behind a group, or as one level too many. -/
theorem error_of_takeToken_opening (h : t.lexeme = .opening)
    (h_err : m.takeToken limits t = .error e) :
    m.fields ≠ [] ∧ e = .unbalancedGrouping t.offset .openInCondition ∨
      m.awaitsOperand = false ∧ e = .unbalancedGrouping t.offset .openWithoutKeyword ∨
        e = .nestingTooDeep limits.maxDepth := by
  rw [takeToken_opening h, takeOpening] at h_err
  -- the checks in their order: inside a condition, behind one, too deep
  split at h_err
  · next h_fields => exact .inl ⟨h_fields, (Except.error.inj h_err).symm⟩
  · split at h_err
    · next h_wait => exact .inr (.inl ⟨by simpa using h_wait, (Except.error.inj h_err).symm⟩)
    · split at h_err
      · exact .inr (.inr (Except.error.inj h_err).symm)
      · exact absurd h_err (by simp)

theorem takeToken_top_closing (h : t.lexeme = .closing) (hm : m.completeCondition = .ok m')
    (h_frames : m'.frames = []) :
    m.takeToken limits t = .error (.unbalancedGrouping t.offset .unmatchedClose) := by
  rw [takeToken_closing h, takeClosing, hm, ok_bind]
  simp only [h_frames, throw_eq_error]

/-- A group that awaits an operand is not closed. Either nothing was read of it, or a keyword is the
last thing in it. -/
theorem takeToken_awaiting_closing {l : Level} (h : t.lexeme = .closing)
    (hm : m.completeCondition = .ok (awaiting (l :: outer) w [])) :
    m.takeToken limits t = .error
      (if w = none then .malformedCondition "()" .emptyGroup
      else .unbalancedGrouping t.offset .noRightOperand) := by
  rw [takeToken_closing h, takeClosing, hm, ok_bind]
  cases w with
  | none =>
    show (if _ ∧ _ then _ else _) = _
    rw [if_pos ⟨rfl, rfl⟩]
    rfl
  | some p =>
    -- the rule that waits lies above those of the levels around
    show (if _ ∧ _ then _ else _) = _
    rw [if_neg (fun h_empty => absurd h_empty.1 (Nat.succ_ne_self _))]
    rfl

/-- A group that is open is refused at the end. -/
theorem finish_of_frames {f : Frame} {frames : List Frame} (hm : m.completeCondition = .ok m')
    (h_frames : m'.frames = f :: frames) :
    m.finish size = .error (.unbalancedGrouping f.offset .unmatchedOpen) := by
  rw [finish, hm, ok_bind]
  simp only [h_frames, throw_eq_error, error_bind]

theorem finish_of_awaiting (hm : m.completeCondition = .ok (awaiting [] w [])) :
    m.finish size = .error (.unbalancedGrouping size .noRightOperand) := by
  rw [finish, hm]
  rfl

/-! ### What was read of the levels -/

theorem Before.balanced (h : Before w ts) : Balanced ts := by
  cases h with
  | nothing => exact .nil
  | keyword h hk => exact .append h.balanced (.keyword hk)

/-- The tokens of the open groups end with the parenthesis of the innermost one. -/
theorem Behind.exists_opening {l : Level} (h : Behind (l :: outer) ts) :
    ∃ front o, ts = front ++ [o] ∧ o.lexeme = .opening ∧ o.offset = l.offset := by
  cases h with
  | group h hw ho => exact ⟨_, _, rfl, ho, rfl⟩

theorem Behind.eq_nil (h : Behind [] ts) : ts = [] := by
  cases h with
  | top => rfl

/-- A level that awaits an operand is at its beginning or behind a keyword. -/
theorem Behind.leadsToOperand {us : List Token} (h : Behind outer ts) (hw : Before w us) :
    LeadsToOperand (ts ++ us) := by
  intro t ht
  -- the last token is the keyword if there is one, and else the parenthesis of the group
  cases hw with
  | keyword _ hk =>
    rw [← List.append_assoc, List.getLast?_append, List.getLast?_singleton] at ht
    obtain rfl := Option.some.inj ht
    exact .inr ⟨_, hk⟩
  | nothing =>
    rw [List.append_nil] at ht
    cases outer with
    | nil =>
      obtain rfl := h.eq_nil
      exact absurd ht (by simp)
    | cons l outer =>
      obtain ⟨front, o, rfl, ho, -⟩ := h.exists_opening
      rw [List.getLast?_append, List.getLast?_singleton] at ht
      obtain rfl := Option.some.inj ht
      exact .inl ho

/-- Once there are no fields left, a level is awaiting or complete, and the tokens are those of the
open groups and its own. -/
theorem Reads.settled (h : Reads m ts) (h_done : m.completeCondition = .ok m') :
    ∃ outer us vs, ts = us ++ vs ∧ Behind outer us ∧ Balanced vs ∧
      ((∃ w, m' = Machine.awaiting outer w [] ∧ Before w vs) ∨
        ∃ r, m' = Machine.complete outer r) := by
  cases h with
  | complete hb hr =>
    obtain rfl := Except.ok.inj h_done
    exact ⟨_, _, _, rfl, hb, hr.balanced, .inr ⟨_, rfl⟩⟩
  | awaiting hb hw hf =>
    rcases completeCondition_cases h_done with ⟨rfl, rfl⟩ | ⟨c, hc, rfl⟩
    · exact ⟨_, _, _, List.append_nil _, hb, hw.balanced, .inl ⟨_, rfl, hw⟩⟩
    · -- the fields at the end make a condition, which goes with what was before it
      have hr := hw.join (derives_of_readCondition (fun t ht => hf t (List.mem_reverse.mp ht)) hc)
      exact ⟨_, _, _, List.append_assoc _ _ _, hb, hr.balanced, .inr ⟨_, rfl⟩⟩

/-- The fields of a state were read last. -/
theorem Reads.exists_fields (h : Reads m ts) :
    (∀ t ∈ m.fields, t.isField) ∧ ∃ front, ts = front ++ m.fields.reverse := by
  cases h with
  | awaiting hb hw hf => exact ⟨hf, _, rfl⟩
  | complete hb hr => exact ⟨List.forall_mem_nil _, _, (List.append_nil _).symm⟩

/-- Only a closing parenthesis leaves a level that has come to an expression. -/
theorem lexeme_eq_closing_of_takeToken (h_ok : m.takeToken limits t = .ok m')
    (h_wait : m'.awaitsOperand = false) : t.lexeme = .closing := by
  rcases t.kind with h_field | ⟨op, h_key⟩ | h_open | h_close
  · obtain ⟨h_await, rfl⟩ := eq_of_takeToken_field h_field h_ok
    exact absurd (h_await.symm.trans h_wait) (by simp)
  · obtain ⟨m₁, -, -, rfl⟩ := exists_of_takeToken_keyword h_key h_ok
    exact absurd h_wait (by simp)
  · obtain ⟨-, h_await, -, rfl⟩ := eq_of_takeToken_opening h_open h_ok
    exact absurd (h_await.symm.trans h_wait) (by simp)
  · exact h_close

/-- So a run that comes to such a level ends with a closing parenthesis. -/
theorem exists_closing_of_run (h_run : run limits {} ts = .ok m)
    (h_wait : m.awaitsOperand = false) : ∃ front c, ts = front ++ [c] ∧ c.lexeme = .closing := by
  rcases List.eq_nil_or_concat ts with rfl | ⟨front, c, rfl⟩
  · obtain rfl := Except.ok.inj h_run
    exact absurd h_wait (by simp)
  · rw [List.concat_eq_append, run_append] at h_run
    obtain ⟨m₁, -, h_last⟩ := exists_of_bind_eq_ok h_run
    obtain ⟨m₂, h_take, h_end⟩ := exists_of_bind_eq_ok h_last
    obtain rfl := Except.ok.inj h_end
    exact ⟨front, c, List.concat_eq_append, lexeme_eq_closing_of_takeToken h_take h_wait⟩

/-! ### Blame -/

/-- A condition that cannot be finished is one that its fields do not make. -/
theorem Reads.readCondition_of_completeCondition (h : Reads m ts)
    (h_err : m.completeCondition = .error e) :
    m.fields ≠ [] ∧ readCondition m.fields.reverse = .error e := by
  cases h with
  | complete => exact absurd h_err (by simp)
  | @awaiting outer w _ _ fields hb hw hf =>
    -- without fields there is nothing to complete
    have h_ne : fields ≠ [] := by
      rintro rfl
      exact absurd h_err (by simp [Machine.completeCondition, Machine.awaiting])
    refine ⟨h_ne, ?_⟩
    show readCondition fields.reverse = .error e
    rw [completeCondition_awaiting h_ne] at h_err
    cases h_read : readCondition fields.reverse with
    | ok c =>
      rw [h_read] at h_err
      exact absurd h_err (by simp)
    | error e' =>
      rw [h_read] at h_err
      exact congrArg _ (Except.error.inj h_err)

/-- It is to blame, or its comparison is. -/
theorem Reads.blames_of_completeCondition (h : Reads m ts)
    (h_err : m.completeCondition = .error e) (us : List Token) : Blames size (ts ++ us) e := by
  obtain ⟨-, h_read⟩ := h.readCondition_of_completeCondition h_err
  obtain ⟨hf, front, rfl⟩ := h.exists_fields
  rcases error_of_readCondition h_read with ⟨condition, fault, rfl⟩ | ⟨t, ht, h_none, rfl⟩
  · exact .condition condition fault
  · have h_field := hf t (List.mem_reverse.mp ht)
    exact .operator (List.mem_append_left _ (List.mem_append_right _ ht)) h_field h_none (.inl rfl)

/-- **A token that is refused.** Whatever follows it in the text, the error is right about the token
and those in front of it. -/
theorem blames_of_takeToken (h_run : run limits {} ts = .ok m)
    (h_err : m.takeToken limits t = .error e) (us : List Token) :
    Blames size (ts ++ t :: us) e := by
  have h : Reads m ts := Reads.initial.run h_run
  -- one case for each handler
  rcases t.kind with h_field | ⟨op, h_key⟩ | h_open | h_close
  · rcases error_of_takeToken_field h_field h_err with ⟨h_wait, rfl⟩ | ⟨x, h_lex, rfl⟩
    · -- what the level has come to is a group
      obtain ⟨front, c, rfl, hc⟩ := exists_closing_of_run h_run h_wait
      rw [List.append_assoc]
      exact .grouping (.fieldWithoutKeyword hc h_field)
    · have h_none : comparisonOf? t = none := by
        rw [comparisonOf?, h_lex]
      exact .operator (by simp) h_field h_none (.inr h_lex)
  · cases h_done : m.completeCondition with
    | error e' =>
      rw [takeToken_keyword h_key, takeKeyword, h_done, error_bind] at h_err
      obtain rfl := Except.error.inj h_err
      exact h.blames_of_completeCondition h_done _
    | ok m₁ =>
      obtain ⟨outer, us', vs, rfl, hb, -, ⟨w, rfl, hw⟩ | ⟨r, rfl⟩⟩ := h.settled h_done
      · -- an operand is to come, and a keyword is none
        rw [takeToken_awaiting_keyword h_key h_done] at h_err
        obtain rfl := Except.error.inj h_err
        exact .grouping (.noLeftOperand (hb.leadsToOperand hw) h_key)
      · rw [takeToken_complete_keyword h_key h_done] at h_err
        exact absurd h_err (by simp)
  · rcases error_of_takeToken_opening h_open h_err with
      ⟨h_fields, rfl⟩ | ⟨h_wait, rfl⟩ | rfl
    · -- the field that was read last stands in front of the parenthesis
      obtain ⟨h_all, front, rfl⟩ := h.exists_fields
      obtain ⟨s, fields, h_eq⟩ := List.exists_cons_of_ne_nil h_fields
      rw [h_eq] at h_all ⊢
      rw [List.reverse_cons, ← List.append_assoc, List.append_assoc]
      exact .grouping (.openInCondition (h_all s List.mem_cons_self) h_open)
    · obtain ⟨front, c, rfl, hc⟩ := exists_closing_of_run h_run h_wait
      rw [List.append_assoc]
      exact .grouping (.openWithoutKeyword hc h_open)
    · exact .nesting limits.maxDepth
  · cases h_done : m.completeCondition with
    | error e' =>
      rw [takeToken_closing h_close, takeClosing, h_done, error_bind] at h_err
      obtain rfl := Except.error.inj h_err
      exact h.blames_of_completeCondition h_done _
    | ok m₁ =>
      obtain ⟨outer, us', vs, rfl, hb, h_own, h_level⟩ := h.settled h_done
      cases outer with
      | nil =>
        -- no group is open, so all tokens in front are of the top level
        have h_frames : m₁.frames = [] := by
          rcases h_level with ⟨w, rfl, -⟩ | ⟨r, rfl⟩ <;> rfl
        rw [takeToken_top_closing h_close h_done h_frames] at h_err
        obtain rfl := Except.error.inj h_err
        obtain rfl := hb.eq_nil
        exact .grouping (.unmatchedClose h_own h_close)
      | cons l outer =>
        rcases h_level with ⟨w, rfl, hw⟩ | ⟨r, rfl⟩
        · -- the group is empty, or it ends with a keyword
          rw [takeToken_awaiting_closing h_close h_done] at h_err
          obtain rfl := Except.error.inj h_err
          cases hw with
          | nothing => exact .condition "()" .emptyGroup
          | keyword _ hk =>
            rw [if_neg (by simp), ← List.append_assoc, List.append_assoc]
            exact .grouping (.noRightOperand hk h_close)
        · rw [takeToken_complete_closing h_close h_done] at h_err
          exact absurd h_err (by simp)

/-- **A text that is refused at its end.** -/
theorem Reads.blames_of_finish (h : Reads m ts) (h_ne : ts ≠ [])
    (h_err : m.finish size = .error e) : Blames size ts e := by
  cases h_done : m.completeCondition with
  | error e' =>
    rw [Machine.finish, h_done, error_bind] at h_err
    obtain rfl := Except.error.inj h_err
    rw [← List.append_nil ts]
    exact h.blames_of_completeCondition h_done []
  | ok m₁ =>
    obtain ⟨outer, us, vs, rfl, hb, h_own, h_level⟩ := h.settled h_done
    cases outer with
    | cons l outer =>
      have h_frames : m₁.frames = framesOf (l :: outer) := by
        rcases h_level with ⟨w, rfl, -⟩ | ⟨r, rfl⟩ <;> rfl
      rw [finish_of_frames h_done h_frames] at h_err
      obtain rfl := Except.error.inj h_err
      -- the innermost parenthesis is followed by nothing but its own level
      obtain ⟨front, o, rfl, ho, h_offset⟩ := hb.exists_opening
      rw [← h_offset, List.append_assoc]
      exact .grouping (.unmatchedOpen ho h_own)
    | nil =>
      obtain rfl := hb.eq_nil
      rcases h_level with ⟨w, rfl, hw⟩ | ⟨r, rfl⟩
      · rw [finish_of_awaiting h_done] at h_err
        obtain rfl := Except.error.inj h_err
        cases hw with
        -- where nothing waits on the top level, nothing was read at all
        | nothing => exact absurd rfl h_ne
        | keyword _ hk => exact .grouping (.noRightOperandAtEnd hk)
      · rw [finish_of_complete h_done] at h_err
        exact absurd h_err (by simp)

/-- A run that fails has come to a token which is refused. -/
theorem exists_refused_of_run (h_err : run limits m ts = .error e) :
    ∃ front t back m', ts = front ++ t :: back ∧ run limits m front = .ok m' ∧
      m'.takeToken limits t = .error e := by
  induction ts generalizing m with
  | nil => exact absurd h_err (by simp)
  | cons t ts ih =>
    rw [run_cons] at h_err
    -- either this token is refused, or one of those behind it is
    cases h_take : m.takeToken limits t with
    | error e' =>
      rw [h_take, error_bind] at h_err
      obtain rfl := Except.error.inj h_err
      exact ⟨[], t, ts, m, rfl, rfl, h_take⟩
    | ok m₁ =>
      rw [h_take, ok_bind] at h_err
      obtain ⟨front, t', back, m', rfl, h_run, h_refused⟩ := ih h_err
      exact ⟨t :: front, t', back, m', rfl, by rw [run_cons, h_take, ok_bind, h_run], h_refused⟩

end Machine

/-- **Blame is right.** Tokens that are no rule are refused for something that is wrong with them,
and the place is where it is. -/
theorem Rule.blames_of_ofTokens {limits : Limits} {size : Nat} {ts : List Token} {e : ParseError}
    (h_ne : ts ≠ []) (h : Rule.ofTokens limits size ts = .error e) : Blames size ts e := by
  obtain ⟨t, ts, rfl⟩ := List.exists_cons_of_ne_nil h_ne
  rw [Rule.ofTokens] at h
  -- a token was refused on the way, or the text ended too early
  cases h_run : Machine.run limits {} (t :: ts) with
  | error e' =>
    rw [Machine.run] at h_run
    rw [h_run, error_bind] at h
    obtain rfl := Except.error.inj h
    obtain ⟨front, t', back, m, h_split, h_front, h_refused⟩ := Machine.exists_refused_of_run h_run
    rw [h_split]
    exact Machine.blames_of_takeToken h_front h_refused back
  | ok m =>
    have h_reads : Machine.Reads m (t :: ts) := Machine.Reads.initial.run h_run
    rw [Machine.run] at h_run
    rw [h_run, ok_bind] at h
    exact h_reads.blames_of_finish h_ne h

end Eligibility
