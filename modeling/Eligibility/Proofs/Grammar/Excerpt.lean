import Eligibility.Proofs.Grammar.Keyword

/-!
# Errors about conditions stand alone

The error about a condition has the text of the condition, which is its fields with single blanks
between them. Read alone, this text is refused for the same fault, whatever the rule was from which
it was taken, and whatever limits it was read under.

Nothing around a condition has a part in what becomes of its fields. A machine that starts anew
takes the fields that any run holds in its buffer, under all limits (`Machine.HoldsAlone`): a field
is refused only for where it stands, and that is told by the buffer. So the same fields come to the
same fault. That the text has these fields and no others is a case of `Spaced`, as blanks are
written between all of them (`spaced_fieldsText`). The one error about a condition that is not about
fields is that of an empty group, and its text is one.
-/

namespace Eligibility

/-! ### Fields taken alone -/

namespace Machine

variable {limits : Limits} {m m' : Machine} {t : Token} {ts : List Token} {condition : String}
  {fault : ConditionFault} {size : Nat}

/-- **The fields can be taken alone**, from the start and under any limits. -/
def HoldsAlone (m : Machine) : Prop :=
  ∀ limits, run limits {} m.fields.reverse = .ok (awaiting [] none m.fields)

theorem holdsAlone_of_fields_eq_nil (h : m.fields = []) : m.HoldsAlone := by
  intro limits
  rw [h]
  rfl

theorem fields_of_completeOperand {offset : Nat} (h : m.completeOperand offset = .ok m') :
    m'.fields = m.fields := by
  unfold completeOperand at h
  obtain ⟨_, _, h⟩ := exists_of_bind_eq_ok h
  obtain rfl := Except.ok.inj h
  rfl

/-- A condition that is finished leaves no fields. -/
theorem fields_of_completeCondition (h : m.completeCondition = .ok m') : m'.fields = [] := by
  unfold completeCondition at h
  split at h
  · next h_nil =>
    obtain rfl := Except.ok.inj h
    exact List.reverse_eq_nil_iff.mp h_nil
  · obtain ⟨c, -, h⟩ := exists_of_bind_eq_ok h
    exact (fields_of_completeOperand h).trans rfl

/-- A word in a condition is taken, unless it is a miscased keyword in a keyword's place. -/
theorem takeToken_word {x : String} (h : t.isField) (h_lex : t.lexeme = .word x) (m : Machine) :
    m.takeToken limits t
      = if m.keywordDue && isMiscasedKeyword x then .error (.unsupportedOperator x t.offset)
        else m.takeField t := by
  have h_key := Token.keyword?_of_isField h
  unfold Token.keyword? at h_key
  unfold takeToken
  rw [h_lex] at h_key ⊢
  simp only at h_key
  simp only [h_key]

/-- A field that is taken is taken where nothing but the fields before it is the same. -/
theorem takeToken_awaiting_of_fields (h : t.isField) (h_ok : m.takeToken limits t = .ok m')
    (limits' : Limits) :
    (awaiting [] none m.fields).takeToken limits' t = .ok (awaiting [] none (t :: m.fields)) := by
  obtain ⟨h_wait, -⟩ := eq_of_takeToken_field h h_ok
  rcases takeToken_isField h limits' (awaiting [] none m.fields) with
    h_take | ⟨-, x, h_lex, h_refused⟩
  · rw [h_take]
    rfl
  · -- the fields tell whether a keyword is due, so the word would have been refused before
    have h_due : (awaiting [] none m.fields).keywordDue = m.keywordDue := by
      unfold keywordDue
      rw [h_wait]
      rfl
    rw [takeToken_word h h_lex] at h_ok h_refused
    rw [h_due] at h_refused
    split at h_ok
    · exact absurd h_ok (by simp)
    · next h_free =>
      rw [if_neg h_free] at h_refused
      exact absurd h_refused (by simp [takeField, awaiting])

/-- **Every token keeps it that the fields can be taken alone.** -/
theorem HoldsAlone.take (h : m.HoldsAlone) (h_ok : m.takeToken limits t = .ok m') :
    m'.HoldsAlone := by
  -- one case for each handler
  rcases t.kind with h_field | ⟨op, h_key⟩ | h_open | h_close
  · -- the fields before it are taken first
    obtain ⟨-, rfl⟩ := eq_of_takeToken_field h_field h_ok
    intro limits'
    show run limits' {} (t :: m.fields).reverse = .ok (awaiting [] none (t :: m.fields))
    rw [List.reverse_cons, run_append, h limits', ok_bind, run_cons,
      takeToken_awaiting_of_fields h_field h_ok, ok_bind, run_nil]
  · obtain ⟨m₁, h_done, -, rfl⟩ := exists_of_takeToken_keyword h_key h_ok
    have h_fields := fields_of_completeCondition h_done
    exact holdsAlone_of_fields_eq_nil h_fields
  · obtain ⟨h_fields, -, -, rfl⟩ := eq_of_takeToken_opening h_open h_ok
    exact holdsAlone_of_fields_eq_nil h_fields
  · obtain ⟨m₁, f, frames, h_done, -, -, h_push⟩ := exists_of_takeToken_closing h_close h_ok
    have h_fields := fields_of_completeCondition h_done
    exact holdsAlone_of_fields_eq_nil ((fields_of_completeOperand h_push).trans h_fields)

/-- A run keeps it. -/
theorem HoldsAlone.run (h : m.HoldsAlone) (h_ok : run limits m ts = .ok m') : m'.HoldsAlone := by
  induction ts generalizing m with
  | nil =>
    obtain rfl := Except.ok.inj h_ok
    exact h
  | cons t ts ih =>
    rw [run_cons] at h_ok
    obtain ⟨m₁, h_take, h_ok⟩ := exists_of_bind_eq_ok h_ok
    exact ih (h.take h_take) h_ok

/-! ### Where the error comes from -/

/-- A token is refused for a condition if it closes an empty group, or if it shows that the fields
are none. -/
theorem Reads.malformed_of_takeToken (h : Reads m ts)
    (h_err : m.takeToken limits t = .error (.malformedCondition condition fault)) :
    m.completeCondition = .error (.malformedCondition condition fault) ∨
      condition = "()" ∧ fault = .emptyGroup := by
  -- a field or an opening parenthesis is refused with another error; a keyword or a closing one
  -- ends the condition that was begun
  rcases t.kind with h_field | ⟨op, h_key⟩ | h_open | h_close
  · rcases error_of_takeToken_field h_field h_err with ⟨-, h_eq⟩ | ⟨x, -, h_eq⟩
    · exact absurd h_eq (by simp)
    · exact absurd h_eq (by simp)
  · rw [takeToken_keyword h_key, takeKeyword] at h_err
    cases h_done : m.completeCondition with
    | error e =>
      rw [h_done, error_bind] at h_err
      exact .inl h_err
    | ok m₁ =>
      rw [h_done, ok_bind] at h_err
      split at h_err
      · exact absurd h_err (by simp)
      · exact absurd h_err (by simp)
  · rcases error_of_takeToken_opening h_open h_err with ⟨-, h_eq⟩ | ⟨-, h_eq⟩ | h_eq
    · exact absurd h_eq (by simp)
    · exact absurd h_eq (by simp)
    · exact absurd h_eq (by simp)
  · cases h_done : m.completeCondition with
    | error e =>
      rw [takeToken_closing h_close, takeClosing, h_done, error_bind] at h_err
      exact .inl h_err
    | ok m₁ =>
      -- the condition is complete, so what is left to go wrong is the parenthesis itself
      obtain ⟨outer, us, vs, -, -, -, h_level⟩ := h.settled h_done
      cases outer with
      | nil =>
        have h_frames : m₁.frames = [] := by
          rcases h_level with ⟨w, rfl, -⟩ | ⟨r, rfl⟩ <;> rfl
        rw [takeToken_top_closing h_close h_done h_frames] at h_err
        exact absurd h_err (by simp)
      | cons l outer =>
        rcases h_level with ⟨w, rfl, -⟩ | ⟨r, rfl⟩
        · rw [takeToken_awaiting_closing h_close h_done] at h_err
          -- of the faults of the parenthesis only that of an empty group names a condition
          split at h_err
          · obtain ⟨rfl, rfl⟩ := ParseError.malformedCondition.inj (Except.error.inj h_err)
            exact .inr ⟨rfl, rfl⟩
          · exact absurd h_err (by simp)
        · rw [takeToken_complete_closing h_close h_done] at h_err
          exact absurd h_err (by simp)

/-- At the end of the text it is for the last fields. -/
theorem Reads.malformed_of_finish (h : Reads m ts)
    (h_err : m.finish size = .error (.malformedCondition condition fault)) :
    m.completeCondition = .error (.malformedCondition condition fault) := by
  cases h_done : m.completeCondition with
  | error e =>
    rw [Machine.finish, h_done, error_bind] at h_err
    exact congrArg _ (Except.error.inj h_err)
  | ok m₁ =>
    -- all that is left are errors of grouping
    obtain ⟨outer, us, vs, -, -, -, h_level⟩ := h.settled h_done
    cases outer with
    | cons l outer =>
      have h_frames : m₁.frames = framesOf (l :: outer) := by
        rcases h_level with ⟨w, rfl, -⟩ | ⟨r, rfl⟩ <;> rfl
      rw [finish_of_frames h_done h_frames] at h_err
      exact absurd h_err (by simp)
    | nil =>
      rcases h_level with ⟨w, rfl, -⟩ | ⟨r, rfl⟩
      · rw [finish_of_awaiting h_done] at h_err
        exact absurd h_err (by simp)
      · rw [finish_of_complete h_done] at h_err
        exact absurd h_err (by simp)

end Machine

/-- **Tokens are refused for a condition** because a group is empty, or a run over the first of them
has come to fields which are none. -/
theorem Rule.malformed_of_ofTokens {limits : Limits} {size : Nat} {ts : List Token}
    {condition : String} {fault : ConditionFault}
    (h : Rule.ofTokens limits size ts = .error (.malformedCondition condition fault)) :
    condition = "()" ∧ fault = .emptyGroup ∨
      ∃ front back m, ts = front ++ back ∧ Machine.run limits {} front = .ok m ∧
        m.completeCondition = .error (.malformedCondition condition fault) := by
  have h_ne : ts ≠ [] := by
    rintro rfl
    exact absurd h (by simp [Rule.ofTokens])
  rw [Rule.ofTokens_eq_run h_ne] at h
  -- the error comes of a token on the way, or of the end
  cases h_run : Machine.run limits {} ts with
  | error e =>
    rw [h_run, error_bind] at h
    obtain rfl := Except.error.inj h
    obtain ⟨front, t, back, m, h_split, h_front, h_refused⟩ := Machine.exists_refused_of_run h_run
    have h_reads : Machine.Reads m front := Machine.Reads.initial.run h_front
    rcases h_reads.malformed_of_takeToken h_refused with h_done | h_empty
    · exact .inr ⟨front, t :: back, m, h_split, h_front, h_done⟩
    · exact .inl h_empty
  | ok m =>
    rw [h_run, ok_bind] at h
    have h_reads : Machine.Reads m ts := Machine.Reads.initial.run h_run
    exact .inr ⟨ts, [], m, (List.append_nil ts).symm, h_run, h_reads.malformed_of_finish h⟩

/-! ### The text of the fields -/

/-- Fields with single blanks between them are spaced. -/
theorem spaced_fieldsText (fields : List Token) : Spaced fields (fieldsText fields).toList := by
  induction fields with
  | nil => exact .nil (List.forall_mem_nil _)
  | cons t fields ih =>
    -- a blank stands between two fields, and none behind the last
    cases fields with
    | nil =>
      have h_spaced := Spaced.cons (List.forall_mem_nil _) (t := t)
        (fun _ hu => absurd hu (by simp)) ih
      simpa [fieldsText] using h_spaced
    | cons u fields =>
      have h_blank : isBlank ' ' := by decide
      have h_spaced := Spaced.cons (List.forall_mem_nil _) (t := t)
        (fun _ _ _ => ⟨' ', rfl, h_blank⟩) (ih.cons_blank h_blank)
      simpa [fieldsText, String.intercalate_cons_cons, List.append_assoc] using h_spaced

/-- The text in the error is that of the fields. -/
theorem eq_fieldsText_of_readCondition {fields : List Token} {condition : String}
    {fault : ConditionFault}
    (h : readCondition fields = .error (.malformedCondition condition fault)) :
    condition = fieldsText fields := by
  unfold readCondition at h
  split at h
  · -- the name, the comparison or the value is at fault
    split at h
    · exact (ParseError.malformedCondition.inj (Except.error.inj h)).1.symm
    · split at h
      · exact absurd h (by simp)
      · split at h
        · exact (ParseError.malformedCondition.inj (Except.error.inj h)).1.symm
        · exact absurd h (by simp)
  · exact (ParseError.malformedCondition.inj (Except.error.inj h)).1.symm

/-- **Fields alone.** A text of fields that are written as tokens is refused as the fields are. -/
theorem Rule.parse_fieldsText {m : Machine} {condition : String} {fault : ConditionFault}
    (h_alone : m.HoldsAlone) (h_ne : m.fields ≠ [])
    (h_written : ∀ t ∈ m.fields.reverse, Written t.lexeme t.raw.toList)
    (h_read : readCondition m.fields.reverse = .error (.malformedCondition condition fault))
    (limits : Limits) :
    Rule.parse limits (fieldsText m.fields.reverse)
      = .error (.malformedCondition condition fault) := by
  have h_fields : Rule.ofTokens limits 0 m.fields.reverse
      = .error (.malformedCondition condition fault) := by
    rw [Rule.ofTokens_eq_run (List.reverse_ne_nil_iff.mpr h_ne), h_alone limits, ok_bind,
      Machine.finish, Machine.completeCondition_awaiting h_ne, h_read]
    rfl
  -- the text has these tokens, in places of its own
  obtain ⟨us, h_us, h_spelling⟩ := (spaced_fieldsText _).exists_tiling h_written []
  rw [Rule.parse, tokenize_of_tiling h_us, ok_bind]
  exact Rule.malformedCondition_of_spelling h_spelling h_fields

/-- **Errors about conditions stand alone.** Where a text is refused for a condition, under any
limits, the text of the condition that is in the error is refused for the same condition and the
same fault, under those that hold unless said otherwise. -/
theorem Rule.parse_condition_of_error {limits : Limits} {text condition : String}
    {fault : ConditionFault}
    (h : Rule.parse limits text = .error (.malformedCondition condition fault)) :
    Rule.parse default condition = .error (.malformedCondition condition fault) := by
  rcases tiling_or_unclosed [] text.toList with
    ⟨ts, h_tiling⟩ | ⟨front, quote, back, ts, h_text, h_quote, h_unclosed, h_tiling⟩
  · rw [Rule.parse, tokenize_of_tiling h_tiling, ok_bind] at h
    rcases Rule.malformed_of_ofTokens h with ⟨rfl, rfl⟩ | ⟨front, back, m, rfl, h_run, h_done⟩
    · -- the error about an empty group quotes an empty group
      decide +kernel
    · have h_reads : Machine.Reads m front := Machine.Reads.initial.run h_run
      have h_alone := (Machine.holdsAlone_of_fields_eq_nil rfl).run h_run
      -- the condition is the fields that the machine had collected, and these are read alone as
      -- they were in their place
      obtain ⟨h_ne, h_read⟩ := h_reads.readCondition_of_completeCondition h_done
      obtain ⟨-, before, rfl⟩ := h_reads.exists_fields
      obtain rfl := eq_fieldsText_of_readCondition h_read
      refine Rule.parse_fieldsText h_alone h_ne (fun t ht => h_tiling.written t ?_) h_read default
      exact List.mem_append_left _ (List.mem_append_right _ ht)
  · -- a text that is not tokenized has another error
    rw [Rule.parse, tokenize_of_unclosed h_text h_quote h_unclosed h_tiling, error_bind] at h
    exact absurd h (by simp)

/-- Four fields behind a keyword. The text in the error parts what is not parted in the rule, and it
keeps the blanks in quotes. -/
theorem Rule.parse_condition_of_error_glued :
    let text := "(x = 1) AND 'a  b'>\t\"c\"d"
    let condition := "'a  b' > \"c\" d"
    let e := ParseError.malformedCondition condition (.fieldCount 4)
    Rule.parse ⟨1⟩ text = .error e ∧ Rule.parse default condition = .error e := by
  intro text condition e
  have h : Rule.parse ⟨1⟩ text = .error e := by decide +kernel
  exact ⟨h, Rule.parse_condition_of_error h⟩

end Eligibility
