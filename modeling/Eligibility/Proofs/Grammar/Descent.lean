import Eligibility.Proofs.Grammar.Derivation

/-!
# Reading by descent

The grammar read off as a program: one function for each kind of phrase, which takes the phrase off
the front of the tokens and calls the others for its parts. It knows no stacks and reports no
errors. The nesting limit is the depth of the recursion.

Main result: `descend_eq_some_iff`, which says that this reader finds exactly the derivations whose
nesting is within the limit.
-/

namespace Eligibility

namespace Descent

/-- A reader takes a phrase off the front of a token list, and leaves a shorter one. -/
abbrev Reader :=
  (ts : List Token) → Option (Rule × { rest : List Token // rest.length < ts.length })

/-- Reads a condition. -/
def condition : Reader
  | s :: o :: v :: rest =>
    if s.isField && o.isField && v.isField then
      match readCondition [s, o, v] with
      | .ok c => some (.test c, ⟨rest, by simp only [List.length_cons]; omega⟩)
      | .error _ => none
    else none
  | _ => none

/-- Reads as many keywords and operands as there are, behind an expression that was read. -/
def joined (operand : Reader) (left : Rule) (ts : List Token) :
    Option (Rule × { rest : List Token // rest.length ≤ ts.length }) :=
  match ts with
  | [] => some (left, ⟨[], Nat.le_refl _⟩)
  | k :: us =>
    match k.keyword? with
    | none => some (left, ⟨k :: us, Nat.le_refl _⟩)
    | some op =>
      match operand us with
      | none => none
      | some (right, ⟨rest, h⟩) =>
        (joined operand (.join op left right) rest).map fun p =>
          (p.1, ⟨p.2.1, by have := p.2.2; simp only [List.length_cons]; omega⟩)
termination_by ts.length
decreasing_by simp only [List.length_cons]; omega

/-- Reads an expression. -/
def expression (operand : Reader) : Reader := fun ts =>
  match operand ts with
  | none => none
  | some (left, ⟨rest, h⟩) =>
    (joined operand left rest).map fun p => (p.1, ⟨p.2.1, Nat.lt_of_le_of_lt p.2.2 h⟩)

/-- Reads an expression in parentheses. -/
def group (expression : Reader) : Reader
  | o :: ts =>
    if o.lexeme = .opening then
      match expression ts with
      | some (r, ⟨c :: rest, h⟩) =>
        if c.lexeme = .closing then
          some (r, ⟨rest, by simp only [List.length_cons] at h ⊢; omega⟩)
        else none
      | _ => none
    else none
  | [] => none

/-- Reads an operand whose parentheses nest at most `limit` levels deep. -/
def operand : (limit : Nat) → Reader
  | 0 => condition
  | limit + 1 => fun ts => (group (expression (operand limit)) ts).or (condition ts)

end Descent

/-- The rule of a token list, if there is one within the nesting limit. -/
def descend (limit : Nat) (ts : List Token) : Option Rule :=
  match Descent.expression (Descent.operand limit) ts with
  | some (r, ⟨[], _⟩) => some r
  | _ => none

namespace Descent

/-- The reader takes exactly the tokens before `rest`. -/
def Takes (p : Reader) (ts : List Token) (r : Rule) (rest : List Token) : Prop :=
  ∃ h, p ts = some (r, ⟨rest, h⟩)

theorem condition_takes_iff {ts rest : List Token} {r : Rule} :
    Takes condition ts r rest ↔
      ∃ s o v c, ts = s :: o :: v :: rest ∧ r = .test c ∧ s.isField ∧ o.isField ∧ v.isField ∧
        readCondition [s, o, v] = .ok c := by
  constructor
  · rintro ⟨h, h_eq⟩
    unfold condition at h_eq
    split at h_eq
    · -- the only way through the reader: three fields that make a condition
      next s o v rest' =>
      split at h_eq
      · next h_fields =>
        split at h_eq
        · next c hc =>
          simp only [Option.some.injEq, Prod.mk.injEq, Subtype.mk.injEq] at h_eq
          obtain ⟨rfl, rfl⟩ := h_eq
          simp only [Bool.and_eq_true] at h_fields
          exact ⟨s, o, v, c, rfl, rfl, h_fields.1.1, h_fields.1.2, h_fields.2, hc⟩
        · exact absurd h_eq (by simp)
      · exact absurd h_eq (by simp)
    · exact absurd h_eq (by simp)
  · rintro ⟨s, o, v, c, rfl, rfl, hs, ho, hv, hc⟩
    -- the tokens before `rest` are the three fields
    refine ⟨by simp only [List.length_cons]; omega, ?_⟩
    simp [condition, hs, ho, hv, hc]

theorem group_takes_iff {expression : Reader} {ts rest : List Token} {r : Rule} :
    Takes (group expression) ts r rest ↔
      ∃ o us c, ts = o :: us ∧ o.lexeme = .opening ∧ c.lexeme = .closing ∧
        Takes expression us r (c :: rest) := by
  constructor
  · rintro ⟨h, h_eq⟩
    unfold group at h_eq
    split at h_eq
    · -- the only way through the reader: both parentheses, and an expression between them
      next o us =>
      split at h_eq
      · next ho =>
        split at h_eq
        · next c rest' h' h_inner =>
          split at h_eq
          · next hc =>
            simp only [Option.some.injEq, Prod.mk.injEq, Subtype.mk.injEq] at h_eq
            obtain ⟨rfl, rfl⟩ := h_eq
            exact ⟨o, us, c, rfl, ho, hc, h', h_inner⟩
          · exact absurd h_eq (by simp)
        · exact absurd h_eq (by simp)
      · exact absurd h_eq (by simp)
    · exact absurd h_eq (by simp)
  · rintro ⟨o, us, c, rfl, ho, hc, h, h_inner⟩
    refine ⟨by simp only [List.length_cons] at h ⊢; omega, ?_⟩
    simp [group, ho, hc, h_inner]

/-- The reader of keywords and operands takes exactly the tokens before `rest`. -/
def Joins (p : Reader) (left : Rule) (ts : List Token) (r : Rule) (rest : List Token) : Prop :=
  ∃ h, joined p left ts = some (r, ⟨rest, h⟩)

theorem joins_nil (p : Reader) (left : Rule) : Joins p left [] left [] :=
  ⟨Nat.le_refl _, by rw [joined]⟩

/-- Behind an expression there is a keyword and an operand, or the expression ends. -/
theorem joins_cons_iff {p : Reader} {left r : Rule} {k : Token} {us rest : List Token} :
    Joins p left (k :: us) r rest ↔
      (k.keyword? = none ∧ r = left ∧ rest = k :: us) ∨
        ∃ op right rest', k.keyword? = some op ∧ Takes p us right rest' ∧
          Joins p (.join op left right) rest' r rest := by
  constructor
  · rintro ⟨h, h_eq⟩
    -- the reader stops in front of a token that is no keyword
    rw [joined] at h_eq
    cases hk : k.keyword? with
    | none =>
      simp only [hk, Option.some.injEq, Prod.mk.injEq, Subtype.mk.injEq] at h_eq
      exact .inl ⟨rfl, h_eq.1.symm, h_eq.2.symm⟩
    | some op =>
      simp only [hk] at h_eq
      split at h_eq
      · exact absurd h_eq (by simp)
      · -- one operand was read, and the reader went on behind it
        next right rest' h' h_op =>
        obtain ⟨⟨r', rest'', h''⟩, h_join, h_eq⟩ := Option.map_eq_some_iff.mp h_eq
        simp only [Prod.mk.injEq, Subtype.mk.injEq] at h_eq
        obtain ⟨rfl, rfl⟩ := h_eq
        exact .inr ⟨op, right, rest', rfl, ⟨h', h_op⟩, ⟨h'', h_join⟩⟩
  · rintro (⟨hk, rfl, rfl⟩ | ⟨op, right, rest', hk, ⟨h', h_op⟩, ⟨h'', h_join⟩⟩)
    · exact ⟨Nat.le_refl _, by rw [joined]; simp [hk]⟩
    · refine ⟨by simp only [List.length_cons]; omega, ?_⟩
      rw [joined]
      simp [hk, h_op, h_join]

theorem expression_takes_iff {p : Reader} {ts rest : List Token} {r : Rule} :
    Takes (expression p) ts r rest ↔
      ∃ left rest', Takes p ts left rest' ∧ Joins p left rest' r rest := by
  constructor
  · rintro ⟨h, h_eq⟩
    unfold expression at h_eq
    split at h_eq
    · exact absurd h_eq (by simp)
    · next left rest' h' h_op =>
      obtain ⟨⟨r', rest'', h''⟩, h_join, h_eq⟩ := Option.map_eq_some_iff.mp h_eq
      simp only [Prod.mk.injEq, Subtype.mk.injEq] at h_eq
      obtain ⟨rfl, rfl⟩ := h_eq
      exact ⟨left, rest', ⟨h', h_op⟩, ⟨h'', h_join⟩⟩
  · rintro ⟨left, rest', ⟨h', h_op⟩, ⟨h'', h_join⟩⟩
    -- the operand takes a token, so the whole does
    refine ⟨Nat.lt_of_le_of_lt h'' h', ?_⟩
    simp [expression, h_op, h_join]

/-! ### The readers and the grammar -/

/-- The reader takes exactly the operands within the nesting limit. -/
def TakesOperands (p : Reader) (limit : Nat) : Prop :=
  ∀ ts r rest, Takes p ts r rest ↔
    ∃ us, ts = us ++ rest ∧ Derives .operand us r ∧ nesting us ≤ limit

variable {p : Reader} {limit : Nat}

/-- What is read behind an expression continues the expression. -/
theorem TakesOperands.derives_of_joins (hp : TakesOperands p limit) {left r : Rule}
    {pre ts rest : List Token} (h : Joins p left ts r rest) (h_left : Derives .expression pre left)
    (h_deep : nesting pre ≤ limit) :
    ∃ us, ts = us ++ rest ∧ Derives .expression (pre ++ us) r ∧ nesting (pre ++ us) ≤ limit := by
  -- on the number of tokens left: after an operand the expression read so far is longer by it,
  -- and the induction goes on from there
  induction h_len : ts.length using Nat.strongRecOn generalizing left pre ts with
  | ind n ih =>
    cases ts with
    | nil =>
      obtain ⟨h_le, h_eq⟩ := h
      rw [joined] at h_eq
      simp only [Option.some.injEq, Prod.mk.injEq, Subtype.mk.injEq] at h_eq
      obtain ⟨rfl, rfl⟩ := h_eq
      exact ⟨[], rfl, by rwa [List.append_nil], by rwa [List.append_nil]⟩
    | cons k us =>
      rcases joins_cons_iff.mp h with ⟨-, rfl, rfl⟩ | ⟨op, right, rest', hk, h_take, h_join⟩
      · -- the expression ends in front of `k`
        exact ⟨[], rfl, by rwa [List.append_nil], by rwa [List.append_nil]⟩
      · -- the keyword `k` joins the expression with the operand behind it
        obtain ⟨vs, rfl, h_right, h_deep'⟩ := (hp us right rest').mp h_take
        have h_all : nesting (pre ++ k :: vs) ≤ limit := by
          rw [nesting, deepest_joined h_left hk]
          exact Nat.max_le.mpr ⟨h_deep, h_deep'⟩
        obtain ⟨ws, rfl, h_all, h_deep⟩ :=
          ih rest'.length (by simp only [List.length_cons, List.length_append] at h_len; omega)
            h_join (.joined h_left hk h_right) h_all rfl
        exact ⟨k :: vs ++ ws, by simp, by simpa using h_all, by simpa using h_deep⟩

/-- An expression is read from any tokens that begin with it, and reading goes on behind it. -/
theorem TakesOperands.takes_expression (hp : TakesOperands p limit) {phrase : Phrase}
    {us : List Token} {left : Rule} (h : Derives phrase us left) (h_phrase : phrase = .expression)
    (h_deep : nesting us ≤ limit) {ts rest : List Token} {r : Rule}
    (h_join : Joins p left ts r rest) : Takes (expression p) (us ++ ts) r rest := by
  -- along the derivation, which takes keywords off the end, while the reader takes them off the
  -- front: what is still to be read behind the phrase is carried in `h_join`
  induction h generalizing ts with
  | condition => exact absurd h_phrase (by simp)
  | group => exact absurd h_phrase (by simp)
  | @single us left h =>
    exact expression_takes_iff.mpr ⟨left, ts, (hp _ _ _).mpr ⟨us, rfl, h, h_deep⟩, h_join⟩
  | @joined k op ts' us left right hl hk hr ihl ihr =>
    rw [nesting, deepest_joined hl hk] at h_deep
    have h_take : Takes p (us ++ ts) right ts :=
      (hp _ _ _).mpr ⟨us, rfl, hr, Nat.le_trans (Nat.le_max_right _ _) h_deep⟩
    rw [List.append_assoc]
    exact ihl rfl (Nat.le_trans (Nat.le_max_left _ _) h_deep)
      (joins_cons_iff.mpr (.inr ⟨op, right, ts, hk, h_take, h_join⟩))

/-- An expression that was read is one of the grammar. -/
theorem TakesOperands.derives_of_takes (hp : TakesOperands p limit) {ts rest : List Token}
    {r : Rule} (h : Takes (expression p) ts r rest) :
    ∃ us, ts = us ++ rest ∧ Derives .expression us r ∧ nesting us ≤ limit := by
  obtain ⟨left, rest', h_take, h_join⟩ := expression_takes_iff.mp h
  obtain ⟨us, rfl, h_left, h_deep⟩ := (hp _ _ _).mp h_take
  obtain ⟨vs, rfl, h_all, h_deep⟩ := hp.derives_of_joins h_join (.single h_left) h_deep
  exact ⟨us ++ vs, (List.append_assoc us vs rest).symm, h_all, h_deep⟩

/-- A group is read as one operand if what it holds is read as one expression. -/
theorem TakesOperands.takes_group (hp : TakesOperands p limit) {ts rest : List Token} {r : Rule} :
    Takes (group (expression p)) ts r rest ↔
      ∃ o us c, ts = o :: (us ++ c :: rest) ∧ o.lexeme = .opening ∧ c.lexeme = .closing ∧
        Derives .expression us r ∧ nesting us ≤ limit := by
  rw [group_takes_iff]
  constructor
  · rintro ⟨o, us, c, rfl, ho, hc, h_take⟩
    obtain ⟨us, rfl, h, h_deep⟩ := hp.derives_of_takes h_take
    exact ⟨o, us, c, rfl, ho, hc, h, h_deep⟩
  · rintro ⟨o, us, c, rfl, ho, hc, h, h_deep⟩
    refine ⟨o, us ++ c :: rest, c, rfl, ho, hc, hp.takes_expression h rfl h_deep ?_⟩
    -- a parenthesis is no keyword, so the expression ends here
    have h_key : c.keyword? = none := by
      cases hk : c.keyword? with
      | none => rfl
      | some op => exact absurd hc (Token.lexeme_ne_closing_of_keyword? hk)
    exact joins_cons_iff.mpr (.inl ⟨h_key, rfl, rfl⟩)

/-- Tokens that are read as a condition are not read as a group. -/
theorem group_eq_none {expression : Reader} {ts rest : List Token} {r : Rule}
    (h : Takes condition ts r rest) : group expression ts = none := by
  obtain ⟨s, o, v, c, rfl, -, hs, -⟩ := condition_takes_iff.mp h
  exact if_neg (Token.lexeme_ne_opening_of_isField hs)

theorem operand_succ_takes_iff {limit : Nat} {ts rest : List Token} {r : Rule} :
    Takes (operand (limit + 1)) ts r rest ↔
      Takes (group (expression (operand limit))) ts r rest ∨ Takes condition ts r rest := by
  constructor
  · rintro ⟨h, h_eq⟩
    rcases Option.or_eq_some_iff.mp h_eq with h_eq | ⟨-, h_eq⟩
    · exact .inl ⟨h, h_eq⟩
    · exact .inr ⟨h, h_eq⟩
  · rintro (⟨h, h_eq⟩ | ⟨h, h_eq⟩)
    · exact ⟨h, Option.or_eq_some_iff.mpr (.inl h_eq)⟩
    · -- the group is tried first, but on these tokens it fails
      exact ⟨h, Option.or_eq_some_iff.mpr (.inr ⟨group_eq_none ⟨h, h_eq⟩, h_eq⟩)⟩

/-- **The operands of the grammar.** With every level of recursion goes one of nesting. -/
theorem takesOperands_operand (limit : Nat) : TakesOperands (operand limit) limit := by
  induction limit with
  | zero =>
    intro ts r rest
    constructor
    · -- without a level to spare only conditions are read
      intro h
      obtain ⟨s, o, v, c, rfl, rfl, hs, ho, hv, hc⟩ := condition_takes_iff.mp h
      exact ⟨[s, o, v], rfl, .condition hs ho hv hc, Nat.le_of_eq (nesting_condition hs ho hv)⟩
    · rintro ⟨us, rfl, h, h_deep⟩
      cases h with
      | condition hs ho hv hc =>
        exact condition_takes_iff.mpr ⟨_, _, _, _, rfl, rfl, hs, ho, hv, hc⟩
      | group ho hc h =>
        -- a group would need a level
        rw [nesting_group ho hc h] at h_deep
        exact absurd h_deep (Nat.not_succ_le_zero _)
  | succ limit ih =>
    intro ts r rest
    -- the readers of groups and of conditions are the two ways to derive an operand
    rw [operand_succ_takes_iff, ih.takes_group, condition_takes_iff]
    constructor
    · rintro (⟨o, us, c, rfl, ho, hc, h, h_deep⟩ | ⟨s, o, v, c, rfl, rfl, hs, ho, hv, hc⟩)
      · refine ⟨o :: (us ++ [c]), by simp, .group ho hc h, ?_⟩
        rw [nesting_group ho hc h]
        exact Nat.succ_le_succ h_deep
      · exact ⟨[s, o, v], rfl, .condition hs ho hv hc,
          nesting_condition hs ho hv ▸ Nat.zero_le _⟩
    · rintro ⟨us, rfl, h, h_deep⟩
      cases h with
      | condition hs ho hv hc => exact .inr ⟨_, _, _, _, rfl, rfl, hs, ho, hv, hc⟩
      | group ho hc h =>
        rw [nesting_group ho hc h] at h_deep
        exact .inl ⟨_, _, _, by simp, ho, hc, h, Nat.le_of_succ_le_succ h_deep⟩

end Descent

/-- **Descent and the grammar agree.** Reading by descent finds the rule of a token list exactly if
the grammar derives it from the tokens and their nesting is within the limit. -/
theorem descend_eq_some_iff {limit : Nat} {ts : List Token} {r : Rule} :
    descend limit ts = some r ↔ Derives .expression ts r ∧ nesting ts ≤ limit := by
  -- the reader of operands is right at every level, so the expression around them is
  have hp := Descent.takesOperands_operand limit
  constructor
  · intro h
    unfold descend at h
    split at h
    · next r' h_lt h_eq =>
      obtain rfl := Option.some.inj h
      obtain ⟨us, rfl, h, h_deep⟩ := hp.derives_of_takes ⟨h_lt, h_eq⟩
      rw [List.append_nil]
      exact ⟨h, h_deep⟩
    · exact absurd h (by simp)
  · rintro ⟨h, h_deep⟩
    have h_take := hp.takes_expression h rfl h_deep (Descent.joins_nil _ r)
    rw [List.append_nil] at h_take
    obtain ⟨h_lt, h_eq⟩ := h_take
    rw [descend, h_eq]

end Eligibility
