import Eligibility.Proofs.Grammar.Location
import Eligibility.Proofs.Grammar.Relocation

/-!
# Spacing does not matter

The tokens of a text can be written again with other blanks. Any blanks will do, and between two
tokens there need not be any, unless the second would go on with the first: two words or two runs of
comparison characters have to be kept apart (`Lexeme.fusesWith`). `Spaced ts cs` says that the
characters `cs` are the tokens `ts`, written like this.

A spaced text is tiled by tokens that are spelled as those it was made from
(`Spaced.exists_tiling`). The only thing that has to be looked at is the seam between two
neighbours, and what decides there is the first character of the second one. A tiled text is spaced,
too (`Tiling.spaced`), so nothing is lost between the two.

As the offsets of a tiling increase, tokens that are spelled alike are related by a map of offsets,
which takes the end of the one text to the end of the other (`Tiling.exists_relocation`). The reader
commutes with such a map. So the two texts come to the same rule, or to the same error about the
same token: `Rule.parse_of_spaced`.
-/

namespace Eligibility

/-- Written side by side, the two would be read as one token. -/
def Lexeme.fusesWith : Lexeme → Lexeme → Bool
  | .word _, .word _ => true
  | .symbol _, .symbol _ => true
  | _, _ => false

/-- **The tokens are written as these characters**, in their order and each as it is. Around them
and between any two there are blanks, or none; but tokens that would fuse are kept apart. -/
inductive Spaced : List Token → List Char → Prop
  | nil {gap : List Char} (h_gap : ∀ c ∈ gap, isBlank c) : Spaced [] gap
  | cons {gap rest : List Char} {t : Token} {ts : List Token} (h_gap : ∀ c ∈ gap, isBlank c)
      (h_apart : ∀ u ∈ ts.head?, t.lexeme.fusesWith u.lexeme → ∃ c ∈ rest.head?, isBlank c)
      (h : Spaced ts rest) : Spaced (t :: ts) (gap ++ t.raw.toList ++ rest)

/-- The first gap can be made longer. -/
theorem Spaced.cons_blank {c : Char} {ts : List Token} {cs : List Char} (h_blank : isBlank c)
    (h : Spaced ts cs) : Spaced ts (c :: cs) := by
  cases h with
  | nil h_gap => exact .nil (List.forall_mem_cons.mpr ⟨h_blank, h_gap⟩)
  | cons h_gap h_apart h => exact .cons (List.forall_mem_cons.mpr ⟨h_blank, h_gap⟩) h_apart h

/-! ### Seams -/

/-- No run goes on with a blank. -/
theorem Lexeme.goesOnWith_of_isBlank (lexeme : Lexeme) {c : Char} (h : isBlank c) :
    lexeme.goesOnWith c = false := by
  cases lexeme with
  | word _ =>
    show isWordChar c = false
    simp [isWordChar, h]
  | symbol _ =>
    show isComparisonChar c = false
    by_contra h_cmp
    have h_not := isBlank_of_isComparisonChar (Bool.not_eq_false _ ▸ h_cmp)
    exact absurd (h_not.symm.trans h) (by decide)
  | opening => rfl
  | closing => rfl
  | quoted _ => rfl

/-- A run goes on with the first character of a token only if the two are of one kind. -/
theorem Written.fusesWith_iff {lexeme other : Lexeme} {c : Char} {raw : List Char}
    (h : Written lexeme (c :: raw)) : other.fusesWith lexeme = other.goesOnWith c := by
  cases h with
  | opening => cases other <;> rfl
  | closing => cases other <;> rfl
  | quoted h_quote _ => rcases h_quote with rfl | rfl <;> cases other <;> rfl
  -- whether two tokens fuse is told by the first character of the second
  | symbol _ h_run =>
    have h_cmp := h_run c List.mem_cons_self
    have h_word : isWordChar c = false := by simp [isWordChar, h_cmp]
    cases other with
    | symbol _ => exact h_cmp.symm
    | word _ => exact h_word.symm
    | _ => rfl
  | word _ h_run =>
    have h_word := h_run c List.mem_cons_self
    have h_cmp := (isWordChar_iff.mp h_word).2.2.2.2
    cases other with
    | symbol _ => exact h_cmp.symm
    | word _ => exact h_word.symm
    | _ => rfl

/-- A token ends in front of what comes next in a spaced text. -/
theorem Spaced.endsBefore {lexeme : Lexeme} {ts : List Token} {rest : List Char}
    (h : Spaced ts rest) (h_written : ∀ t ∈ ts, Written t.lexeme t.raw.toList)
    (h_apart : ∀ u ∈ ts.head?, lexeme.fusesWith u.lexeme → ∃ c ∈ rest.head?, isBlank c) :
    lexeme.EndsBefore rest := by
  intro c hc
  by_cases h_blank : isBlank c
  · exact lexeme.goesOnWith_of_isBlank h_blank
  · -- then the next token begins here, and it is none that would fuse
    cases h with
    | nil h_gap => exact absurd (h_gap c (List.mem_of_mem_head? hc)) h_blank
    | @cons gap rest u ts h_gap _ _ =>
      cases gap with
      | cons d gap =>
        obtain rfl := Option.some.inj hc
        exact absurd (h_gap d List.mem_cons_self) h_blank
      | nil =>
        have h_u := h_written u List.mem_cons_self
        obtain ⟨d, raw, h_raw⟩ := List.exists_cons_of_ne_nil h_u.ne_nil
        rw [h_raw] at h_u hc h_apart
        obtain rfl : d = c := Option.some.inj hc
        rw [← h_u.fusesWith_iff, ← Bool.not_eq_true]
        intro h_fuses
        obtain ⟨d', hd', h_blank'⟩ := h_apart u rfl h_fuses
        obtain rfl := Option.some.inj hd'
        exact h_blank h_blank'

/-! ### Spaced texts and tilings -/

theorem Tiling.written {before cs : List Char} {ts : List Token} (h : Tiling before cs ts) :
    ∀ t ∈ ts, Written t.lexeme t.raw.toList := by
  induction h with
  | blanks => exact List.forall_mem_nil _
  | token _ h_raw _ _ ih =>
    refine List.forall_mem_cons.mpr ⟨?_, ih⟩
    rwa [String.toList_ofList]

/-- **A spaced text is tiled** by tokens that are spelled alike, wherever it stands. -/
theorem Spaced.exists_tiling {ts : List Token} {cs : List Char} (h : Spaced ts cs)
    (h_written : ∀ t ∈ ts, Written t.lexeme t.raw.toList) (before : List Char) :
    ∃ us, Tiling before cs us ∧ us.map Token.spelling = ts.map Token.spelling := by
  -- on the tokens, with anything in front
  induction h generalizing before with
  | nil h_gap => exact ⟨[], .blanks h_gap, rfl⟩
  | @cons gap rest t ts h_gap h_apart h ih =>
    obtain ⟨h_t, h_written⟩ := List.forall_mem_cons.mp h_written
    obtain ⟨us, h_tiling, h_us⟩ := ih h_written (before ++ gap ++ t.raw.toList)
    refine ⟨_, .token h_gap h_t (h.endsBefore h_written h_apart) h_tiling, ?_⟩
    rw [List.map_cons, List.map_cons, h_us, String.ofList_toList]
    rfl

/-- A tiled text is spaced: what would fuse with a token does not follow it at once. -/
theorem Tiling.spaced {before cs : List Char} {ts : List Token} (h : Tiling before cs ts) :
    Spaced ts cs := by
  induction h with
  | blanks h_gap => exact .nil h_gap
  | @token before gap raw rest lexeme ts h_gap h_raw h_end h_rest ih =>
    -- where two tokens would fuse there is a gap, or the first would not have ended there
    have h_apart : ∀ u ∈ ts.head?, lexeme.fusesWith u.lexeme →
        ∃ c ∈ rest.head?, isBlank c := by
      intro u hu h_fuses
      cases h_rest with
      | blanks => exact absurd hu (by simp)
      | @token _ gap raw rest lexeme' ts h_gap h_raw _ _ =>
        obtain rfl := Option.some.inj hu
        cases gap with
        | cons c gap => exact ⟨c, rfl, h_gap c List.mem_cons_self⟩
        | nil =>
          obtain ⟨c, raw, rfl⟩ := List.exists_cons_of_ne_nil h_raw.ne_nil
          have h_on := h_end c rfl
          rw [← h_raw.fusesWith_iff] at h_on
          exact absurd (h_on.symm.trans h_fuses) (by decide)
    have h_spaced := Spaced.cons (t := ⟨lexeme, (String.ofList (before ++ gap)).utf8ByteSize,
      String.ofList raw⟩) h_gap h_apart ih
    rwa [String.toList_ofList] at h_spaced

/-! ### Old and new places -/

theorem utf8ByteSize_lt_append (before : List Char) {raw : List Char} (h : raw ≠ []) :
    (String.ofList before).utf8ByteSize < (String.ofList (before ++ raw)).utf8ByteSize := by
  have h_pos : (String.ofList raw).utf8ByteSize ≠ 0 := fun h_zero =>
    h (String.ofList_eq_empty_iff.mp (String.utf8ByteSize_eq_zero_iff.mp h_zero))
  rw [utf8ByteSize_append]
  omega

/-- The tokens of a tiling lie behind what is in front of it. -/
theorem Tiling.le_offset {before cs : List Char} {ts : List Token} (h : Tiling before cs ts) :
    ∀ t ∈ ts, (String.ofList before).utf8ByteSize ≤ t.offset := by
  induction h with
  | blanks => exact List.forall_mem_nil _
  | @token before gap raw rest lexeme ts _ _ _ _ ih =>
    have h_gap : (String.ofList before).utf8ByteSize
        ≤ (String.ofList (before ++ gap)).utf8ByteSize := by
      rw [utf8ByteSize_append]
      exact Nat.le_add_right _ _
    refine List.forall_mem_cons.mpr ⟨h_gap, fun t ht => h_gap.trans ?_⟩
    -- the tokens behind start no earlier than where this one ends
    refine Nat.le_trans ?_ (ih t ht)
    rw [utf8ByteSize_append (before ++ gap) raw]
    exact Nat.le_add_right _ _

/-- **Tokens that are spelled alike differ by a map of offsets**, which takes the end of the one
text to the end of the other. -/
theorem Tiling.exists_relocation {before before' cs cs' : List Char} {ts us : List Token}
    (h : Tiling before cs ts) (h' : Tiling before' cs' us)
    (h_spelling : us.map Token.spelling = ts.map Token.spelling) :
    ∃ move : Nat → Nat, us = ts.map (Token.relocate move) ∧
      move (String.ofList (before ++ cs)).utf8ByteSize
        = (String.ofList (before' ++ cs')).utf8ByteSize := by
  -- on both tilings, token by token
  induction h generalizing before' cs' us with
  | blanks =>
    obtain rfl := List.map_eq_nil_iff.mp h_spelling
    exact ⟨fun _ => _, rfl, rfl⟩
  | @token before gap raw rest lexeme ts h_gap h_raw _ h_rest ih =>
    cases h' with
    | blanks => exact absurd h_spelling (by simp)
    | @token _ gap' raw' rest' lexeme' us _ _ _ h_rest' =>
      obtain ⟨h_head, h_tail⟩ := List.cons.inj h_spelling
      obtain ⟨rfl, h_written⟩ := Prod.mk.inj h_head
      obtain ⟨move, h_us, h_end⟩ := ih h_rest' h_tail
      -- the place of the first token is none of the places behind it, so its image is free
      let place := (String.ofList (before ++ gap)).utf8ByteSize
      let place' := (String.ofList (before' ++ gap')).utf8ByteSize
      have h_behind : ∀ n, (String.ofList (before ++ gap ++ raw)).utf8ByteSize ≤ n →
          Function.update move place place' n = move n := by
        intro n h_le
        refine Function.update_of_ne ?_ place' move
        exact (Nat.lt_of_lt_of_le (utf8ByteSize_lt_append (before ++ gap) h_raw.ne_nil) h_le).ne'
      refine ⟨Function.update move place place', ?_, ?_⟩
      · show _ :: us = _ :: ts.map (Token.relocate (Function.update move place place'))
        congr 1
        · show _ = Token.mk _ (Function.update move place place' place) _
          rw [Function.update_self]
          exact congrArg _ h_written
        · rw [h_us]
          refine List.map_congr_left fun t ht => ?_
          rw [Token.relocate, Token.relocate, h_behind t.offset (h_rest.le_offset t ht)]
      · have h_assoc : before ++ (gap ++ raw ++ rest) = before ++ gap ++ raw ++ rest := by simp
        have h_assoc' : before' ++ (gap' ++ raw' ++ rest') = before' ++ gap' ++ raw' ++ rest' := by
          simp
        rw [h_assoc, h_assoc', h_behind, h_end]
        rw [utf8ByteSize_append (before ++ gap ++ raw) rest]
        exact Nat.le_add_right _ _

/-! ### Reading spaced texts -/

/-- The place in an error of a tokenized text is that of one of its tokens, or the end. -/
theorem Rule.offset_of_parse_error {limits : Limits} {text : String} {ts : List Token}
    {e : ParseError} (h : tokenize text = .ok ts) (h_err : Rule.parse limits text = .error e) :
    ∀ offset ∈ e.offset?, offset = text.utf8ByteSize ∨ ∃ t ∈ ts, offset = t.offset := by
  intro offset h_offset
  rw [Rule.parse, h, ok_bind] at h_err
  by_cases h_ne : ts = []
  · -- the error for an empty text names no place
    subst h_ne
    obtain rfl := Except.error.inj h_err
    exact absurd h_offset (by simp [ParseError.offset?])
  · cases Rule.blames_of_ofTokens h_ne h_err with
    | condition => exact absurd h_offset (by simp [ParseError.offset?])
    | nesting => exact absurd h_offset (by simp [ParseError.offset?])
    | operator h_mem =>
      obtain rfl := Option.some.inj h_offset
      exact .inr ⟨_, h_mem, rfl⟩
    | grouping h =>
      obtain rfl := Option.some.inj h_offset
      exact h.eq_size_or_exists_mem

/-- **Spacing does not matter.** Where the tokens of a text are written again with other blanks, the
text that this makes has the same tokens, and under all limits it comes to the same rule, or to the
same error. Only the place in the error differs: it is the one to which its token, or the end of the
text, has moved. -/
theorem Rule.parse_of_spaced {text text' : String} {ts : List Token} (h : tokenize text = .ok ts)
    (h_spaced : Spaced ts text'.toList) :
    ∃ us, tokenize text' = .ok us ∧ us.map Token.lexeme = ts.map Token.lexeme ∧
      us.map Token.raw = ts.map Token.raw ∧
      ∃ move : Nat → Nat, us.map Token.offset = (ts.map Token.offset).map move ∧
        move text.utf8ByteSize = text'.utf8ByteSize ∧
        ∀ limits, Rule.parse limits text'
            = (Rule.parse limits text).mapError (ParseError.relocate move) ∧
          ∀ e, Rule.parse limits text = .error e → ∀ offset ∈ e.offset?,
            offset = text.utf8ByteSize ∨ ∃ t ∈ ts, offset = t.offset := by
  have h_tiling := tiling_of_tokenize h
  obtain ⟨us, h_tiling', h_spelling⟩ := h_spaced.exists_tiling h_tiling.written []
  -- the same tokens at other places, and a map from the old places to the new ones
  obtain ⟨move, rfl, h_end⟩ := h_tiling.exists_relocation h_tiling' h_spelling
  have h_tokens := tokenize_of_tiling h_tiling'
  rw [List.nil_append, List.nil_append, String.ofList_toList, String.ofList_toList] at h_end
  refine ⟨_, h_tokens, by simp [Function.comp_def], by simp [Function.comp_def], move,
    by simp [Function.comp_def], h_end, fun limits => ⟨?_, fun e => Rule.offset_of_parse_error h⟩⟩
  -- the machine sees places only to hand them on in its errors
  calc Rule.parse limits text'
    _ = Rule.ofTokens limits text'.utf8ByteSize (ts.map (Token.relocate move)) := by
      rw [Rule.parse, h_tokens, ok_bind]
    _ = (Rule.ofTokens limits text.utf8ByteSize ts).mapError (ParseError.relocate move) := by
      rw [← h_end, Rule.ofTokens_relocate]
    _ = (Rule.parse limits text).mapError (ParseError.relocate move) := by
      rw [Rule.parse, h, ok_bind]

/-- A quoted parenthesis between a symbol and a parenthesis that is too much. Two of the blanks are
left out, the others are a tab and a line break, and the place in the error is counted anew. -/
theorem Rule.parse_of_spaced_unmatched :
    let text := "é = '(' )"
    let text' := "\té='('\n)"
    let ts : List Token :=
      [⟨.word "é", 0, "é"⟩, ⟨.symbol "=", 3, "="⟩, ⟨.quoted "(", 5, "'('"⟩, ⟨.closing, 9, ")"⟩]
    tokenize text = .ok ts ∧ Spaced ts text'.toList ∧
      Rule.parse default text = .error (.unbalancedGrouping 9 .unmatchedClose) ∧
      Rule.parse default text' = .error (.unbalancedGrouping 8 .unmatchedClose) := by
  intro text text' ts
  have h_tokens : tokenize text = .ok ts := by decide +kernel
  have h_tokens' : tokenize text' = .ok [⟨.word "é", 1, "é"⟩, ⟨.symbol "=", 3, "="⟩,
      ⟨.quoted "(", 4, "'('"⟩, ⟨.closing, 8, ")"⟩] := by
    decide +kernel
  have h_error : Rule.parse default text = .error (.unbalancedGrouping 9 .unmatchedClose) := by
    decide +kernel
  have h_spaced : Spaced ts text'.toList := by
    have h_last : Spaced [⟨.closing, 9, ")"⟩] ['\n', ')'] :=
      @Spaced.cons ['\n'] [] _ [] (List.forall_mem_singleton.mpr rfl) (by simp)
        (@Spaced.nil [] (List.forall_mem_nil _))
    have h_quoted : Spaced [⟨.quoted "(", 5, "'('"⟩, ⟨.closing, 9, ")"⟩]
        ['\'', '(', '\'', '\n', ')'] :=
      @Spaced.cons [] _ _ _ (List.forall_mem_nil _) (by simp [Lexeme.fusesWith]) h_last
    have h_symbol : Spaced ts.tail ['=', '\'', '(', '\'', '\n', ')'] :=
      @Spaced.cons [] _ ⟨.symbol "=", 3, "="⟩ _ (List.forall_mem_nil _)
        (by simp [Lexeme.fusesWith]) h_quoted
    have h_word := @Spaced.cons ['\t'] _ ⟨.word "é", 0, "é"⟩ _
      (List.forall_mem_singleton.mpr rfl) (by simp [ts, Lexeme.fusesWith]) h_symbol
    have h_chars : text'.toList = ['\t'] ++ "é".toList ++ ['=', '\'', '(', '\'', '\n', ')'] := by
      decide +kernel
    rwa [h_chars]
  obtain ⟨us, h_us, -, -, move, h_offsets, -, h_parse⟩ := Rule.parse_of_spaced h_tokens h_spaced
  obtain rfl := Except.ok.inj (h_tokens'.symm.trans h_us)
  -- the parenthesis has moved from the tenth byte to the ninth
  have h_move : move 9 = 8 := by
    have h_list : [1, 3, 4, 8] = [move 0, move 3, move 5, move 9] := h_offsets
    simp only [List.cons.injEq] at h_list
    exact h_list.2.2.2.1.symm
  refine ⟨h_tokens, h_spaced, h_error, ?_⟩
  calc Rule.parse default text'
    _ = (Rule.parse default text).mapError (ParseError.relocate move) := (h_parse default).1
    _ = .error (.unbalancedGrouping (move 9) .unmatchedClose) := by rw [h_error]; rfl
    _ = .error (.unbalancedGrouping 8 .unmatchedClose) := by rw [h_move]

/-- Two words without a blank between them are one word. -/
example : (tokenize "a b").map List.length = .ok 2 ∧ (tokenize "ab").map List.length = .ok 1 := by
  decide +kernel

end Eligibility
