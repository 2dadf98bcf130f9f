import Eligibility.Proofs.Grammar.Fault
import Eligibility.Proofs.Grammar.Tiling

/-!
# Places in the text

An error that gives an offset gives it in bytes of the text, and it is the right place
(`Rule.located_of_parse_error`): the quote that is not closed, the word or symbol that is not
supported, the token that goes wrong in the grouping (`Locates`) or the end of the text. It is
always a place between two characters, whatever characters the text has.

`Blames` says this of the tokens. What is added here is where tokens are. Those of a text tile it,
so each of them stands in it as a whole, with its offset in bytes in front of it
(`Token.StandsIn`, `Tiling.standsIn`), and by the way it is written it is known to be none of the
comparisons and keywords if it is a field that is no comparison.
-/

namespace Eligibility

/-! ### Tokens in the text -/

/-- **The token stands in the text.** Its characters are found behind as many bytes as its offset
says. They are written as its lexeme says, and what follows does not continue them. -/
def Token.StandsIn (t : Token) (text : String) : Prop :=
  ∃ before after, text.toList = before ++ t.raw.toList ++ after ∧
    t.offset = (String.ofList before).utf8ByteSize ∧ Written t.lexeme t.raw.toList ∧
      t.lexeme.EndsBefore after

/-- Tokens that tile the end of a text stand in the text. -/
theorem Tiling.standsIn {before cs : List Char} {ts : List Token} (h : Tiling before cs ts)
    {text : String} (h_text : text.toList = before ++ cs) : ∀ t ∈ ts, t.StandsIn text := by
  -- on the tiling, with the text as what was passed already and what is left
  induction h with
  | blanks => exact List.forall_mem_nil _
  | @token before gap raw rest lexeme ts h_gap h_raw h_end _ ih =>
    have h_split : text.toList = before ++ gap ++ raw ++ rest := by
      rw [h_text]
      simp only [List.append_assoc]
    refine List.forall_mem_cons.mpr ⟨⟨before ++ gap, rest, ?_, rfl, ?_, h_end⟩, ih h_split⟩
    · rw [String.toList_ofList]
      exact h_split
    · rw [String.toList_ofList]
      exact h_raw

/-- A word is written as it is. -/
theorem Written.eq_of_word {x : String} {raw : List Char} (h : Written (.word x) raw) :
    x = String.ofList raw := by
  cases h with
  | word => rfl

/-- Characters are written as one token only. -/
theorem Written.unique {lexeme lexeme' : Lexeme} {raw : List Char} (h : Written lexeme raw)
    (h' : Written lexeme' raw) : lexeme = lexeme' := by
  obtain ⟨c, raw, rfl⟩ := List.exists_cons_of_ne_nil h.ne_nil
  have h_scan := scanToken_of_written h lexeme.endsBefore_nil
  have h_scan' := scanToken_of_written h' lexeme'.endsBefore_nil
  exact (Prod.mk.inj (Option.some.inj (h_scan.symm.trans h_scan'))).1

theorem Comparison.written (c : Comparison) : Written (.symbol c.symbol) c.symbol.toList := by
  have h : Written (.symbol (String.ofList c.symbol.toList)) c.symbol.toList :=
    .symbol (by cases c <;> decide) (List.all_eq_true.mp (by cases c <;> rfl))
  rwa [String.ofList_toList] at h

theorem Connective.written (op : Connective) : Written (.word op.keyword) op.keyword.toList := by
  have h : Written (.word (String.ofList op.keyword.toList)) op.keyword.toList :=
    .word (by cases op <;> decide) (List.all_eq_true.mp (by cases op <;> rfl))
  rwa [String.ofList_toList] at h

/-- A field that is no comparison is not written like one. -/
theorem Written.ne_symbol {t : Token} (h : Written t.lexeme t.raw.toList)
    (h_none : comparisonOf? t = none) (c : Comparison) : t.raw ≠ c.symbol := by
  intro h_raw
  rw [h_raw] at h
  have h_lex : t.lexeme = .symbol c.symbol := h.unique c.written
  rw [comparisonOf?, h_lex] at h_none
  exact absurd (h_none.symm.trans (Comparison.ofSymbol?_symbol c)) (by simp)

/-- A field is not written like a keyword. -/
theorem Written.ne_keyword {t : Token} (h : Written t.lexeme t.raw.toList) (h_field : t.isField)
    (op : Connective) : t.raw ≠ op.keyword := by
  intro h_raw
  rw [h_raw] at h
  have h_lex : t.lexeme = .word op.keyword := h.unique op.written
  have h_key := Token.keyword?_of_isField h_field
  rw [Token.keyword?, h_lex] at h_key
  exact absurd (h_key.symm.trans (Connective.ofKeyword?_keyword op)) (by simp)

/-! ### Offsets -/

/-- The offset is one in the text, between two of its characters or at one of its ends. -/
def IsBoundary (text : String) (offset : Nat) : Prop := (⟨offset⟩ : String.Pos.Raw).IsValid text

theorem IsBoundary.le {text : String} {offset : Nat} (h : IsBoundary text offset) :
    offset ≤ text.utf8ByteSize :=
  h.le_rawEndPos

/-- There is a place behind every number of characters. -/
theorem isBoundary_of_append {text : String} {front back : List Char}
    (h : text.toList = front ++ back) :
    IsBoundary text (String.ofList front).utf8ByteSize := by
  have h_split : text = String.ofList front ++ String.ofList back :=
    calc text = String.ofList text.toList := String.ofList_toList.symm
      _ = String.ofList (front ++ back) := by rw [h]
      _ = String.ofList front ++ String.ofList back := String.ofList_append
  exact String.Pos.Raw.isValid_iff_exists_append.mpr ⟨_, _, h_split, rfl⟩

theorem Token.StandsIn.isBoundary {t : Token} {text : String} (h : t.StandsIn text) :
    IsBoundary text t.offset := by
  obtain ⟨before, after, h_text, h_offset, -⟩ := h
  rw [List.append_assoc] at h_text
  rw [h_offset]
  exact isBoundary_of_append h_text

theorem isBoundary_utf8ByteSize (text : String) : IsBoundary text text.utf8ByteSize := by
  have h : IsBoundary text (String.ofList text.toList).utf8ByteSize :=
    isBoundary_of_append (List.append_nil text.toList).symm
  rwa [String.ofList_toList] at h

/-! ### Errors -/

/-- The place that an error gives. -/
def ParseError.offset? : ParseError → Option Nat
  | .unbalancedGrouping offset _ => some offset
  | .unsupportedOperator _ offset => some offset
  | .unterminatedString offset => some offset
  | _ => none

/-- **The error is right about the place.** -/
inductive ParseError.IsLocated (text : String) : ParseError → Prop
  /-- It is that of a quote which is never closed. -/
  | unterminated {front back : List Char} {quote : Char}
      (h_text : text.toList = front ++ quote :: back) (h_quote : quote = '\'' ∨ quote = '"')
      (h_unclosed : Unclosed quote back) :
      IsLocated text (.unterminatedString (String.ofList front).utf8ByteSize)
  /-- It is that of a token which is written like no comparison and no keyword. -/
  | operator {ts : List Token} {t : Token} (h_tokens : tokenize text = .ok ts) (h_mem : t ∈ ts)
      (h : t.StandsIn text) (h_comparison : ∀ c : Comparison, t.raw ≠ c.symbol)
      (h_keyword : ∀ op : Connective, t.raw ≠ op.keyword) :
      IsLocated text (.unsupportedOperator t.raw t.offset)
  /-- It is that of the token which the fault is about, or the end of the text. -/
  | grouping {ts : List Token} {offset : Nat} {fault : GroupingFault}
      (h_tokens : tokenize text = .ok ts) (h_stand : ∀ t ∈ ts, t.StandsIn text)
      (h : Locates text.utf8ByteSize fault offset ts) :
      IsLocated text (.unbalancedGrouping offset fault)
  /-- The other errors give no place. -/
  | nowhere {e : ParseError} (h : e.offset? = none) : IsLocated text e

namespace ParseError.IsLocated

variable {text : String} {e : ParseError}

/-- A place in an error is one in the text. -/
theorem isBoundary (h : e.IsLocated text) : ∀ offset ∈ e.offset?, IsBoundary text offset := by
  intro offset h_offset
  cases h with
  | unterminated h_text =>
    obtain rfl := Option.some.inj h_offset
    exact isBoundary_of_append h_text
  | operator _ _ h =>
    obtain rfl := Option.some.inj h_offset
    exact h.isBoundary
  | grouping _ h_stand h =>
    obtain rfl := Option.some.inj h_offset
    -- the place is the end of the text or that of a token
    rcases h.eq_size_or_exists_mem with rfl | ⟨t, ht, rfl⟩
    · exact isBoundary_utf8ByteSize text
    · exact (h_stand t ht).isBoundary
  | nowhere h =>
    rw [h] at h_offset
    exact absurd h_offset (by simp)

/-- What is to blame in the tokens is there in the text. -/
theorem of_blames {ts : List Token} (h_tiling : Tiling [] text.toList ts)
    (h : Blames text.utf8ByteSize ts e) : e.IsLocated text := by
  have h_tokens := tokenize_of_tiling h_tiling
  have h_stand : ∀ t ∈ ts, t.StandsIn text := h_tiling.standsIn rfl
  -- the text behind a blamed token tells where the error is; the other errors name no place
  cases h with
  | condition => exact .nowhere rfl
  | nesting => exact .nowhere rfl
  | grouping h => exact .grouping h_tokens h_stand h
  | @operator t operator h_mem h_field h_none h_eq =>
    obtain ⟨before, after, h_text, h_offset, h_raw, h_end⟩ := h_stand t h_mem
    have h_operator : operator = t.raw := by
      rcases h_eq with rfl | h_lex
      · rfl
      · -- the error has the word of the token, which is how it is written
        rw [h_lex] at h_raw
        rw [h_raw.eq_of_word, String.ofList_toList]
    rw [h_operator]
    exact .operator h_tokens h_mem ⟨before, after, h_text, h_offset, h_raw, h_end⟩
      (h_raw.ne_symbol h_none) (h_raw.ne_keyword h_field)

end ParseError.IsLocated

/-- **Errors are located.** Under all limits, the place in the error of a text that is no rule is
right, and it is an offset in the text that lies between two characters. -/
theorem Rule.located_of_parse_error {limits : Limits} {text : String} {e : ParseError}
    (h : Rule.parse limits text = .error e) :
    e.IsLocated text ∧
      ∀ offset ∈ e.offset?, offset ≤ text.utf8ByteSize ∧ IsBoundary text offset := by
  have h_located : e.IsLocated text := by
    rcases tiling_or_unclosed [] text.toList with
      ⟨ts, h_tiling⟩ | ⟨front, quote, back, ts, h_text, h_quote, h_unclosed, h_tiling⟩
    · rw [Rule.parse, tokenize_of_tiling h_tiling, ok_bind] at h
      by_cases h_ne : ts = []
      · -- a text without tokens is refused for being empty
        subst h_ne
        obtain rfl := Except.error.inj h
        exact .nowhere rfl
      · exact .of_blames h_tiling (Rule.blames_of_ofTokens h_ne h)
    · rw [Rule.parse, tokenize_of_unclosed h_text h_quote h_unclosed h_tiling, error_bind] at h
      obtain rfl := Except.error.inj h
      exact .unterminated h_text h_quote h_unclosed
  refine ⟨h_located, fun offset h_offset => ?_⟩
  have h_boundary := h_located.isBoundary offset h_offset
  exact ⟨h_boundary.le, h_boundary⟩

/-- A field behind a group, with a character of two bytes in front of both. -/
theorem Rule.located_of_parse_error_wide :
    let text := "(é = y) z"
    let e := ParseError.unbalancedGrouping 9 .fieldWithoutKeyword
    Rule.parse default text = .error e ∧ e.IsLocated text ∧ 9 ≤ text.utf8ByteSize ∧
      IsBoundary text 9 := by
  have h : Rule.parse default "(é = y) z" = .error (.unbalancedGrouping 9 .fieldWithoutKeyword) := by
    decide +kernel
  obtain ⟨h_located, h_offset⟩ := Rule.located_of_parse_error h
  exact ⟨h, h_located, h_offset 9 rfl⟩

end Eligibility
