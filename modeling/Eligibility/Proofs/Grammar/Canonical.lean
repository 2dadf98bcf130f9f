import Eligibility.Proofs.Grammar.Printable
import Eligibility.Proofs.Number.RoundTrip
import Eligibility.Proofs.Rule.Match
import Mathlib.Tactic.IntervalCases

/-!
# Reading canonical text

The canonical text of a rule is read back as the rule. If it was built by hand, it may have the text
of a number to the right of an ordering comparison, and this is read back as the number
(`Rule.unquoted`). The two halves of the reader are taken one after the other, and what stands
between them is `Rule.lexemes`, the canonical tokens without their places:

* the scanner finds these lexemes in the canonical text, provided that names are words
  (`tokenize_text`);
* the grammar derives from any tokens with these lexemes a rule of the same shape, with what each
  condition is read as (`Condition.ReadsAs`) in its place (`derives_of_lexemes`), and their
  parentheses nest one level less than the tree is high, as a lone condition has none.
-/

namespace Eligibility

/-! ### Canonical tokens -/

/-- The literal of a value as a token. -/
def Value.lexeme : Value → Lexeme
  | .text s => .quoted s
  | v => .word v.render

/-- The tokens of a condition's text. -/
def Condition.lexemes (c : Condition) : List Lexeme :=
  [.word c.name, .symbol c.comparison.symbol, c.value.lexeme]

/-- The tokens of a rule's canonical text. -/
def Rule.lexemes : Rule → List Lexeme
  | .test c => c.lexemes
  | .join op left right =>
    .opening :: (left.lexemes ++ .word op.keyword :: (right.lexemes ++ [.closing]))

/-- The characters in front of `rest` are scanned into these lexemes, wherever they stand. -/
def Scans (cs : List Char) (lexemes : List Lexeme) (rest : List Char) : Prop :=
  ∀ (offset : Nat) (found : List Token), ∃ (ts : List Token) (offset' : Nat),
    ts.map Token.lexeme = lexemes ∧
      tokensFrom offset cs found = tokensFrom offset' rest (ts.reverse ++ found)

/-- Scanning goes on where it stopped. -/
theorem Scans.trans {cs mid rest : List Char} {ls ms : List Lexeme} (h : Scans cs ls mid)
    (h' : Scans mid ms rest) : Scans cs (ls ++ ms) rest := by
  intro offset found
  obtain ⟨ts, offset', h_ts, h_eq⟩ := h offset found
  obtain ⟨us, offset'', h_us, h_eq'⟩ := h' offset' (ts.reverse ++ found)
  refine ⟨ts ++ us, offset'', by rw [List.map_append, h_ts, h_us], ?_⟩
  rw [h_eq, h_eq', List.reverse_append, List.append_assoc]

/-- Nothing is scanned into no tokens. -/
theorem Scans.refl (rest : List Char) : Scans rest [] rest :=
  fun offset _ => ⟨[], offset, rfl, rfl⟩

/-- A text that is scanned to its end. -/
theorem Scans.exists_tokens {text : String} {ls : List Lexeme} (h : Scans text.toList ls []) :
    ∃ ts, tokenize text = .ok ts ∧ ts.map Token.lexeme = ls := by
  obtain ⟨ts, offset, h_map, h_eq⟩ := h 0 []
  refine ⟨ts, ?_, h_map⟩
  rw [tokenize, h_eq, tokensFrom.eq_def, List.append_nil]
  simp only
  rw [List.reverse_reverse]

/-- Blanks are no tokens. -/
theorem Scans.of_isBlank {c : Char} (h : isBlank c) (cs : List Char) : Scans (c :: cs) [] cs := by
  intro offset found
  refine ⟨[], offset + c.utf8Size, rfl, ?_⟩
  rw [tokensFrom.eq_def]
  simp only
  rw [if_pos h]
  rfl

theorem Scans.blank (cs : List Char) : Scans (' ' :: cs) [] cs := Scans.of_isBlank (by decide) cs

/-- A token is scanned where it is written. -/
theorem Scans.written {lexeme : Lexeme} {raw : List Char} (h : Written lexeme raw)
    {rest : List Char} (h_end : lexeme.EndsBefore rest) : Scans (raw ++ rest) [lexeme] rest :=
  fun offset found => ⟨[⟨lexeme, offset, String.ofList raw⟩],
    offset + (String.ofList raw).utf8ByteSize, rfl, tokensFrom_written h h_end offset found⟩

/-! ### Single tokens -/

/-- A word ends in front of such characters. -/
def EndsWord (rest : List Char) : Prop := ∀ c ∈ rest.head?, isWordChar c = false

theorem Scans.word {cs rest : List Char} (h_ne : cs ≠ []) (h_word : ∀ c ∈ cs, isWordChar c)
    (h_end : EndsWord rest) : Scans (cs ++ rest) [.word (String.ofList cs)] rest :=
  Scans.written (.word h_ne h_word) h_end

theorem Scans.opening (rest : List Char) : Scans ('(' :: rest) [.opening] rest :=
  Scans.written .opening fun _ _ => rfl

theorem Scans.closing (rest : List Char) : Scans (')' :: rest) [.closing] rest :=
  Scans.written .closing fun _ _ => rfl

theorem Scans.comparison (c : Comparison) (rest : List Char) :
    Scans (c.symbol.toList ++ ' ' :: rest) [.symbol c.symbol] (' ' :: rest) := by
  have h_symbol : c.symbol.toList ≠ [] ∧ c.symbol.toList.all isComparisonChar := by
    cases c <;> decide
  have h_written := Written.symbol h_symbol.1 (List.all_eq_true.mp h_symbol.2)
  rw [String.ofList_toList] at h_written
  exact Scans.written h_written (Lexeme.endsBefore_cons _ (by decide) (by decide) rest)

/-- Escaping is undone by scanning. -/
theorem quotedBody_escape (cs : List Char) : QuotedBody '\'' (cs.flatMap Value.escape) cs := by
  induction cs with
  | nil => exact .nil
  | cons c cs ih =>
    rw [List.flatMap_cons, Value.escape]
    by_cases h : c = '\'' ∨ c = '\\'
    · -- the character is written with a backslash in front of it
      rw [if_pos h]
      exact .resolved (h.imp_right .inr) ih
    · -- the character stands for itself: it neither ends the literal nor escapes anything
      rw [if_neg h]
      rw [not_or] at h
      exact .plain h.1 h.2 ih

theorem Scans.quoted (s : String) (rest : List Char) :
    Scans (Value.quote s.toList ++ rest) [.quoted s] rest := by
  have h_written := Written.quoted (.inl rfl) (quotedBody_escape s.toList)
  rw [String.ofList_toList] at h_written
  exact Scans.written h_written fun _ _ => rfl

/-! ### Scanning canonical text -/

theorem endsWord_blank (cs : List Char) : EndsWord (' ' :: cs) := by
  intro c hc
  obtain rfl := Option.some.inj hc
  decide

theorem endsWord_closing (cs : List Char) : EndsWord (')' :: cs) := by
  intro c hc
  obtain rfl := Option.some.inj hc
  decide

theorem isWordChar_of_isDigit {c : Char} (h : c.isDigit) : isWordChar c := by
  obtain ⟨h_ge, h_le⟩ : 48 ≤ c.toNat ∧ c.toNat ≤ 57 := Char.isDigit_iff_toNat.mp h
  have h_digit : ∀ n, 48 ≤ n → n ≤ 57 → isWordChar (Char.ofNat n) := by
    intro n h_ge h_le
    interval_cases n <;> decide
  rw [← Char.ofNat_toNat c]
  exact h_digit c.toNat h_ge h_le

theorem isWordChar_of_isNumberChar {c : Char} (h : IsNumberChar c) : isWordChar c := by
  rcases h with h_digit | rfl | rfl | rfl
  · exact isWordChar_of_isDigit h_digit
  · decide
  · decide
  · decide

/-- The text of a number is one word. -/
theorem isWord_of_readNumber {cs : List Char} {v : Value} (h_read : readNumber cs = .number v)
    (h_chars : ∀ c ∈ cs, IsNumberChar c) : IsWord (String.ofList cs) := by
  refine ⟨fun h_empty => ?_, ?_⟩
  · rw [String.ofList_eq_empty_iff] at h_empty
    subst h_empty
    have h_none : readNumber [] = .noNumber := by decide
    exact absurd (h_none.symm.trans h_read) (by simp)
  · rw [String.toList_ofList]
    exact fun c hc => isWordChar_of_isNumberChar (h_chars c hc)

/-- A double without a number is one word as well. -/
theorem isWord_floatLiteral (x : Binary64) : IsWord (String.ofList (Value.floatLiteral x)) := by
  by_cases h : x.isFinite
  · exact isWord_of_readNumber (readNumber_floatLiteral h) (isNumberChar_floatLiteral h)
  · rw [Value.floatLiteral, if_neg h]
    split
    · decide
    · split <;> decide

theorem Scans.isWord {w : String} (h : IsWord w) {rest : List Char} (h_end : EndsWord rest) :
    Scans (w.toList ++ rest) [.word w] rest := by
  have h_scans := Scans.word (fun h_nil => h.1 (String.toList_eq_nil_iff.mp h_nil)) h.2 h_end
  rwa [String.ofList_toList] at h_scans

theorem Scans.value (v : Value) {rest : List Char} (h_end : EndsWord rest) :
    Scans (v.literal ++ rest) [v.lexeme] rest := by
  cases v with
  | int n =>
    have h_word := isWord_of_readNumber (readNumber_integer n) (isNumberChar_integer n.toInt)
    have h_scans := Scans.isWord h_word h_end
    rwa [String.toList_ofList] at h_scans
  | float x =>
    have h_scans := Scans.isWord (isWord_floatLiteral x) h_end
    rwa [String.toList_ofList] at h_scans
  | text s => exact Scans.quoted s rest

theorem Scans.condition {c : Condition} (h : IsWord c.name) {rest : List Char}
    (h_end : EndsWord rest) : Scans (c.render.toList ++ rest) c.lexemes rest := by
  -- the name, the comparison and the value, with a blank between any two
  have h_scans := (Scans.isWord h (endsWord_blank _)).trans <|
    (Scans.blank _).trans <| (Scans.comparison c.comparison _).trans <|
    (Scans.blank _).trans <| Scans.value c.value h_end
  rw [Condition.render, Value.render]
  simpa [Condition.lexemes, List.append_assoc] using h_scans

/-- The scanner finds the canonical tokens of a rule in its canonical text. -/
theorem Scans.rule {r : Rule} (h : ∀ c ∈ r.leaves, IsWord c.name) (rest : List Char)
    (h_end : EndsWord rest) : Scans (r.text.toList ++ rest) r.lexemes rest := by
  induction r generalizing rest with
  | test c => exact Scans.condition (h c (List.mem_singleton.mpr rfl)) h_end
  | join op left right ihl ihr =>
    have h_left := ihl fun c hc => h c (List.mem_append_left _ hc)
    have h_right := ihr fun c hc => h c (List.mem_append_right _ hc)
    have h_key : IsWord op.keyword := by
      cases op <;> decide
    -- both sides end in front of a blank or the parenthesis, as a word has to
    have h_scans := (Scans.opening _).trans <| (h_left _ (endsWord_blank _)).trans <|
      (Scans.blank _).trans <| (Scans.isWord h_key (endsWord_blank _)).trans <|
      (Scans.blank _).trans <| (h_right _ (endsWord_closing _)).trans <| Scans.closing rest
    rw [Rule.text]
    simpa [Rule.lexemes, List.append_assoc] using h_scans

theorem tokenize_text {r : Rule} (h : ∀ c ∈ r.leaves, IsWord c.name) :
    ∃ ts, tokenize r.text = .ok ts ∧ ts.map Token.lexeme = r.lexemes := by
  have h_end : EndsWord [] := fun c hc => absurd hc (by simp)
  have h_scans := Scans.rule h [] h_end
  rw [List.append_nil] at h_scans
  exact h_scans.exists_tokens

/-! ### The grammar of canonical tokens -/

theorem isField_of_lexeme_word {t : Token} {w : String} (h : t.lexeme = .word w)
    (h_and : w ≠ "AND") (h_or : w ≠ "OR") : t.isField := by
  simp [Token.isField, Token.keyword?, h, Connective.ofKeyword?, h_and, h_or]

theorem keyword?_of_lexeme_keyword {t : Token} {op : Connective}
    (h : t.lexeme = .word op.keyword) : t.keyword? = some op := by
  rw [Token.keyword?, h]
  exact Connective.ofKeyword?_keyword op

/-- A word that is read as a number is no keyword. -/
theorem ne_keyword_of_readNumber {w : String} {v : Value} (h : readNumber w.toList = .number v) :
    w ≠ "AND" ∧ w ≠ "OR" := by
  have h_and : readNumber "AND".toList = .noNumber := by decide
  have h_or : readNumber "OR".toList = .noNumber := by decide
  refine ⟨?_, ?_⟩
  · rintro rfl
    exact absurd (h_and.symm.trans h) (by simp)
  · rintro rfl
    exact absurd (h_or.symm.trans h) (by simp)

theorem numberOrText_of_readNumber {cs : List Char} {s : String} {v : Value}
    (h : readNumber cs = .number v) : numberOrText cs s = .ok v := by
  rw [numberOrText, h]

theorem valueOf_of_number (comparison : Comparison) {t : Token} {cs : List Char} {v : Value}
    (h_lex : t.lexeme = .word (String.ofList cs)) (h_read : readNumber cs = .number v) :
    t.isField ∧ valueOf comparison t = .ok v := by
  have h_word : readNumber (String.ofList cs).toList = .number v := by
    rwa [String.toList_ofList]
  obtain ⟨h_and, h_or⟩ := ne_keyword_of_readNumber h_word
  refine ⟨isField_of_lexeme_word h_lex h_and h_or, ?_⟩
  simp only [valueOf, h_lex]
  exact numberOrText_of_readNumber h_word

theorem isNumber_of_readNumber {cs : List Char} {v : Value} (h : readNumber cs = .number v) :
    v.isNumber := by
  unfold readNumber at h
  split at h
  · obtain rfl := NumberReading.number.inj h
    rfl
  · split at h
    · exact absurd h (by simp)
    · split at h
      · obtain rfl := NumberReading.number.inj h
        rfl
      · exact absurd h (by simp)

/-- In quotes a number is read as what it is unquoted, and a text only where it may stay one. -/
theorem valueOf_quoted {s : String} {comparison : Comparison}
    (h : ((Value.text s).unquoted comparison).IsPrintable comparison) {t : Token}
    (ht : t.lexeme = .quoted s) :
    (valueOf comparison t >>= checkOrdering comparison)
      = .ok ((Value.text s).unquoted comparison) := by
  simp only [valueOf, ht]
  by_cases h_ordering : comparison.isOrdering
  · rw [if_pos h_ordering]
    rw [Value.unquoted, if_pos h_ordering] at h ⊢
    cases h_read : readNumber (trimBlanks s.toList) with
    | number v =>
      have h_number := isNumber_of_readNumber h_read
      rw [numberOrText_of_readNumber h_read, ok_bind, checkOrdering, if_neg (by simp [h_number])]
    -- what is no number is a text, and under an ordering comparison no text can be printed
    | _ =>
      rw [h_read] at h
      obtain rfl : comparison = .equal := h
      exact absurd h_ordering (by decide)
  · rw [if_neg h_ordering, Value.unquoted, if_neg h_ordering, ok_bind, checkOrdering,
      if_neg (by simp [h_ordering])]

/-- The canonical token of a value is read as the value unquoted, if that can be printed. -/
theorem valueOf_lexeme {v : Value} {comparison : Comparison}
    (h : (v.unquoted comparison).IsPrintable comparison) {t : Token} (ht : t.lexeme = v.lexeme) :
    t.isField ∧ (valueOf comparison t >>= checkOrdering comparison)
      = .ok (v.unquoted comparison) := by
  cases v with
  -- both kinds of numbers are read as what they were, and pass as operands of an ordering
  | int n =>
    obtain ⟨h_field, h_value⟩ := valueOf_of_number comparison ht (readNumber_integer n)
    refine ⟨h_field, ?_⟩
    rw [h_value, ok_bind, checkOrdering, if_neg (by simp [Value.isNumber, Value.number?])]
    rfl
  | float x =>
    obtain ⟨h_field, h_value⟩ := valueOf_of_number comparison ht (readNumber_floatLiteral h)
    refine ⟨h_field, ?_⟩
    rw [h_value, ok_bind, checkOrdering, if_neg (by simp [Value.isNumber, Value.number?])]
    rfl
  -- a text is in quotes, and what becomes of it depends on the comparison
  | text s =>
    exact ⟨by simp [Token.isField, Token.keyword?, ht, Value.lexeme], valueOf_quoted h ht⟩

/-- To the right of `=` a word that is no number is a text. -/
theorem valueOf_of_noNumber {t : Token} {w : String} (ht : t.lexeme = .word w)
    (h : readNumber w.toList = .noNumber) :
    (valueOf .equal t >>= checkOrdering .equal) = .ok (.text w) := by
  simp only [valueOf, ht, numberOrText, h]
  rfl

/-- **Three lexemes are read as a condition**, if it can be printed and the last is its value. -/
theorem derives_of_fields {c : Condition} (h : c.IsPrintable) {l : Lexeme}
    (h_value : ∀ t : Token, t.lexeme = l → t.isField ∧
      (valueOf c.comparison t >>= checkOrdering c.comparison) = .ok c.value) {ts : List Token}
    (h_lex : ts.map Token.lexeme = [.word c.name, .symbol c.comparison.symbol, l]) :
    Derives .operand ts (.test c) ∧ nesting ts = 0 := by
  -- three tokens, all of them fields
  obtain ⟨s, ts, rfl, hs, h_lex⟩ := List.map_eq_cons_iff.mp h_lex
  obtain ⟨o, ts, rfl, ho, h_lex⟩ := List.map_eq_cons_iff.mp h_lex
  obtain ⟨t, ts, rfl, ht, h_lex⟩ := List.map_eq_cons_iff.mp h_lex
  obtain rfl := List.map_eq_nil_iff.mp h_lex
  have hs_field := isField_of_lexeme_word hs h.name_ne_and h.name_ne_or
  have ho_field : o.isField := by simp [Token.isField, Token.keyword?, ho]
  obtain ⟨ht_field, h_value⟩ := h_value t ht
  -- the name is no number, or it could not be a name
  have h_number : readNumber c.name.toList = .noNumber := h.noNumber
  have h_name : attributeName? s = some c.name := by
    simp only [attributeName?, hs, h_number]
  have h_cmp : comparisonOf? o = some c.comparison := by
    simp only [comparisonOf?, ho, Comparison.ofSymbol?_symbol]
  refine ⟨.condition hs_field ho_field ht_field ?_, nesting_condition hs_field ho_field ht_field⟩
  exact readCondition_eq_ok_iff.mpr ⟨h_name, h_cmp, h_value⟩

/-- **What a condition is read as**: from its canonical tokens, wherever they stand. -/
structure Condition.ReadsAs (c d : Condition) : Prop where
  isWord : IsWord c.name
  derives : ∀ ts : List Token, ts.map Token.lexeme = c.lexemes →
    Derives .operand ts (.test d) ∧ nesting ts = 0

/-- A condition is read with the value that is read for its literal, if it can be printed with
that. -/
theorem Condition.ReadsAs.of_value {c : Condition} {v : Value}
    (h : (Condition.mk c.name c.comparison v).IsPrintable)
    (h_value : ∀ t : Token, t.lexeme = c.value.lexeme → t.isField ∧
      (valueOf c.comparison t >>= checkOrdering c.comparison) = .ok v) :
    c.ReadsAs ⟨c.name, c.comparison, v⟩ :=
  ⟨h.isWord, fun _ h_lex => derives_of_fields h h_value h_lex⟩

theorem Condition.readsAs_unquoted {c : Condition} (h : c.unquoted.IsPrintable) :
    c.ReadsAs c.unquoted :=
  .of_value h fun _ ht => valueOf_lexeme h.value ht

/-- **Canonical tokens are read as a rule of their shape.** A lone condition has no parentheses, and
every further level of the tree has one pair. -/
theorem derives_of_lexemes {r s : Rule} (h : r.Matches Condition.ReadsAs s) {ts : List Token}
    (h_lex : ts.map Token.lexeme = r.lexemes) :
    Derives .operand ts s ∧ nesting ts + 1 = r.height := by
  induction h generalizing ts with
  | test h =>
    obtain ⟨h_der, h_deep⟩ := h.derives ts h_lex
    exact ⟨h_der, by rw [h_deep, Rule.height]⟩
  | join op _ _ ihl ihr =>
    -- the tokens fall apart as the text was put together
    obtain ⟨o, ts, rfl, ho, h_lex⟩ := List.map_eq_cons_iff.mp h_lex
    obtain ⟨us, ts, rfl, hl, h_lex⟩ := List.map_eq_append_iff.mp h_lex
    obtain ⟨k, ts, rfl, hk, h_lex⟩ := List.map_eq_cons_iff.mp h_lex
    obtain ⟨vs, ts, rfl, hr, h_lex⟩ := List.map_eq_append_iff.mp h_lex
    obtain ⟨c, ts, rfl, hc, h_lex⟩ := List.map_eq_cons_iff.mp h_lex
    obtain rfl := List.map_eq_nil_iff.mp h_lex
    obtain ⟨h_left, h_deep_left⟩ := ihl hl
    obtain ⟨h_right, h_deep_right⟩ := ihr hr
    have h_key := keyword?_of_lexeme_keyword hk
    have h_inner := Derives.joined (.single h_left) h_key h_right
    -- the grammar takes the closing parenthesis off the end
    have h_eq : o :: (us ++ k :: (vs ++ [c])) = o :: ((us ++ k :: vs) ++ [c]) := by simp
    rw [h_eq]
    refine ⟨.group ho hc h_inner, ?_⟩
    rw [nesting_group ho hc h_inner, nesting, deepest_joined (.single h_left) h_key, Rule.height]
    change max (nesting us) (nesting vs) + 1 + 1 = _
    omega

/-! ### Alike rules -/

/-- A number that equals a finite one is finite. -/
theorem Binary64.isFinite_of_equals {x y : Binary64} (h : x.equals y) (hx : x.isFinite) :
    y.isFinite := by
  simp only [Binary64.equals, Bool.and_eq_true, beq_iff_eq] at h
  -- equal numbers have equal ranks, and the rank is the magnitude with a sign
  have h_mag : x.magnitude = y.magnitude := by
    have h_rank := h.2
    unfold Binary64.rank at h_rank
    split at h_rank <;> split at h_rank <;> omega
  unfold Binary64.isFinite at hx ⊢
  rwa [← h_mag]

theorem Binary64.equals_self {x : Binary64} (h : x.isFinite) : x.equals x := by
  simp only [Binary64.isFinite, decide_eq_true_eq] at h
  simp [Binary64.equals, Binary64.isNaN, Nat.not_lt_of_lt h]

theorem Value.isPrintable_of_alike {v w : Value} {comparison : Comparison} (h : v.alike w)
    (hv : v.IsPrintable comparison) : w.IsPrintable comparison := by
  -- alike values are of one kind, and only doubles need not be the same
  cases v with
  | int m =>
    cases w with
    | int n => trivial
    | float y => exact absurd h (by simp [Value.alike])
    | text t => exact absurd h (by simp [Value.alike])
  | float x =>
    cases w with
    | int n => exact absurd h (by simp [Value.alike])
    | float y => exact Binary64.isFinite_of_equals h hv
    | text t => exact absurd h (by simp [Value.alike])
  | text s =>
    cases w with
    | int n => exact absurd h (by simp [Value.alike])
    | float y => exact absurd h (by simp [Value.alike])
    | text t => exact hv

theorem Value.alike_self {v : Value} {comparison : Comparison} (h : v.IsPrintable comparison) :
    v.alike v := by
  cases v with
  | int n => exact beq_self_eq_true n
  | float x => exact Binary64.equals_self h
  | text s => exact beq_self_eq_true s

theorem Condition.isPrintable_of_alike {c d : Condition} (h : c.alike d) (hc : c.IsPrintable) :
    d.IsPrintable := by
  obtain ⟨name, comparison, v⟩ := c
  obtain ⟨name', comparison', w⟩ := d
  simp only [Condition.alike, Bool.and_eq_true, beq_iff_eq] at h
  obtain ⟨⟨rfl, rfl⟩, h_value⟩ := h
  exact { hc with value := Value.isPrintable_of_alike h_value hc.value }

theorem Rule.isPrintable_of_alike {r s : Rule} (h : r.alike s)
    (hr : ∀ c ∈ r.leaves, c.IsPrintable) : ∀ c ∈ s.leaves, c.IsPrintable :=
  (Rule.alike_iff_matches.mp h).forall_leaves (fun _ _ => Condition.isPrintable_of_alike) hr

theorem Rule.alike_self {r : Rule} (h : ∀ c ∈ r.leaves, c.IsPrintable) : r.alike r := by
  refine Rule.alike_iff_matches.mpr (Rule.matches_self_iff.mpr fun c hc => ?_)
  simp [Condition.alike, Value.alike_self (h c hc).value]

/-! ### The round trip -/

/-- **The canonical text of a rule** is read as a rule of the same shape, if every condition is read
as one, and where the limit is too low for its levels, it is refused for that. -/
theorem Rule.parse_render_of_matches {r s : Rule} (h : r.Matches Condition.ReadsAs s) (m : Nat) :
    Rule.parse ⟨m⟩ r.render
      = if r.depth - 1 ≤ m then .ok s else .error (.nestingTooDeep m) := by
  obtain ⟨ts, h_tokens, h_lex⟩ := tokenize_text (h.forall_left fun _ _ h => h.isWord)
  obtain ⟨h_der, h_deep⟩ := derives_of_lexemes h h_lex
  have h_nest : nesting ts = r.depth - 1 := by
    rw [Rule.depth_eq_height]
    omega
  rw [Rule.render_eq_text]
  split
  · next h_le =>
    exact Rule.parse_eq_ok_iff.mpr
      ⟨ts, h_tokens, h_der.ne_nil, .single h_der, h_nest ▸ h_le⟩
  · next h_lt =>
    -- the nesting is refused while the machine reads, before the end of the text
    have h_run : Machine.run ⟨m⟩ (Machine.awaiting [] none []) ts = .error (.nestingTooDeep m) :=
      Machine.run_of_derives_deep h_der [] none (fun h => absurd h (by simp)) (Nat.zero_le _)
        (by rw [← h_nest] at h_lt; exact Nat.lt_of_not_le h_lt)
    rw [Rule.parse, h_tokens, ok_bind]
    cases ts with
    | nil => exact absurd rfl h_der.ne_nil
    | cons t ts =>
      change (Machine.run ⟨m⟩ {} (t :: ts) >>= _) = _
      rw [← Machine.awaiting_nil, h_run]
      rfl

theorem Rule.matches_unquoted {R : Condition → Condition → Prop} {r : Rule}
    (h : ∀ c ∈ r.leaves, R c c.unquoted) : r.Matches R r.unquoted := by
  induction r with
  | test c => exact .test (h c (List.mem_singleton.mpr rfl))
  | join op left right ihl ihr =>
    exact .join op (ihl fun c hc => h c (List.mem_append_left _ hc))
      (ihr fun c hc => h c (List.mem_append_right _ hc))

/-- It is read as the rule unquoted, if that can be printed. -/
theorem Rule.parse_render_unquoted {r : Rule} (h : ∀ c ∈ r.leaves, c.unquoted.IsPrintable)
    (m : Nat) :
    Rule.parse ⟨m⟩ r.render
      = if r.depth - 1 ≤ m then .ok r.unquoted else .error (.nestingTooDeep m) :=
  Rule.parse_render_of_matches
    (Rule.matches_unquoted fun c hc => Condition.readsAs_unquoted (h c hc)) m

/-- The canonical text of a printable rule is read as the rule itself. -/
theorem Rule.parse_render_of_isPrintable {r : Rule} (h : r.IsPrintable) (m : Nat) :
    Rule.parse ⟨m⟩ r.render
      = if r.depth - 1 ≤ m then .ok r else .error (.nestingTooDeep m) := by
  have h_leaves : ∀ c ∈ r.leaves, c.IsPrintable := by rwa [← Rule.conditions_eq_leaves]
  have h_parse := Rule.parse_render_unquoted (r := r) (fun c hc => ?_) m
  · rwa [Rule.unquoted_of_isPrintable h_leaves] at h_parse
  · rw [Condition.unquoted_of_isPrintable (h_leaves c hc)]
    exact h_leaves c hc

/-- **The round trip.** What is read from text is printable. The canonical text of a rule is read as
an alike rule exactly if the rule is printable and the nesting limit is not below its levels, which
are one less than its depth. A printable rule is refused below that limit, for its nesting. The two
rules are compared by the loop over pending pairs; what was just read shares no part with the rule
that was printed, so the loop has nothing to pass over. -/
theorem Rule.parse_render_iff :
    (∀ (limits : Limits) (text : String) (r : Rule),
      Rule.parse limits text = .ok r → r.IsPrintable) ∧
    ∀ (r : Rule) (m : Nat),
      ((∃ s, Rule.parse ⟨m⟩ r.render = .ok s ∧ Rule.allAlike [(s, r)]) ↔
        r.IsPrintable ∧ r.depth - 1 ≤ m) ∧
      (r.IsPrintable → m < r.depth - 1 →
        Rule.parse ⟨m⟩ r.render = .error (.nestingTooDeep m)) := by
  have h_deep : ∀ (r : Rule) (m : Nat), r.IsPrintable → m < r.depth - 1 →
      Rule.parse ⟨m⟩ r.render = .error (.nestingTooDeep m) := by
    intro r m h h_lt
    rw [Rule.parse_render_of_isPrintable h, if_neg (Nat.not_le_of_lt h_lt)]
  refine ⟨fun limits text r => Rule.isPrintable_of_parse, fun r m => ⟨⟨?_, ?_⟩, h_deep r m⟩⟩
  · rintro ⟨s, h_parse, h_alike⟩
    have h_print : r.IsPrintable := by
      -- what was read is printable, and being alike does not change that
      have hs := Rule.isPrintable_of_parse h_parse
      unfold Rule.IsPrintable at hs ⊢
      rw [Rule.conditions_eq_leaves] at hs ⊢
      rw [Rule.allAlike_pair] at h_alike
      exact Rule.isPrintable_of_alike h_alike hs
    refine ⟨h_print, Nat.le_of_not_lt fun h_lt => ?_⟩
    exact absurd ((h_deep r m h_print h_lt).symm.trans h_parse) (by simp)
  · rintro ⟨h, h_le⟩
    refine ⟨r, by rw [Rule.parse_render_of_isPrintable h, if_pos h_le], ?_⟩
    rw [Rule.allAlike_pair]
    rw [Rule.IsPrintable, Rule.conditions_eq_leaves] at h
    exact Rule.alike_self h

/-- Two conditions in parentheses are one level: with the limit at zero they are refused, and with
the limit at one they are read back. -/
theorem Rule.parse_render_pair :
    let r : Rule :=
      .join .and (.test ⟨"age", .greater, .int 30⟩) (.test ⟨"dept", .equal, .text "HR"⟩)
    r.IsPrintable ∧ Rule.parse ⟨0⟩ r.render = .error (.nestingTooDeep 0) ∧
      ∃ s, Rule.parse ⟨1⟩ r.render = .ok s ∧ Rule.allAlike [(s, r)] := by
  intro r
  have h_print : r.IsPrintable := by
    rw [Rule.IsPrintable, Rule.conditions_eq_leaves]
    decide
  have h_depth : r.depth = 2 := by
    rw [Rule.depth_eq_height]
    rfl
  refine ⟨h_print, ?_, ?_⟩
  · exact (Rule.parse_render_iff.2 r 0).2 h_print (by rw [h_depth]; decide)
  · exact (Rule.parse_render_iff.2 r 1).1.mpr ⟨h_print, by rw [h_depth]⟩

end Eligibility
