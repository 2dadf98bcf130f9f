import Eligibility.Proofs.Grammar.Acceptance
import Eligibility.Proofs.Grammar.Tiling
import Eligibility.Proofs.Rule.Walk

/-!
# Printable conditions

Rules can be built by hand, and then a condition may have a name or a literal that no rule text
has: a name with a blank in it, a name that is a number, an infinite literal, a text to the right of
`>`. A condition is *printable* when it has none of these. What is read from text is always
printable (`Rule.isPrintable_of_parse`), because a name comes from a word, and a literal from a word
or a quoted literal.
-/

namespace Eligibility

/-- A value that a condition of rule text can have to the right of a comparison. -/
def Value.IsPrintable (comparison : Comparison) : Value → Prop
  | .int _ => True
  | .float x => x.isFinite
  | .text _ => comparison = .equal

instance (comparison : Comparison) : (v : Value) → Decidable (v.IsPrintable comparison)
  | .int _ => .isTrue trivial
  | .float x => inferInstanceAs (Decidable (x.isFinite = true))
  | .text _ => inferInstanceAs (Decidable (comparison = .equal))

/-- A condition that rule text can have. -/
structure Condition.IsPrintable (c : Condition) : Prop where
  name_ne_empty : c.name ≠ ""
  /-- The name is a run of word characters. -/
  isWordChar : ∀ ch ∈ c.name.toList, isWordChar ch
  name_ne_and : c.name ≠ "AND"
  name_ne_or : c.name ≠ "OR"
  /-- The name is not the literal of a number. -/
  noNumber : readNumber c.name.toList = .noNumber
  value : c.value.IsPrintable c.comparison

theorem Condition.isPrintable_iff (c : Condition) :
    c.IsPrintable ↔ c.name ≠ "" ∧ c.name.toList.all Eligibility.isWordChar ∧ c.name ≠ "AND" ∧
      c.name ≠ "OR" ∧ readNumber c.name.toList = .noNumber ∧ c.value.IsPrintable c.comparison := by
  rw [List.all_eq_true]
  constructor
  · rintro ⟨h_empty, h_word, h_and, h_or, h_number, h_value⟩
    exact ⟨h_empty, h_word, h_and, h_or, h_number, h_value⟩
  · rintro ⟨h_empty, h_word, h_and, h_or, h_number, h_value⟩
    exact ⟨h_empty, h_word, h_and, h_or, h_number, h_value⟩

instance : DecidablePred Condition.IsPrintable :=
  fun c => decidable_of_iff' _ c.isPrintable_iff

/-- All conditions of the rule are printable. -/
def Rule.IsPrintable (r : Rule) : Prop := ∀ c ∈ r.conditions, c.IsPrintable

/-! ### Numbers in quotes -/

/-- The value that rule text says with a literal: to the right of an ordering comparison, the text
of a number is the number. -/
def Value.unquoted (comparison : Comparison) : Value → Value
  | .text s =>
    if comparison.isOrdering then
      match readNumber (trimBlanks s.toList) with
      | .number v => v
      | _ => .text s
    else .text s
  | v => v

/-- The condition with the number that its literal is the text of, if it is one. -/
def Condition.unquoted (c : Condition) : Condition :=
  { c with value := c.value.unquoted c.comparison }

/-- The rule with all its conditions unquoted. -/
def Rule.unquoted : Rule → Rule
  | .test c => .test c.unquoted
  | .join op left right => .join op left.unquoted right.unquoted

/-- A value that can be printed is no text where a number has to be. -/
theorem Value.unquoted_of_isPrintable {v : Value} {comparison : Comparison}
    (h : v.IsPrintable comparison) : v.unquoted comparison = v := by
  cases v with
  | int n => rfl
  | float x => rfl
  | text s =>
    obtain rfl : comparison = .equal := h
    rfl

theorem Condition.unquoted_of_isPrintable {c : Condition} (h : c.IsPrintable) : c.unquoted = c := by
  rw [Condition.unquoted, Value.unquoted_of_isPrintable h.value]

theorem Rule.unquoted_of_isPrintable {r : Rule} (h : ∀ c ∈ r.leaves, c.IsPrintable) :
    r.unquoted = r := by
  induction r with
  | test c =>
    rw [Rule.unquoted, Condition.unquoted_of_isPrintable (h c (List.mem_singleton.mpr rfl))]
  | join op left right ihl ihr =>
    rw [Rule.unquoted, ihl fun c hc => h c (List.mem_append_left _ hc),
      ihr fun c hc => h c (List.mem_append_right _ hc)]

/-! ### Words of a text -/

/-- A run of word characters. -/
def IsWord (s : String) : Prop := s ≠ "" ∧ ∀ ch ∈ s.toList, isWordChar ch

instance : DecidablePred IsWord := fun s =>
  decidable_of_iff (s ≠ "" ∧ s.toList.all isWordChar) (by rw [IsWord, List.all_eq_true])

theorem Condition.IsPrintable.isWord {c : Condition} (h : c.IsPrintable) : IsWord c.name :=
  ⟨h.name_ne_empty, h.isWordChar⟩

/-- A token that is a word consists of word characters. -/
def Token.WordOk (t : Token) : Prop := ∀ w, t.lexeme = .word w → IsWord w

theorem wordOk_of_scanToken {c : Char} {cs rest raw : List Char} {lexeme : Lexeme}
    (h_blank : isBlank c = false) (h : scanToken c cs = some (lexeme, raw, rest)) (offset : Nat)
    (s : String) : Token.WordOk ⟨lexeme, offset, s⟩ := by
  intro w hw
  obtain rfl : lexeme = .word w := hw
  obtain ⟨-, h_written, -⟩ := written_of_scanToken h_blank h
  cases h_written with
  | word h_ne h_run =>
    refine ⟨fun h_empty => h_ne (String.ofList_eq_empty_iff.mp h_empty), ?_⟩
    rw [String.toList_ofList]
    exact h_run

theorem wordOk_of_tokensFrom {offset : Nat} {cs : List Char} {found ts : List Token}
    (h_found : ∀ t ∈ found, t.WordOk) (h : tokensFrom offset cs found = .ok ts) :
    ∀ t ∈ ts, t.WordOk := by
  fun_induction tokensFrom offset cs found with
  | case1 offset found =>
    obtain rfl := Except.ok.inj h
    exact fun t ht => h_found t (List.mem_reverse.mp ht)
  | case2 offset found c cs h_blank ih => exact ih h_found h
  | case3 => exact absurd h (by simp)
  | case4 offset found c cs h_blank lexeme raw rest h_scan s ih =>
    refine ih (List.forall_mem_cons.mpr ⟨?_, h_found⟩) h
    exact wordOk_of_scanToken (by simpa using h_blank) h_scan offset s

/-- Every word of a text consists of word characters. -/
theorem wordOk_of_tokenize {text : String} {ts : List Token} (h : tokenize text = .ok ts) :
    ∀ t ∈ ts, t.WordOk :=
  wordOk_of_tokensFrom (List.forall_mem_nil _) h

/-! ### Conditions of a text -/

/-- What is read as a number can be printed under any comparison. -/
theorem isPrintable_of_readNumber {cs : List Char} {v : Value} (h : readNumber cs = .number v)
    (comparison : Comparison) : v.IsPrintable comparison := by
  unfold readNumber at h
  split at h
  · obtain rfl := NumberReading.number.inj h
    trivial
  · split at h
    · exact absurd h (by simp)
    · split at h
      · -- a literal that overflows is an error, so what is read is finite
        next h_finite =>
        obtain rfl := NumberReading.number.inj h
        exact h_finite
      · exact absurd h (by simp)

theorem isPrintable_of_numberOrText {cs : List Char} {s : String} {v : Value}
    (h : numberOrText cs s = .ok v) (comparison : Comparison) :
    v.IsPrintable comparison ∨ v = .text s := by
  unfold numberOrText at h
  split at h
  · next h_read =>
    obtain rfl := Except.ok.inj h
    exact .inl (isPrintable_of_readNumber h_read comparison)
  · exact absurd h (by simp)
  · exact .inr (Except.ok.inj h).symm

/-- A literal is a number that can be printed, or a text. -/
theorem isPrintable_of_valueOf {comparison : Comparison} {t : Token} {v : Value}
    (h : valueOf comparison t = .ok v) : v.IsPrintable comparison ∨ ∃ s, v = .text s := by
  unfold valueOf at h
  split at h
  · next s h_lex =>
    split at h
    · exact (isPrintable_of_numberOrText h comparison).imp id fun h_text => ⟨s, h_text⟩
    · exact .inr ⟨s, (Except.ok.inj h).symm⟩
  · next w h_lex =>
    exact (isPrintable_of_numberOrText h comparison).imp id fun h_text => ⟨w, h_text⟩
  all_goals exact absurd h (by simp)

/-- A text stays only where the comparison asks for no number. -/
theorem isPrintable_of_checkOrdering {comparison : Comparison} {v v' : Value}
    (h : checkOrdering comparison v = .ok v')
    (hv : v.IsPrintable comparison ∨ ∃ s, v = .text s) : v'.IsPrintable comparison := by
  unfold checkOrdering at h
  split at h
  · exact absurd h (by simp)
  · next h_ok =>
    obtain rfl := Except.ok.inj h
    rcases hv with hv | ⟨s, rfl⟩
    · exact hv
    · cases comparison with
      | equal => rfl
      -- an ordering comparison refuses a text
      | _ => exact absurd rfl h_ok

/-- The name of a condition comes from a word that is no number. -/
theorem word_of_attributeName? {t : Token} {name : String} (h : attributeName? t = some name) :
    t.lexeme = .word name ∧ readNumber name.toList = .noNumber := by
  unfold attributeName? at h
  split at h
  · next w h_lex =>
    split at h
    · next h_read =>
      obtain rfl := Option.some.inj h
      exact ⟨h_lex, h_read⟩
    · exact absurd h (by simp)
  · exact absurd h (by simp)

/-- A field that is a word is no keyword. -/
theorem ne_keyword_of_isField {t : Token} {w : String} (h : t.isField) (hw : t.lexeme = .word w) :
    w ≠ "AND" ∧ w ≠ "OR" := by
  have h_key := Token.keyword?_of_isField h
  rw [Token.keyword?, hw] at h_key
  refine ⟨?_, ?_⟩
  · rintro rfl
    exact absurd h_key (by decide)
  · rintro rfl
    exact absurd h_key (by decide)

/-- Three fields are read one by one. -/
theorem readCondition_eq_ok_iff {s o t : Token} {c : Condition} :
    readCondition [s, o, t] = .ok c ↔ attributeName? s = some c.name ∧
      comparisonOf? o = some c.comparison ∧
      (valueOf c.comparison t >>= checkOrdering c.comparison) = .ok c.value := by
  obtain ⟨name, comparison, v⟩ := c
  constructor
  · intro h
    rw [readCondition] at h
    split at h
    · exact absurd h (by simp)
    next h_name =>
      split at h
      · exact absurd h (by simp)
      next h_cmp =>
        split at h
        · exact absurd h (by simp)
        next h_value =>
          -- all three fields have been read, and they are the parts of the condition
          obtain ⟨rfl, rfl, rfl⟩ := Condition.mk.inj (Except.ok.inj h)
          exact ⟨h_name, h_cmp, h_value⟩
  · rintro ⟨h_name, h_cmp, h_value⟩
    simp only [readCondition, h_name, h_cmp, h_value]

/-- Fields from a text make a printable condition. -/
theorem isPrintable_of_readCondition {s o t : Token} {c : Condition} (hs : s.isField)
    (h_word : s.WordOk) (h : readCondition [s, o, t] = .ok c) : c.IsPrintable := by
  obtain ⟨h_name, -, h_value⟩ := readCondition_eq_ok_iff.mp h
  -- the name is a word of the text, no number and no keyword
  obtain ⟨h_lex, h_read⟩ := word_of_attributeName? h_name
  obtain ⟨h_and, h_or⟩ := ne_keyword_of_isField hs h_lex
  -- the value is the one that was read, and it has passed the check of its comparison
  obtain ⟨v, h_value, h_check⟩ := exists_of_bind_eq_ok h_value
  exact ⟨(h_word c.name h_lex).1, (h_word c.name h_lex).2, h_and, h_or, h_read,
    isPrintable_of_checkOrdering h_check (isPrintable_of_valueOf h_value)⟩

/-- The leaves of a derivation over tokens of a text are printable. -/
theorem isPrintable_of_derives {phrase : Phrase} {ts : List Token} {r : Rule}
    (h : Derives phrase ts r) (h_word : ∀ t ∈ ts, t.WordOk) : ∀ c ∈ r.leaves, c.IsPrintable := by
  -- over the derivation: only its first case reads fields
  induction h with
  | condition hs ho hv hc =>
    intro c h_mem
    obtain rfl := List.mem_singleton.mp h_mem
    exact isPrintable_of_readCondition hs (h_word _ (by simp)) hc
  | group ho hc _ ih => exact ih fun t ht => h_word t (by simp [ht])
  | single _ ih => exact ih h_word
  | joined _ hk _ ihl ihr =>
    intro c h_mem
    rcases List.mem_append.mp h_mem with h_mem | h_mem
    · exact ihl (fun t ht => h_word t (by simp [ht])) c h_mem
    · exact ihr (fun t ht => h_word t (by simp [ht])) c h_mem

/-- **What is read is printable.** -/
theorem Rule.isPrintable_of_parse {limits : Limits} {text : String} {r : Rule}
    (h : Rule.parse limits text = .ok r) : r.IsPrintable := by
  obtain ⟨ts, h_tokens, -, h_der, -⟩ := Rule.parse_eq_ok_iff.mp h
  intro c h_mem
  rw [Rule.conditions_eq_leaves] at h_mem
  exact isPrintable_of_derives h_der (wordOk_of_tokenize h_tokens) c h_mem

end Eligibility
