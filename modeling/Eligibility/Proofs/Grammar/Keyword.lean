import Eligibility.Proofs.Grammar.Fault
import Eligibility.Proofs.Grammar.Grouping
import Eligibility.Proofs.Grammar.Spacing

/-!
# Keywords in the wrong case

`and` is no keyword, and neither is `Or`. Such a word is not taken for anything else where a keyword
has to stand, as the rule would then go on in a way that nobody meant. In every other place it is a
word as any other.

Whether a keyword has to stand somewhere is a guess of the machine, made before it has read the
fields that it holds (`Machine.keywordDue`). Behind a text that is a rule the guess is right: the
invariant leaves a level that has come to a rule, or fields, and fields that make a condition are
three (`Machine.Reads.keywordDue_of_finish`). The text behind the word has no part in this, as a run
that is refused does not go on.
-/

namespace Eligibility

/-! ### Words in another case -/

/-- The ways to write these lower-case letters with some of them as capitals. -/
def recasings : List Char → List (List Char)
  | [] => [[]]
  | c :: cs => (recasings cs).flatMap fun ds => [c :: ds, c.toUpper :: ds]

/-- **A keyword in the wrong case**: but for the case it is one, and as it stands it is none. -/
def Connective.IsMiscased (w : String) : Prop :=
  (∃ op : Connective, w.toList.map Char.toLower = op.keyword.toList.map Char.toLower) ∧
    ∀ op : Connective, w ≠ op.keyword

/-- A letter in lower case comes from itself or from the capital. -/
theorem eq_toLower_or_eq_toUpper (c : Char) : c = c.toLower ∨ c = c.toLower.toUpper := by
  unfold Char.toLower
  split
  · right
    -- an upper case letter is 32 below its lower case, and back again
    apply Char.ext
    unfold Char.toUpper
    grind
  · exact .inl rfl

theorem mem_recasings (cs : List Char) : cs ∈ recasings (cs.map Char.toLower) := by
  induction cs with
  | nil => exact List.mem_singleton.mpr rfl
  | cons c cs ih =>
    refine List.mem_flatMap.mpr ⟨cs, ih, ?_⟩
    rcases eq_toLower_or_eq_toUpper c with h | h
    · rw [← h]
      exact List.mem_cons_self
    · rw [← h]
      exact List.mem_cons_of_mem _ (List.mem_singleton.mpr rfl)

namespace Connective.IsMiscased

variable {w : String}

/-- There are few such words, so what they have in common can be tried out. -/
theorem of_recasings (h : IsMiscased w) {p : List Char → Prop}
    (h_all : ∀ op : Connective, ∀ cs ∈ recasings (op.keyword.toList.map Char.toLower), p cs) :
    p w.toList := by
  obtain ⟨op, h_lower⟩ := h.1
  have h_mem := mem_recasings w.toList
  rw [h_lower] at h_mem
  exact h_all op _ h_mem

theorem toList_ne_nil (h : IsMiscased w) : w.toList ≠ [] := by
  apply h.of_recasings (p := fun cs => cs ≠ [])
  intro op
  cases op <;> decide

theorem isWordChar (h : IsMiscased w) : ∀ c ∈ w.toList, Eligibility.isWordChar c := by
  have h_all : w.toList.all Eligibility.isWordChar := by
    apply h.of_recasings (p := fun cs => cs.all Eligibility.isWordChar)
    intro op
    cases op <;> decide
  exact List.all_eq_true.mp h_all

theorem readNumber (h : IsMiscased w) : Eligibility.readNumber w.toList = .noNumber := by
  apply h.of_recasings (p := fun cs => Eligibility.readNumber cs = .noNumber)
  intro op
  cases op <;> decide

theorem ofKeyword?_eq_none (h : IsMiscased w) : ofKeyword? w = none := by
  have h_and : w ≠ "AND" := h.2 .and
  have h_or : w ≠ "OR" := h.2 .or
  rw [ofKeyword?, if_neg h_and, if_neg h_or]

theorem isMiscasedKeyword (h : IsMiscased w) : Machine.isMiscasedKeyword w := by
  obtain ⟨op, h_lower⟩ := h.1
  unfold Machine.isMiscasedKeyword
  rw [h_lower]
  cases op <;> decide

theorem written (h : IsMiscased w) : Written (.word w) w.toList := by
  have h_written := Written.word h.toList_ne_nil h.isWordChar
  rwa [String.ofList_toList] at h_written

theorem isField (h : IsMiscased w) {t : Token} (ht : t.lexeme = .word w) : t.isField :=
  isField_of_lexeme_word ht (h.2 .and) (h.2 .or)

/-- It is a name like any other. -/
theorem isPrintable (h : IsMiscased w) : (Condition.mk w .equal (.text w)).IsPrintable where
  name_ne_empty := fun h_empty => h.toList_ne_nil (String.toList_eq_nil_iff.mpr h_empty)
  isWordChar := h.isWordChar
  name_ne_and := h.2 .and
  name_ne_or := h.2 .or
  noNumber := h.readNumber
  value := rfl

end Connective.IsMiscased

/-! ### Behind a rule -/

namespace Machine

variable {limits : Limits} {m m' : Machine} {t : Token} {ts us : List Token}

/-- Fields that make a condition are three. -/
theorem keywordDue_of_readCondition {c : Condition} (h : readCondition m.fields.reverse = .ok c) :
    m.keywordDue := by
  have h_three : m.fields.reverse.length = 3 := by
    by_contra h_ne
    rw [readCondition_of_length_ne h_ne] at h
    exact absurd h (by simp)
  rw [List.length_reverse] at h_three
  obtain ⟨v, o, s, h_fields⟩ := List.length_eq_three.mp h_three
  rw [keywordDue, h_fields]

/-- **Behind a rule a keyword is due.** -/
theorem Reads.keywordDue_of_finish {size : Nat} {r : Rule} (h : Reads m ts)
    (h_ok : m.finish size = .ok r) : m.keywordDue := by
  cases h with
  | complete => rfl
  | @awaiting outer w _ _ fields hb hw hf =>
    obtain ⟨m₁, h_done, -⟩ := exists_of_bind_eq_ok h_ok
    rcases completeCondition_cases h_done with ⟨rfl, rfl⟩ | ⟨c, hc, rfl⟩
    · -- an operand that is still to come is missed at the end
      cases outer with
      | nil =>
        rw [finish_of_awaiting h_done] at h_ok
        exact absurd h_ok (by simp)
      | cons l outer =>
        rw [finish_of_frames h_done rfl] at h_ok
        exact absurd h_ok (by simp)
    · exact keywordDue_of_readCondition hc

/-- In a keyword's place a keyword in the wrong case is refused. -/
theorem takeToken_of_keywordDue (limits : Limits) {w : String} (h : m.keywordDue)
    (ht : t.lexeme = .word w) (hw : Connective.IsMiscased w) :
    m.takeToken limits t = .error (.unsupportedOperator w t.offset) := by
  -- where a keyword is due, a word is refused that is one but for its case
  have h_refused : m.keywordDue && isMiscasedKeyword w := by
    rw [h, hw.isMiscasedKeyword]
    rfl
  unfold takeToken
  rw [ht]
  simp only [hw.ofKeyword?_eq_none]
  rw [if_pos h_refused]

/-- A run that is refused does not go on. -/
theorem run_append_cons_eq_error {e : ParseError} (h_run : run limits m ts = .ok m')
    (h_err : m'.takeToken limits t = .error e) : run limits m (ts ++ t :: us) = .error e := by
  rw [run_append, h_run, ok_bind, run_cons, h_err, error_bind]

end Machine

/-- Tokens are read by a run of the machine and its end. -/
theorem Rule.ofTokens_eq_run {limits : Limits} {size : Nat} {ts : List Token} (h : ts ≠ []) :
    Rule.ofTokens limits size ts = Machine.run limits {} ts >>= fun m => m.finish size := by
  obtain ⟨t, ts, rfl⟩ := List.exists_cons_of_ne_nil h
  rfl

/-! ### Adjacent texts -/

theorem Tiling.append_gap {before gap text : List Char} {ts : List Token}
    (h_gap : ∀ c ∈ gap, isBlank c) (h : Tiling (before ++ gap) text ts) :
    Tiling before (gap ++ text) ts := by
  induction gap generalizing before with
  | nil => rwa [List.append_nil] at h
  | cons c gap ih =>
    obtain ⟨h_blank, h_gap⟩ := List.forall_mem_cons.mp h_gap
    refine .cons_blank h_blank (ih h_gap ?_)
    rwa [List.append_assoc, List.singleton_append]

/-- Texts that no token reaches across are tiled one after the other. -/
theorem Tiling.append {before text rest : List Char} {ts us : List Token}
    (h : Tiling before text ts) (h_end : ∀ lexeme : Lexeme, lexeme.EndsBefore rest)
    (h' : Tiling (before ++ text) rest us) : Tiling before (text ++ rest) (ts ++ us) := by
  induction h with
  | blanks h_gap => exact .append_gap h_gap h'
  -- a token that ended with the text ends before the rest as well
  | @token before gap raw text lexeme ts h_gap h_raw h_last _ ih =>
    rw [List.append_assoc]
    refine .token h_gap h_raw (h_last.append (h_end lexeme)) (ih ?_)
    simpa only [List.append_assoc] using h'

/-- Where a word stands between two texts, its token stands between theirs. What is behind it are
some tokens, in other places than those of the text alone. -/
theorem exists_tokenize_word_between {a c w : String} {ts us : List Token}
    (ha : tokenize a = .ok ts) (hw : Written (.word w) w.toList) (hc : tokenize c = .ok us) :
    ∃ vs, tokenize (a ++ " " ++ w ++ " " ++ c)
      = .ok (ts ++ ⟨.word w, a.utf8ByteSize + 1, w⟩ :: vs) := by
  have h_end (lexeme : Lexeme) (rest : List Char) : lexeme.EndsBefore (' ' :: rest) :=
    lexeme.endsBefore_cons (by decide) (by decide) rest
  have h_front := tiling_of_tokenize ha
  have h_back := tiling_of_tokenize hc
  let before := [] ++ a.toList ++ [' ']
  -- the text behind the word is tiled alike, wherever it stands
  obtain ⟨vs, h_vs, -⟩ :=
    h_back.spaced.exists_tiling h_back.written (before ++ w.toList ++ [' '])
  have h_rest := h_vs.cons_blank (c := ' ') (by decide)
  have h_gap : ∀ c ∈ [' '], isBlank c := List.forall_mem_singleton.mpr rfl
  have h_word := Tiling.token h_gap hw (h_end _ _) h_rest
  have h_seam (lexeme : Lexeme) : lexeme.EndsBefore ([' '] ++ w.toList ++ ' ' :: c.toList) :=
    h_end lexeme _
  have h_whole := h_front.append h_seam h_word
  have h_text : (a ++ " " ++ w ++ " " ++ c).toList
      = a.toList ++ ([' '] ++ w.toList ++ ' ' :: c.toList) := by
    simp [List.append_assoc]
  have h_offset : (String.ofList before).utf8ByteSize = a.utf8ByteSize + 1 := by
    rw [utf8ByteSize_append, List.nil_append, String.ofList_toList]
    rfl
  rw [h_offset, String.ofList_toList, ← h_text] at h_whole
  exact ⟨vs, tokenize_of_tiling h_whole⟩

/-! ### Texts with such a word -/

section

variable {m : Nat} {a w : String} {r : Rule}

/-- **A rule is not continued** by a keyword in the wrong case. -/
theorem Rule.parse_append_miscased (h : Rule.parse ⟨m⟩ a = .ok r) (hw : Connective.IsMiscased w)
    {c : String} {us : List Token} (hc : tokenize c = .ok us) :
    Rule.parse ⟨m⟩ (a ++ " " ++ w ++ " " ++ c)
      = .error (.unsupportedOperator w (a.utf8ByteSize + 1)) := by
  obtain ⟨ts, h_tokens, h_parse⟩ := exists_of_bind_eq_ok h
  have h_ne : ts ≠ [] := by
    rintro rfl
    exact absurd h_parse (by simp [Rule.ofTokens])
  rw [Rule.ofTokens_eq_run h_ne] at h_parse
  obtain ⟨m₁, h_run, h_finish⟩ := exists_of_bind_eq_ok h_parse
  obtain ⟨vs, h_whole⟩ := exists_tokenize_word_between h_tokens hw.written hc
  -- the run over the rule comes to a place for a keyword, and no further
  have h_due := (Machine.Reads.initial.run h_run).keywordDue_of_finish h_finish
  have h_word := Machine.takeToken_of_keywordDue ⟨m⟩ (t := ⟨.word w, a.utf8ByteSize + 1, w⟩)
    h_due rfl hw
  rw [Rule.parse, h_whole, ok_bind, Rule.ofTokens_eq_run (by simp),
    Machine.run_append_cons_eq_error h_run h_word, error_bind]

/-- Such a word is the name and the literal of a condition. -/
theorem Spells.miscased (hw : Connective.IsMiscased w) (depth : Nat) :
    Spells .operand [.word w, .symbol "=", .word w] (.test ⟨w, .equal, .text w⟩) depth := by
  intro ts h_lex
  obtain ⟨h_der, h_deep⟩ := derives_of_fields (c := ⟨w, .equal, .text w⟩) hw.isPrintable
    (fun t ht => ⟨hw.isField ht, valueOf_of_noNumber ht hw.readNumber⟩) h_lex
  exact ⟨h_der, h_deep ▸ Nat.zero_le depth⟩

theorem Scans.miscased (hw : Connective.IsMiscased w) :
    Scans (w ++ " = " ++ w).toList [.word w, .symbol "=", .word w] [] := by
  have h_end : EndsWord [] := fun c hc => absurd hc (by simp)
  have h_scans := (Scans.word hw.toList_ne_nil hw.isWordChar (endsWord_blank _)).trans <|
    (Scans.blank _).trans <| (Scans.comparison .equal _).trans <|
    (Scans.blank _).trans <| Scans.word hw.toList_ne_nil hw.isWordChar h_end
  rw [String.ofList_toList] at h_scans
  simpa [Comparison.symbol, List.append_assoc] using h_scans

/-- **Elsewhere it is a word**, both where an attribute has to stand and where a literal has to. -/
theorem Rule.parse_and_miscased (h : Rule.parse ⟨m⟩ a = .ok r) (hw : Connective.IsMiscased w) :
    Rule.parse ⟨m⟩ (a ++ " AND " ++ w ++ " = " ++ w)
      = .ok (.join .and r (.test ⟨w, .equal, .text w⟩)) := by
  obtain ⟨ts, h_tokens, -, h_der, h_deep⟩ := Rule.parse_eq_ok_iff.mp h
  have h_seam : EndsToken ((" " ++ Connective.and.keyword ++ " ").toList ++
      (w ++ " = " ++ w).toList) := by
    intro c hc
    obtain rfl := Option.some.inj hc
    decide
  obtain ⟨ts', h_eq, h_front⟩ := scans_of_tokensFrom h_seam h_tokens
  obtain rfl : ts = ts' := h_eq
  -- the scanner finds the rule, the keyword and the condition, and the grammar joins them
  have h_scans := h_front.trans <| (Scans.keyword .and _).trans (Scans.miscased hw)
  have h_text : (a ++ " AND " ++ w ++ " = " ++ w).toList
      = a.toList ++
        ((" " ++ Connective.and.keyword ++ " ").toList ++ (w ++ " = " ++ w).toList) := by
    simp [Connective.keyword, List.append_assoc]
  rw [← h_text] at h_scans
  obtain ⟨us, h_us, h_lex⟩ := h_scans.exists_tokens
  obtain ⟨h_joined, h_nest⟩ :=
    (Spells.of_derives h_der h_deep).joined .and (.miscased hw m) us h_lex
  exact Rule.parse_eq_ok_iff.mpr ⟨us, h_us, h_joined.ne_nil, h_joined, h_nest⟩

/-- **Keywords in the wrong case.** A text that is a rule is not continued by such a word, whatever
stands behind it: the word is refused, in its place behind the rule and one blank. But where a
condition is to come, the word is its name, and its literal. -/
theorem Rule.parse_miscased (h : Rule.parse ⟨m⟩ a = .ok r) (hw : Connective.IsMiscased w) :
    (∀ (c : String) (us : List Token), tokenize c = .ok us →
      Rule.parse ⟨m⟩ (a ++ " " ++ w ++ " " ++ c)
        = .error (.unsupportedOperator w (a.utf8ByteSize + 1))) ∧
    Rule.parse ⟨m⟩ (a ++ " AND " ++ w ++ " = " ++ w)
      = .ok (.join .and r (.test ⟨w, .equal, .text w⟩)) :=
  ⟨fun _ _ hc => Rule.parse_append_miscased h hw hc, Rule.parse_and_miscased h hw⟩

end

/-- A rule that ends with a group. Behind the word stands a parenthesis that is never closed, and
the error is still about the word. -/
theorem Rule.parse_miscased_group :
    let a := "(é = 1)"
    let r : Rule := .test ⟨"é", .equal, .int 1⟩
    Rule.parse ⟨1⟩ a = .ok r ∧ Connective.IsMiscased "oR" ∧
      Rule.parse ⟨1⟩ (a ++ " " ++ "oR" ++ " " ++ "(") = .error (.unsupportedOperator "oR" 9) ∧
      Rule.parse ⟨1⟩ (a ++ " AND " ++ "oR" ++ " = " ++ "oR")
        = .ok (.join .and r (.test ⟨"oR", .equal, .text "oR"⟩)) := by
  intro a r
  have h : Rule.parse ⟨1⟩ a = .ok r := by decide +kernel
  have hw : Connective.IsMiscased "oR" := by
    -- it is `or` in some other case, and neither keyword as it stands
    refine ⟨⟨.or, by decide⟩, fun op => ?_⟩
    cases op <;> decide
  have h_tokens : tokenize "(" = .ok [⟨.opening, 0, "("⟩] := by decide +kernel
  obtain ⟨h_refused, h_word⟩ := Rule.parse_miscased h hw
  exact ⟨h, hw, h_refused "(" _ h_tokens, h_word⟩

end Eligibility
