import Eligibility.Proofs.Grammar.Canonical
import Eligibility.Proofs.Rule.Obtainable
import Mathlib.Data.List.Forall2

/-!
# Combining texts

Rules can be combined as trees, or their texts can be put in parentheses with the keyword between
them and read as one rule. Both give the same tree (`Rule.parse_groupedText`).

The scanner comes first. What it takes from a text it takes as well where something follows that no
token can go on with, such as a closing parenthesis: nothing that it has found, in quotes or not,
reaches over the seam (`scans_of_tokensFrom`). So the tokens of the whole are those of the parts, but
for their places.

Places do not matter to the grammar. What a list of lexemes spells (`Spells`), any tokens with these
lexemes derive, and on lexemes the grammar composes: a text in parentheses is an operand, and
operands with a keyword between any two are joined from the left, as rules are when they are
combined. The parentheses cost one level of nesting.
-/

namespace Eligibility

/-! ### Scanning up to a seam -/

/-- No token goes on with such characters. -/
def EndsToken (rest : List Char) : Prop :=
  ∀ c ∈ rest.head?, isWordChar c = false ∧ isComparisonChar c = false

theorem endsToken_closing (cs : List Char) : EndsToken (')' :: cs) := by
  intro c hc
  obtain rfl := Option.some.inj hc
  decide

theorem EndsToken.endsBefore {rest : List Char} (h : EndsToken rest) (lexeme : Lexeme) :
    lexeme.EndsBefore rest := by
  cases rest with
  | nil => exact lexeme.endsBefore_nil
  | cons c rest => exact lexeme.endsBefore_cons (h c rfl).1 (h c rfl).2 rest

/-- **Scanning up to a seam.** The tokens of a text are found in it as well where it stands in front
of something that no token goes on with, wherever that is. -/
theorem scans_of_tokensFrom {offset : Nat} {cs rest : List Char} {found all : List Token}
    (h_end : EndsToken rest) (h : tokensFrom offset cs found = .ok all) :
    ∃ ts, all = found.reverse ++ ts ∧ Scans (cs ++ rest) (ts.map Token.lexeme) rest := by
  fun_induction tokensFrom offset cs found with
  | case1 offset found =>
    obtain rfl := Except.ok.inj h
    exact ⟨[], (List.append_nil _).symm, Scans.refl rest⟩
  | case2 offset found c cs h_blank ih =>
    obtain ⟨ts, h_all, h_scans⟩ := ih h
    exact ⟨ts, h_all, (Scans.of_isBlank h_blank _).trans h_scans⟩
  | case3 => exact absurd h (by simp)
  -- the token ends where it did: before the rest of its own text, or before what follows that
  | case4 offset found c cs h_blank lexeme raw after h_scan s ih =>
    obtain ⟨ts, rfl, h_scans⟩ := ih h
    refine ⟨⟨lexeme, offset, s⟩ :: ts, by simp, ?_⟩
    obtain ⟨h_eq, h_raw, h_last⟩ := written_of_scanToken (by simpa using h_blank) h_scan
    rw [h_eq, List.append_assoc]
    exact (Scans.written h_raw (h_last.append (h_end.endsBefore lexeme))).trans h_scans

/-- A text in front of a closing parenthesis. -/
theorem Scans.closed {text : String} {ts : List Token} (h : tokenize text = .ok ts)
    (rest : List Char) :
    Scans (text.toList ++ ')' :: rest) (ts.map Token.lexeme) (')' :: rest) := by
  obtain ⟨ts', h_all, h_scans⟩ := scans_of_tokensFrom (endsToken_closing rest) h
  obtain rfl : ts = ts' := h_all
  exact h_scans

/-! ### The grammar of lexemes -/

section Lexemes

variable {s o v s' o' v' : Token}

theorem keyword?_congr (h : s'.lexeme = s.lexeme) : s'.keyword? = s.keyword? := by
  rw [Token.keyword?, Token.keyword?, h]

theorem isField_congr (h : s'.lexeme = s.lexeme) : s'.isField = s.isField := by
  rw [Token.isField, Token.isField, h, keyword?_congr h]

/-- Fields make the same condition wherever they stand. -/
theorem readCondition_congr {c : Condition} (hs : s'.lexeme = s.lexeme) (ho : o'.lexeme = o.lexeme)
    (hv : v'.lexeme = v.lexeme) (h : readCondition [s, o, v] = .ok c) :
    readCondition [s', o', v'] = .ok c := by
  have h_name : attributeName? s' = attributeName? s := by
    rw [attributeName?, attributeName?, hs]
  have h_comparison : comparisonOf? o' = comparisonOf? o := by
    rw [comparisonOf?, comparisonOf?, ho]
  have h_value (comparison : Comparison) : valueOf comparison v' = valueOf comparison v := by
    rw [valueOf, valueOf, hv]
  -- only the errors tell places, and there is none
  rw [readCondition_eq_ok_iff] at h ⊢
  rwa [h_name, h_comparison, h_value]

end Lexemes

/-- Nesting is a matter of lexemes. -/
theorem deepest_congr {ts us : List Token} (h : us.map Token.lexeme = ts.map Token.lexeme)
    (depth : Nat) : deepest depth us = deepest depth ts := by
  induction ts generalizing us depth with
  | nil => rw [List.map_eq_nil_iff.mp h]
  | cons t ts ih =>
    obtain ⟨u, us, rfl, hu, h⟩ := List.map_eq_cons_iff.mp h
    rw [deepest, deepest, hu, ih h, ih h, ih h]

/-- **Places do not matter**: tokens with the same lexemes are the same phrase. -/
theorem Derives.congr {phrase : Phrase} {ts us : List Token} {r : Rule} (h : Derives phrase ts r)
    (h_lex : us.map Token.lexeme = ts.map Token.lexeme) : Derives phrase us r := by
  -- the tokens are cut where the phrase is, as their lexemes are
  induction h generalizing us with
  | condition hs ho hv hc =>
    obtain ⟨s, us, rfl, hs', h_lex⟩ := List.map_eq_cons_iff.mp h_lex
    obtain ⟨o, us, rfl, ho', h_lex⟩ := List.map_eq_cons_iff.mp h_lex
    obtain ⟨v, us, rfl, hv', h_lex⟩ := List.map_eq_cons_iff.mp h_lex
    obtain rfl := List.map_eq_nil_iff.mp h_lex
    exact .condition (isField_congr hs' ▸ hs) (isField_congr ho' ▸ ho) (isField_congr hv' ▸ hv)
      (readCondition_congr hs' ho' hv' hc)
  | group ho hc _ ih =>
    rw [List.map_cons, List.map_append, List.map_singleton] at h_lex
    obtain ⟨o, us, rfl, ho', h_lex⟩ := List.map_eq_cons_iff.mp h_lex
    obtain ⟨inner, close, rfl, h_inner, h_close⟩ := List.map_eq_append_iff.mp h_lex
    obtain ⟨c, rfl, hc'⟩ := List.map_eq_singleton_iff.mp h_close
    exact .group (ho'.trans ho) (hc'.trans hc) (ih h_inner)
  | single _ ih => exact .single (ih h_lex)
  | joined _ hk _ ihl ihr =>
    rw [List.map_append, List.map_cons] at h_lex
    obtain ⟨left, right, rfl, h_left, h_lex⟩ := List.map_eq_append_iff.mp h_lex
    obtain ⟨k, right, rfl, hk', h_right⟩ := List.map_eq_cons_iff.mp h_lex
    exact .joined (ihl h_left) ((keyword?_congr hk').trans hk) (ihr h_right)

/-- Any tokens with these lexemes are a phrase with this tree, and nest so deep at most. -/
def Spells (phrase : Phrase) (lexemes : List Lexeme) (r : Rule) (depth : Nat) : Prop :=
  ∀ ts : List Token, ts.map Token.lexeme = lexemes → Derives phrase ts r ∧ nesting ts ≤ depth

namespace Spells

variable {ls ms : List Lexeme} {r left right : Rule} {depth : Nat}

theorem of_derives {phrase : Phrase} {ts : List Token} (h : Derives phrase ts r)
    (h_deep : nesting ts ≤ depth) : Spells phrase (ts.map Token.lexeme) r depth := by
  intro us h_lex
  refine ⟨h.congr h_lex, ?_⟩
  rw [nesting, deepest_congr h_lex]
  exact h_deep

theorem group (h : Spells .expression ls r depth) :
    Spells .operand (.opening :: (ls ++ [.closing])) r (depth + 1) := by
  intro ts h_lex
  obtain ⟨o, ts, rfl, ho, h_lex⟩ := List.map_eq_cons_iff.mp h_lex
  obtain ⟨inner, close, rfl, h_inner, h_close⟩ := List.map_eq_append_iff.mp h_lex
  obtain ⟨c, rfl, hc⟩ := List.map_eq_singleton_iff.mp h_close
  -- the parentheses are one level more than what they enclose
  obtain ⟨h_der, h_deep⟩ := h inner h_inner
  refine ⟨.group ho hc h_der, ?_⟩
  rw [nesting_group ho hc h_der]
  exact Nat.succ_le_succ h_deep

theorem single (h : Spells .operand ls r depth) : Spells .expression ls r depth :=
  fun ts h_lex => ⟨.single (h ts h_lex).1, (h ts h_lex).2⟩

theorem joined (op : Connective) (hl : Spells .expression ls left depth)
    (hr : Spells .operand ms right depth) :
    Spells .expression (ls ++ .word op.keyword :: ms) (.join op left right) depth := by
  intro ts h_lex
  obtain ⟨us, vs, rfl, h_left, h_lex⟩ := List.map_eq_append_iff.mp h_lex
  obtain ⟨k, vs, rfl, hk, h_right⟩ := List.map_eq_cons_iff.mp h_lex
  have h_key := keyword?_of_lexeme_keyword hk
  refine ⟨.joined (hl us h_left).1 h_key (hr vs h_right).1, ?_⟩
  rw [nesting, deepest_joined (hl us h_left).1 h_key]
  exact Nat.max_le.mpr ⟨(hl us h_left).2, (hr vs h_right).2⟩

/-- Operands with a keyword in front of each continue an expression as rules do that are joined
to one from the left. -/
theorem foldl_join (op : Connective) {operands : List (List Lexeme)} {rs : List Rule}
    (h : List.Forall₂ (fun ms r => Spells .operand ms r depth) operands rs)
    (hl : Spells .expression ls left depth) :
    Spells .expression (ls ++ operands.flatMap fun ms => .word op.keyword :: ms)
      (rs.foldl (.join op) left) depth := by
  -- each operand goes to the right of all that is spelled so far
  induction h generalizing ls left with
  | nil =>
    rw [List.flatMap_nil, List.append_nil]
    exact hl
  | cons hr _ ih =>
    rw [List.flatMap_cons, ← List.append_assoc]
    exact ih (hl.joined op hr)

end Spells

/-! ### Texts in parentheses -/

/-- The texts, each in parentheses, with the keyword between any two. -/
def groupedText (op : Connective) (texts : List String) : String :=
  (" " ++ op.keyword ++ " ").intercalate (texts.map fun text => "(" ++ text ++ ")")

/-- The lexemes of a group. -/
def groupOf (lexemes : List Lexeme) : List Lexeme := .opening :: (lexemes ++ [.closing])

/-- A text in parentheses is scanned into a group. -/
theorem Scans.group {text : String} {ts : List Token} (h : tokenize text = .ok ts)
    (rest : List Char) :
    Scans (("(" ++ text ++ ")").toList ++ rest) (groupOf (ts.map Token.lexeme)) rest := by
  have h_scans := (Scans.opening _).trans <| (Scans.closed h rest).trans <| Scans.closing rest
  simpa [groupOf, List.append_assoc] using h_scans

theorem Scans.keyword (op : Connective) (rest : List Char) :
    Scans ((" " ++ op.keyword ++ " ").toList ++ rest) [.word op.keyword] rest := by
  have h_key : op.keyword.toList ≠ [] ∧ op.keyword.toList.all isWordChar := by
    cases op <;> decide
  have h_word := List.all_eq_true.mp h_key.2
  have h_scans := (Scans.blank _).trans <| (Scans.word h_key.1 h_word (endsWord_blank rest)).trans <|
    Scans.blank rest
  rw [String.ofList_toList] at h_scans
  simpa [List.append_assoc] using h_scans

/-- The scanner finds the groups and the keywords between them. -/
theorem Scans.groupedText (op : Connective) {text : String} {ts : List Token} {texts : List String}
    {tss : List (List Token)} (h : tokenize text = .ok ts)
    (h_texts : List.Forall₂ (fun text ts => tokenize text = .ok ts) texts tss) :
    Scans (Eligibility.groupedText op (text :: texts)).toList
      (groupOf (ts.map Token.lexeme) ++
        (tss.map fun ts => groupOf (ts.map Token.lexeme)).flatMap fun ms =>
          .word op.keyword :: ms) [] := by
  induction h_texts generalizing text ts with
  | nil =>
    have h_scans := Scans.group h []
    simpa [Eligibility.groupedText] using h_scans
  | @cons text' ts' texts tss h' _ ih =>
    -- a group, a keyword between blanks, and the text of the others
    have h_scans := (Scans.group h _).trans <| (Scans.keyword op _).trans (ih h')
    simp only [Eligibility.groupedText, List.map_cons, String.intercalate_cons_cons,
      String.toList_append, List.append_assoc, List.flatMap_cons] at h_scans ⊢
    exact h_scans

/-- A rule that is read within some levels of nesting is read as a group within one more. -/
theorem exists_group_of_parse {m : Nat} {text : String} {r : Rule}
    (h : Rule.parse ⟨m⟩ text = .ok r) :
    ∃ ts, tokenize text = .ok ts ∧ Spells .operand (groupOf (ts.map Token.lexeme)) r (m + 1) := by
  obtain ⟨ts, h_tokens, -, h_der, h_deep⟩ := Rule.parse_eq_ok_iff.mp h
  exact ⟨ts, h_tokens, (Spells.of_derives h_der h_deep).group⟩

theorem exists_groups_of_parse {m : Nat} {texts : List String} {rs : List Rule}
    (h : List.Forall₂ (fun text r => Rule.parse ⟨m⟩ text = .ok r) texts rs) :
    ∃ tss, List.Forall₂ (fun text ts => tokenize text = .ok ts) texts tss ∧
      List.Forall₂ (fun ms r => Spells .operand ms r (m + 1))
        (tss.map fun ts => groupOf (ts.map Token.lexeme)) rs := by
  induction h with
  | nil => exact ⟨[], .nil, .nil⟩
  | cons h_parse _ ih =>
    obtain ⟨ts, h_tokens, h_spells⟩ := exists_group_of_parse h_parse
    obtain ⟨tss, h_texts, h_groups⟩ := ih
    exact ⟨ts :: tss, .cons h_tokens h_texts, .cons h_spells h_groups⟩

/-- **Texts are combined as trees are.** Rules whose texts are read within some levels of nesting
are combined by reading their texts as groups, within one more. -/
theorem Rule.parse_groupedText (op : Connective) {m : Nat} {texts : List String} {rs : List Rule}
    (h : List.Forall₂ (fun text r => Rule.parse ⟨m⟩ text = .ok r) texts rs) (h_ne : texts ≠ []) :
    ∃ r, Rule.combine op rs = some r ∧ Rule.parse ⟨m + 1⟩ (groupedText op texts) = .ok r := by
  cases h with
  | nil => exact absurd rfl h_ne
  | @cons text r texts rs h_parse h =>
    obtain ⟨ts, h_tokens, h_spells⟩ := exists_group_of_parse h_parse
    obtain ⟨tss, h_texts, h_groups⟩ := exists_groups_of_parse h
    obtain ⟨us, h_us, h_lex⟩ := (Scans.groupedText op h_tokens h_texts).exists_tokens
    -- the groups are operands, which the keywords between them join from the left
    obtain ⟨h_der, h_deep⟩ := h_spells.single.foldl_join op h_groups us h_lex
    exact ⟨_, rfl, Rule.parse_eq_ok_iff.mpr ⟨us, h_us, h_der.ne_nil, h_der, h_deep⟩⟩

/-! ### Many steps -/

section Steps

variable {ε α β : Type}

theorem exists_forall₂_of_forall {f : α → Except ε β} {as : List α}
    (h : ∀ a ∈ as, ∃ b, f a = .ok b) : ∃ bs, List.Forall₂ (fun a b => f a = .ok b) as bs := by
  induction as with
  | nil => exact ⟨[], .nil⟩
  | cons a as ih =>
    obtain ⟨⟨b, hb⟩, h⟩ := List.forall_mem_cons.mp h
    obtain ⟨bs, hbs⟩ := ih h
    exact ⟨b :: bs, .cons hb hbs⟩

theorem mapM_eq_ok_of_forall₂ {f : α → Except ε β} {as : List α} {bs : List β}
    (h : List.Forall₂ (fun a b => f a = .ok b) as bs) : as.mapM f = .ok bs := by
  induction h with
  | nil => rfl
  | cons hb _ ih => rw [List.mapM_cons, hb, ok_bind, ih, ok_bind, pure_eq_ok]

end Steps

/-! ### Rules of a catalog -/

namespace Catalog

variable {k : Catalog}

theorem find_eq_error {id : String} (h : k.get? id = none) :
    k.find id = .error (.unknownRule id) := by
  rw [find, h]

/-- A catalog finds the rules that are read from its sources. -/
theorem Reachable.exists_rules (h : k.Reachable) {ids texts : List String}
    (h_sources : List.Forall₂ (fun id text => k.source? id = some text) ids texts) :
    ∃ rs, ids.mapM k.find = .ok rs ∧ texts.mapM (Rule.parse k.limits) = .ok rs := by
  induction h_sources with
  | nil => exact ⟨[], rfl, rfl⟩
  | @cons id text ids texts h_source _ ih =>
    obtain ⟨rs, h_ids, h_texts⟩ := ih
    obtain ⟨e, h_entry, rfl⟩ := Option.map_eq_some_iff.mp h_source
    have h_find : k.find id = .ok e.rule := by
      rw [find_eq_ok_iff, get?, h_entry, Option.map_some]
    refine ⟨e.rule :: rs, ?_, ?_⟩
    · rw [List.mapM_cons, h_find, ok_bind, h_ids, ok_bind, pure_eq_ok]
    · rw [List.mapM_cons, h.parse_source h_entry, ok_bind, h_texts, ok_bind, pure_eq_ok]

end Catalog

/-- **Combining texts and combining trees agree.** Texts of rules that are put in parentheses, with
the keyword between any two, are read as the tree into which the rules are combined. A catalog
combines its rules into the tree that their sources are combined into. The first text that is no
rule, and the first identifier that is unknown, are the error. -/
theorem Rule.combineTexts_eq_parse (op : Connective) :
    (∀ texts : List String, texts ≠ [] → (∀ text ∈ texts, ∃ r, Rule.parse default text = .ok r) →
      ∃ r, Rule.combineTexts op texts = .ok (some r) ∧
        Rule.parse ⟨65⟩ (groupedText op texts) = .ok r) ∧
    (∀ (k : Catalog) (ids texts : List String), k.Reachable → k.limits = default →
      List.Forall₂ (fun id text => k.source? id = some text) ids texts →
      ∃ rule, k.combine op ids = .ok rule ∧ Rule.combineTexts op texts = .ok rule) ∧
    (∀ (front back : List String) (text : String) (e : ParseError),
      (∀ text ∈ front, ∃ r, Rule.parse default text = .ok r) →
      Rule.parse default text = .error e →
      Rule.combineTexts op (front ++ text :: back) = .error e) ∧
    ∀ (k : Catalog) (front back : List String) (id : String),
      (∀ id ∈ front, ∃ r, k.get? id = some r) → k.get? id = none →
      k.combine op (front ++ id :: back) = .error (.unknownRule id) := by
  refine ⟨fun texts h_ne h => ?_, fun k ids texts h_reachable h_limits h_sources => ?_,
    fun front back text e h_front h_error => ?_, fun k front back id h_front h_none => ?_⟩
  · obtain ⟨rs, h_rules⟩ := exists_forall₂_of_forall h
    obtain ⟨r, h_combine, h_parse⟩ := Rule.parse_groupedText op (m := 64) h_rules h_ne
    refine ⟨r, ?_, h_parse⟩
    rw [Rule.combineTexts, mapM_eq_ok_of_forall₂ h_rules, ok_bind, h_combine, pure_eq_ok]
  · -- a reachable catalog holds what its sources are read as
    obtain ⟨rs, h_ids, h_texts⟩ := h_reachable.exists_rules h_sources
    refine ⟨Rule.combine op rs, ?_, ?_⟩
    · rw [Catalog.combine, h_ids, ok_bind, pure_eq_ok]
    · rw [Rule.combineTexts, ← h_limits, h_texts, ok_bind, pure_eq_ok]
  · rw [Rule.combineTexts, mapM_append_eq_error h_front h_error, error_bind]
  · have h_found : ∀ id ∈ front, ∃ r, k.find id = .ok r := fun id h_mem =>
      (h_front id h_mem).imp fun r => Catalog.find_eq_ok_iff.mpr
    rw [Catalog.combine, mapM_append_eq_error h_found (Catalog.find_eq_error h_none), error_bind]

/-- Two rules with a joint inside one of them, and a catalog that has it twice in the list; a blank
text is no rule, and the catalog has no other identifier. -/
theorem Rule.combineTexts_eq_parse_repeated :
    let a : Rule := .test ⟨"age", .greater, .int 30⟩
    let r : Rule := .join .and a (.test ⟨"dept", .equal, .text "it's"⟩)
    let k : Catalog := ⟨Directory.insert ∅ "r" ⟨r.render, r⟩, default⟩
    k.Reachable ∧
      (∃ s, Rule.combineTexts .or [a.render, r.render] = .ok (some s) ∧
        Rule.parse ⟨65⟩ (groupedText .or [a.render, r.render]) = .ok s) ∧
      (∃ rule, k.combine .or ["r", "r"] = .ok rule ∧
        Rule.combineTexts .or [r.render, r.render] = .ok rule) ∧
      Rule.combineTexts .or [a.render, "", r.render] = .error .empty ∧
      k.combine .or ["r", "age", "r"] = .error (.unknownRule "age") := by
  intro a r k
  -- both rules are what is read from their canonical texts, within the default limit
  have h_parse (s : Rule) (h_print : ∀ c ∈ s.leaves, c.IsPrintable) (h_depth : s.height ≤ 65) :
      Rule.parse default s.render = .ok s := by
    rw [← Rule.conditions_eq_leaves] at h_print
    have h := Rule.parse_render_of_isPrintable h_print 64
    rwa [if_pos (by rw [Rule.depth_eq_height]; omega)] at h
  have ha : Rule.parse default a.render = .ok a := h_parse a (by decide) (by decide)
  have hr : Rule.parse default r.render = .ok r := h_parse r (by decide) (by decide)
  have h_blank : Rule.parse default "" = .error .empty := by
    -- a text without tokens has an error of its own
    have h_tokens : tokenize "" = .ok [] := by
      obtain ⟨ts, h_tokens, h_map⟩ := Scans.exists_tokens (Scans.refl "".toList)
      rw [h_tokens, List.map_eq_nil_iff.mp h_map]
    rw [Rule.parse, h_tokens, ok_bind, Rule.ofTokens]
  have hk : k.Reachable := by
    have h_insert : (Catalog.empty default).insert "r" r.render = .ok k := by
      rw [Catalog.insert_eq _ ⟨"r", r.render⟩, Catalog.attempt_of_readable rfl hr]
      rfl
    exact .insert (.empty default) h_insert
  obtain ⟨h_trees, h_catalog, h_error, h_unknown⟩ := Rule.combineTexts_eq_parse .or
  have h_texts : ∀ text ∈ [a.render, r.render], ∃ s, Rule.parse default text = .ok s := by
    intro text h_mem
    rcases List.mem_pair.mp h_mem with rfl | rfl
    · exact ⟨a, ha⟩
    · exact ⟨r, hr⟩
  have h_source : k.source? "r" = some r.render := by
    simp [k, Catalog.source?, Directory.get?_insert]
  have h_get : k.get? "r" = some r := by
    simp [k, Catalog.get?, Directory.get?_insert]
  have h_missing : k.get? "age" = none := by
    simp [k, Catalog.get?, Directory.get?_insert]
  refine ⟨hk, h_trees _ (by simp) h_texts,
    h_catalog k ["r", "r"] [r.render, r.render] hk rfl (.cons h_source (.cons h_source .nil)),
    h_error [a.render] [r.render] "" .empty (fun text h_mem => ?_) h_blank,
    h_unknown k ["r"] ["r"] "age" (fun id h_mem => ?_) h_missing⟩
  · obtain rfl := List.mem_singleton.mp h_mem
    exact ⟨a, ha⟩
  · obtain rfl := List.mem_singleton.mp h_mem
    exact ⟨r, h_get⟩

end Eligibility
