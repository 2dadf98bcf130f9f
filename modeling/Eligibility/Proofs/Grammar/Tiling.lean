import Eligibility.Grammar.Token
import Eligibility.Proofs.Number.Reading

/-!
# Tokens tile the text

Where the tokens of a text lie can be said without a scanner. A text is blanks, a token as written,
blanks, a token, and so on to blanks at the end (`Tiling`). What is written as a token is a
parenthesis, a run of comparison characters or of word characters, or a quoted literal (`Written`);
a run is followed by nothing that it could go on with (`Lexeme.EndsBefore`), and inside a quoted
literal the own quote stands only behind a backslash (`QuotedBody`). The offset of a token is the
number of UTF-8 bytes in front of it.

The scanner walks through every tiled text, token by token, wherever the text stands and whatever
follows that cannot continue its last token (`tokensFrom_of_tiling`). Conversely a text is tiled, or
it is tiled up to a quote that is never closed (`tiling_or_unclosed`). Together this tells the
outcome of the scanner for every text: `tokenize_eq_tiling`.
-/

namespace Eligibility

/-! ### Quoted literals -/

/-- What stands between two quotes, and what it means: a backslash in front of a quote or of a
backslash is dropped, and any other pair of a backslash and a character stands for itself. -/
inductive QuotedBody (quote : Char) : (body content : List Char) → Prop
  | nil : QuotedBody quote [] []
  | plain {c : Char} {body content : List Char} (h_quote : c ≠ quote) (h_backslash : c ≠ '\\')
      (h : QuotedBody quote body content) : QuotedBody quote (c :: body) (c :: content)
  | resolved {c : Char} {body content : List Char} (hc : c = '\'' ∨ c = '"' ∨ c = '\\')
      (h : QuotedBody quote body content) : QuotedBody quote ('\\' :: c :: body) (c :: content)
  | kept {c : Char} {body content : List Char} (hc : ¬(c = '\'' ∨ c = '"' ∨ c = '\\'))
      (h : QuotedBody quote body content) :
      QuotedBody quote ('\\' :: c :: body) ('\\' :: c :: content)

/-- The quote that opens in front of these characters has no counterpart among them. -/
def Unclosed (quote : Char) (cs : List Char) : Prop :=
  ∀ body content rest, QuotedBody quote body content → cs ≠ body ++ quote :: rest

theorem isEscapable_iff {c : Char} : isEscapable c ↔ c = '\'' ∨ c = '"' ∨ c = '\\' := by
  simp only [isEscapable, Bool.or_eq_true, beq_iff_eq, or_assoc]

/-- The scanner stops at the closing quote. -/
theorem scanQuoted_of_body {quote : Char} (h_quote : quote ≠ '\\') {body inner : List Char}
    (h : QuotedBody quote body inner) (content raw rest : List Char) :
    scanQuoted quote content raw (body ++ quote :: rest)
      = some (content.reverse ++ inner, raw.reverse ++ body ++ [quote], rest) := by
  -- on the body, with anything read before it
  induction h generalizing content raw with
  | nil =>
    rw [List.nil_append, scanQuoted.eq_def]
    simp
  | plain h_ne h_backslash _ ih =>
    rw [List.cons_append, scanQuoted.eq_def]
    simp only
    rw [if_neg h_ne, if_neg h_backslash, ih]
    simp
  | resolved hc _ ih =>
    rw [List.cons_append, List.cons_append, scanQuoted, if_neg h_quote.symm, if_pos rfl,
      if_pos (isEscapable_iff.mpr hc), ih]
    simp
  | kept hc _ ih =>
    rw [List.cons_append, List.cons_append, scanQuoted, if_neg h_quote.symm, if_pos rfl,
      if_neg (isEscapable_iff.not.mpr hc), ih]
    simp

/-- What the scanner has taken is a body and its closing quote. -/
theorem exists_body_of_scanQuoted {quote : Char}
    {content raw cs content' raw' rest : List Char}
    (h : scanQuoted quote content raw cs = some (content', raw', rest)) :
    ∃ body inner, QuotedBody quote body inner ∧ cs = body ++ quote :: rest ∧
      content' = content.reverse ++ inner ∧ raw' = raw.reverse ++ body ++ [quote] := by
  fun_induction scanQuoted quote content raw cs with
  | case1 => exact absurd h (by simp)
  | case2 content raw cs =>
    simp only [Option.some.injEq, Prod.mk.injEq] at h
    obtain ⟨rfl, rfl, rfl⟩ := h
    exact ⟨[], [], .nil, rfl, by simp, by simp⟩
  | case3 => exact absurd h (by simp)
  | case4 content raw c cs h_quote ih =>
    obtain ⟨body, inner, h_body, rfl, rfl, rfl⟩ := ih h
    -- the backslash is dropped before what needs it, and kept before anything else
    by_cases hc : isEscapable c
    · exact ⟨'\\' :: c :: body, c :: inner, .resolved (isEscapable_iff.mp hc) h_body, rfl,
        by simp [hc], by simp⟩
    · exact ⟨'\\' :: c :: body, '\\' :: c :: inner, .kept (isEscapable_iff.not.mp hc) h_body, rfl,
        by simp [hc], by simp⟩
  | case5 content raw c cs h_quote h_backslash ih =>
    obtain ⟨body, inner, h_body, rfl, rfl, rfl⟩ := ih h
    exact ⟨c :: body, c :: inner, .plain h_quote h_backslash h_body, rfl, by simp, by simp⟩

theorem scanQuoted_eq_none_iff {quote : Char} (h_quote : quote ≠ '\\')
    {content raw cs : List Char} : scanQuoted quote content raw cs = none ↔ Unclosed quote cs := by
  constructor
  · rintro h body inner rest h_body rfl
    rw [scanQuoted_of_body h_quote h_body] at h
    exact absurd h (by simp)
  · intro h
    rw [Option.eq_none_iff_forall_ne_some]
    rintro ⟨content', raw', rest⟩ h_some
    obtain ⟨body, inner, h_body, h_cs, -⟩ := exists_body_of_scanQuoted h_some
    exact h body inner rest h_body h_cs

/-! ### Single tokens -/

/-- The characters of a token. -/
inductive Written : Lexeme → List Char → Prop
  | opening : Written .opening ['(']
  | closing : Written .closing [')']
  | symbol {run : List Char} (h_ne : run ≠ []) (h : ∀ c ∈ run, isComparisonChar c) :
      Written (.symbol (String.ofList run)) run
  | word {run : List Char} (h_ne : run ≠ []) (h : ∀ c ∈ run, isWordChar c) :
      Written (.word (String.ofList run)) run
  | quoted {quote : Char} {body content : List Char} (h_quote : quote = '\'' ∨ quote = '"')
      (h : QuotedBody quote body content) :
      Written (.quoted (String.ofList content)) (quote :: (body ++ [quote]))

/-- Is the token a run of characters of this kind? -/
def Lexeme.goesOnWith : Lexeme → Char → Bool
  | .symbol _ => isComparisonChar
  | .word _ => isWordChar
  | _ => fun _ => false

/-- The token is not cut short: what follows does not continue it. -/
def Lexeme.EndsBefore (lexeme : Lexeme) (rest : List Char) : Prop :=
  ∀ c ∈ rest.head?, lexeme.goesOnWith c = false

theorem Lexeme.EndsBefore.append {lexeme : Lexeme} {rest more : List Char}
    (h : lexeme.EndsBefore rest) (h_more : lexeme.EndsBefore more) :
    lexeme.EndsBefore (rest ++ more) := by
  cases rest with
  | nil => exact h_more
  | cons c rest => exact h

theorem Lexeme.EndsBefore.of_append {lexeme : Lexeme} {rest more : List Char}
    (h : lexeme.EndsBefore (rest ++ more)) : lexeme.EndsBefore rest := by
  cases rest with
  | nil => exact fun c hc => absurd hc (by simp)
  | cons c rest => exact h

/-- Nothing goes on at the end of a text. -/
theorem Lexeme.endsBefore_nil (lexeme : Lexeme) : lexeme.EndsBefore [] :=
  fun c hc => absurd hc (by simp)

/-- No run goes on with a character that is in none. -/
theorem Lexeme.endsBefore_cons (lexeme : Lexeme) {c : Char} (h_word : isWordChar c = false)
    (h_cmp : isComparisonChar c = false) (rest : List Char) : lexeme.EndsBefore (c :: rest) := by
  intro d hd
  obtain rfl := Option.some.inj hd
  cases lexeme with
  | symbol _ => exact h_cmp
  | word _ => exact h_word
  | _ => rfl

theorem Lexeme.endsBefore_quote (lexeme : Lexeme) {quote : Char}
    (h_quote : quote = '\'' ∨ quote = '"') (back : List Char) :
    lexeme.EndsBefore (quote :: back) := by
  rcases h_quote with rfl | rfl <;> exact lexeme.endsBefore_cons (by decide) (by decide) back

theorem Written.ne_nil {lexeme : Lexeme} {raw : List Char} (h : Written lexeme raw) : raw ≠ [] := by
  cases h with
  | symbol h_ne _ => exact h_ne
  | word h_ne _ => exact h_ne
  | _ => exact List.cons_ne_nil _ _

theorem isBlank_of_isComparisonChar {c : Char} (h : isComparisonChar c) : isBlank c = false := by
  simp only [isComparisonChar, Bool.or_eq_true, beq_iff_eq] at h
  rcases h with ((rfl | rfl) | rfl) | rfl <;> decide

/-- Word characters are what can start none of the other tokens. -/
theorem isWordChar_iff {c : Char} :
    isWordChar c ↔ isBlank c = false ∧ c ≠ '(' ∧ c ≠ ')' ∧ ¬(c = '\'' ∨ c = '"') ∧
      isComparisonChar c = false := by
  simp only [isWordChar, Bool.and_eq_true, Bool.not_eq_true', bne_iff_ne, ne_eq, not_or]
  tauto

/-- No token starts with a blank. -/
theorem Written.isBlank_head {lexeme : Lexeme} {c : Char} {raw : List Char}
    (h : Written lexeme (c :: raw)) : isBlank c = false := by
  cases h with
  | opening => decide
  | closing => decide
  | symbol _ h => exact isBlank_of_isComparisonChar (h c List.mem_cons_self)
  | word _ h => exact (isWordChar_iff.mp (h c List.mem_cons_self)).1
  | quoted h_quote _ => rcases h_quote with rfl | rfl <;> decide

/-- The scanner takes a token as it is written, if it ends there. -/
theorem scanToken_of_written {lexeme : Lexeme} {c : Char} {raw : List Char}
    (h : Written lexeme (c :: raw)) {rest : List Char} (h_end : lexeme.EndsBefore rest) :
    scanToken c (raw ++ rest) = some (lexeme, c :: raw, rest) := by
  cases h with
  | opening => rfl
  | closing => rfl
  -- a run goes on to the end of the token and not beyond, since what follows does not go on with it
  | symbol _ h_run =>
    obtain ⟨h_first, h_run⟩ := List.forall_mem_cons.mp h_run
    obtain ⟨h_take, h_drop⟩ := takeWhile_of_head? (p := isComparisonChar) h_end
    have h_cmp := h_first
    simp only [isComparisonChar, Bool.or_eq_true, beq_iff_eq] at h_cmp
    rw [scanToken, if_neg (by grind), if_neg (by grind), if_neg (by grind), if_pos h_first]
    simp only [List.takeWhile_append_of_pos h_run, List.dropWhile_append_of_pos h_run, h_take,
      h_drop, List.append_nil]
  | word _ h_run =>
    obtain ⟨h_first, h_run⟩ := List.forall_mem_cons.mp h_run
    obtain ⟨h_take, h_drop⟩ := takeWhile_of_head? (p := isWordChar) h_end
    obtain ⟨-, h_open, h_close, h_quote, h_cmp⟩ := isWordChar_iff.mp h_first
    rw [scanToken, if_neg h_open, if_neg h_close, if_neg h_quote, if_neg (by simp [h_cmp])]
    simp only [List.takeWhile_append_of_pos h_run, List.dropWhile_append_of_pos h_run, h_take,
      h_drop, List.append_nil]
  | quoted h_quote h_body =>
    -- a quote is neither parenthesis, so the checks before it do not apply
    have h_ne : c ≠ '(' ∧ c ≠ ')' ∧ c ≠ '\\' := by
      rcases h_quote with rfl | rfl <;> decide
    rw [scanToken, if_neg h_ne.1, if_neg h_ne.2.1, if_pos h_quote, List.append_assoc,
      List.singleton_append, scanQuoted_of_body h_ne.2.2 h_body]
    simp

/-- The longest run of characters of one kind. -/
theorem run_spec {p : Char → Bool} {c : Char} (hc : p c) (cs : List Char) :
    c :: cs = c :: cs.takeWhile p ++ cs.dropWhile p ∧ (∀ d ∈ c :: cs.takeWhile p, p d) ∧
      ∀ d ∈ (cs.dropWhile p).head?, p d = false := by
  refine ⟨by rw [List.cons_append, List.takeWhile_append_dropWhile],
    List.forall_mem_cons.mpr ⟨hc, fun d hd => List.all_eq_true.mp List.all_takeWhile d hd⟩,
    fun d hd => ?_⟩
  have h_head := List.head?_dropWhile_not p cs
  rw [Option.mem_def.mp hd] at h_head
  simpa using h_head

/-- What the scanner takes is written as a token, and ends there. -/
theorem written_of_scanToken {lexeme : Lexeme} {c : Char} {cs raw rest : List Char}
    (h_blank : isBlank c = false) (h : scanToken c cs = some (lexeme, raw, rest)) :
    c :: cs = raw ++ rest ∧ Written lexeme raw ∧ lexeme.EndsBefore rest := by
  unfold scanToken at h
  split at h
  · next h_open =>
    cases h
    exact ⟨rfl, h_open ▸ .opening, fun _ _ => rfl⟩
  next h_open =>
    split at h
    · next h_close =>
      cases h
      exact ⟨rfl, h_close ▸ .closing, fun _ _ => rfl⟩
    next h_close =>
      split at h
      · next h_quote =>
        obtain ⟨⟨content, raw', rest'⟩, h_scan, h⟩ := Option.map_eq_some_iff.mp h
        cases h
        obtain ⟨body, inner, h_body, rfl, rfl, rfl⟩ := exists_body_of_scanQuoted h_scan
        exact ⟨by simp, .quoted h_quote h_body, fun _ _ => rfl⟩
      next h_quote =>
        split at h
        · next h_cmp =>
          cases h
          obtain ⟨h_eq, h_run, h_end⟩ := run_spec h_cmp cs
          exact ⟨h_eq, .symbol (List.cons_ne_nil _ _) h_run, h_end⟩
        · next h_cmp =>
          -- none of the checks before applied, and that is what makes a character part of a word
          have h_first : isWordChar c :=
            isWordChar_iff.mpr ⟨h_blank, h_open, h_close, h_quote, by simpa using h_cmp⟩
          cases h
          obtain ⟨h_eq, h_run, h_end⟩ := run_spec h_first cs
          exact ⟨h_eq, .word (List.cons_ne_nil _ _) h_run, h_end⟩

/-- Only a quote can fail to start a token. -/
theorem unclosed_of_scanToken {c : Char} {cs : List Char} (h : scanToken c cs = none) :
    (c = '\'' ∨ c = '"') ∧ Unclosed c cs := by
  unfold scanToken at h
  split at h
  · exact absurd h (by simp)
  split at h
  · exact absurd h (by simp)
  split at h
  · -- only the scan of a quoted literal can fail
    next h_quote =>
    have h_ne : c ≠ '\\' := by
      rcases h_quote with rfl | rfl <;> decide
    exact ⟨h_quote, (scanQuoted_eq_none_iff h_ne).mp (Option.map_eq_none_iff.mp h)⟩
  split at h
  · exact absurd h (by simp)
  · exact absurd h (by simp)

theorem scanToken_of_unclosed {c : Char} {cs : List Char} (h_quote : c = '\'' ∨ c = '"')
    (h : Unclosed c cs) : scanToken c cs = none := by
  have h_ne : c ≠ '(' ∧ c ≠ ')' ∧ c ≠ '\\' := by
    rcases h_quote with rfl | rfl <;> decide
  rw [scanToken, if_neg h_ne.1, if_neg h_ne.2.1, if_pos h_quote,
    (scanQuoted_eq_none_iff h_ne.2.2).mpr h, Option.map_none]

/-! ### Tilings -/

/-- **These tokens tile a text** that stands behind other characters: between the tokens and around
them there are only blanks, each token is written as its lexeme says and not cut short, and its
offset is the number of bytes in front of it. -/
inductive Tiling : (before text : List Char) → List Token → Prop
  | blanks {before gap : List Char} (h_gap : ∀ c ∈ gap, isBlank c) : Tiling before gap []
  | token {before gap raw rest : List Char} {lexeme : Lexeme} {ts : List Token}
      (h_gap : ∀ c ∈ gap, isBlank c) (h_raw : Written lexeme raw) (h_end : lexeme.EndsBefore rest)
      (h_rest : Tiling (before ++ gap ++ raw) rest ts) :
      Tiling before (gap ++ raw ++ rest)
        (⟨lexeme, (String.ofList (before ++ gap)).utf8ByteSize, String.ofList raw⟩ :: ts)

/-- The first gap can be made longer. -/
theorem Tiling.cons_blank {c : Char} {before text : List Char} {ts : List Token}
    (h_blank : isBlank c) (h : Tiling (before ++ [c]) text ts) : Tiling before (c :: text) ts := by
  cases h with
  | blanks h_gap => exact .blanks (List.forall_mem_cons.mpr ⟨h_blank, h_gap⟩)
  | @token _ gap raw rest lexeme ts h_gap h_raw h_end h_rest =>
    have h_before : before ++ [c] ++ gap = before ++ c :: gap := by simp
    rw [h_before] at h_rest ⊢
    have h_gap' : ∀ d ∈ c :: gap, isBlank d := List.forall_mem_cons.mpr ⟨h_blank, h_gap⟩
    exact .token h_gap' h_raw h_end h_rest

/-- A token can stand at the very front. -/
theorem Tiling.cons_token {before raw rest : List Char} {lexeme : Lexeme} {ts : List Token}
    (h_raw : Written lexeme raw) (h_end : lexeme.EndsBefore rest)
    (h : Tiling (before ++ raw) rest ts) :
    Tiling before (raw ++ rest)
      (⟨lexeme, (String.ofList before).utf8ByteSize, String.ofList raw⟩ :: ts) := by
  have h_token := Tiling.token (List.forall_mem_nil _) h_raw h_end (by rwa [List.append_nil])
  rwa [List.append_nil, List.nil_append] at h_token

/-- A text is tiled, or it is tiled up to a quote that is not closed. -/
theorem tiling_or_unclosed (before text : List Char) :
    (∃ ts, Tiling before text ts) ∨
      ∃ front quote back ts, text = front ++ quote :: back ∧ (quote = '\'' ∨ quote = '"') ∧
        Unclosed quote back ∧ Tiling before front ts := by
  -- on the length of the text, as a token takes any number of characters off its front
  induction h_length : text.length using Nat.strongRecOn generalizing before text with
  | ind n ih =>
    subst h_length
    cases text with
    | nil => exact .inl ⟨[], .blanks (List.forall_mem_nil _)⟩
    | cons c cs =>
      by_cases h_blank : isBlank c
      · rcases ih cs.length (Nat.lt_succ_self _) (before ++ [c]) cs rfl with
          ⟨ts, h⟩ | ⟨front, quote, back, ts, rfl, h_quote, h_unclosed, h⟩
        · exact .inl ⟨ts, h.cons_blank h_blank⟩
        · exact .inr ⟨c :: front, quote, back, ts, rfl, h_quote, h_unclosed, h.cons_blank h_blank⟩
      · cases h_scan : scanToken c cs with
        | none =>
          obtain ⟨h_quote, h_unclosed⟩ := unclosed_of_scanToken h_scan
          exact .inr ⟨[], c, cs, [], rfl, h_quote, h_unclosed, .blanks (List.forall_mem_nil _)⟩
        | some found =>
          obtain ⟨lexeme, raw, rest⟩ := found
          obtain ⟨h_eq, h_raw, h_end⟩ := written_of_scanToken (by simpa using h_blank) h_scan
          have h_shorter := length_scanToken h_scan
          rw [h_eq]
          rcases ih rest.length (Nat.lt_succ_of_le h_shorter) (before ++ raw) rest rfl with
            ⟨ts, h⟩ | ⟨front, quote, back, ts, rfl, h_quote, h_unclosed, h⟩
          · exact .inl ⟨_, .cons_token h_raw h_end h⟩
          · exact .inr ⟨raw ++ front, quote, back, _, (List.append_assoc _ _ _).symm, h_quote,
              h_unclosed, .cons_token h_raw h_end.of_append h⟩

theorem utf8ByteSize_append (cs ds : List Char) :
    (String.ofList (cs ++ ds)).utf8ByteSize
      = (String.ofList cs).utf8ByteSize + (String.ofList ds).utf8ByteSize := by
  rw [String.ofList_append, String.utf8ByteSize_append]

/-- Blanks are passed over. -/
theorem tokensFrom_blanks {gap : List Char} (h_gap : ∀ c ∈ gap, isBlank c) (offset : Nat)
    (rest : List Char) (found : List Token) :
    tokensFrom offset (gap ++ rest) found
      = tokensFrom (offset + (String.ofList gap).utf8ByteSize) rest found := by
  induction gap generalizing offset with
  | nil => rfl
  | cons c gap ih =>
    obtain ⟨h_blank, h_gap⟩ := List.forall_mem_cons.mp h_gap
    rw [List.cons_append, tokensFrom.eq_def]
    simp only
    rw [if_pos h_blank, ih h_gap, String.ofList_cons, String.utf8ByteSize_append,
      String.utf8ByteSize_singleton, Nat.add_assoc]

/-- A token is found where it is written. -/
theorem tokensFrom_written {lexeme : Lexeme} {raw : List Char} (h_raw : Written lexeme raw)
    {rest : List Char} (h_end : lexeme.EndsBefore rest) (offset : Nat) (found : List Token) :
    tokensFrom offset (raw ++ rest) found
      = tokensFrom (offset + (String.ofList raw).utf8ByteSize) rest
          (⟨lexeme, offset, String.ofList raw⟩ :: found) := by
  obtain ⟨c, raw, rfl⟩ := List.exists_cons_of_ne_nil h_raw.ne_nil
  -- the scanner takes exactly the token, as it ends before the rest
  have h_scan := scanToken_of_written h_raw h_end
  rw [List.cons_append, tokensFrom.eq_def]
  simp only
  rw [if_neg (by simp [h_raw.isBlank_head])]
  split
  · next h_none => exact absurd (h_scan.symm.trans h_none) (by simp)
  · next lexeme' raw' rest' h_some =>
    obtain ⟨rfl, rfl, rfl⟩ : lexeme = lexeme' ∧ c :: raw = raw' ∧ rest = rest' := by
      simpa using h_scan.symm.trans h_some
    rfl

/-- **The scanner walks through a tiling**, if what follows does not continue its last token. -/
theorem tokensFrom_of_tiling {before text : List Char} {ts : List Token}
    (h : Tiling before text ts) {rest : List Char}
    (h_end : ∀ lexeme : Lexeme, lexeme.EndsBefore rest) (found : List Token) :
    tokensFrom (String.ofList before).utf8ByteSize (text ++ rest) found
      = tokensFrom (String.ofList (before ++ text)).utf8ByteSize rest (ts.reverse ++ found) := by
  induction h generalizing found with
  | blanks h_gap =>
    rw [tokensFrom_blanks h_gap, utf8ByteSize_append]
    rfl
  -- the gap, the token, and then the tiles behind it with a longer text before them
  | @token before gap raw text lexeme ts h_gap h_raw h_last _ ih =>
    rw [List.append_assoc, List.append_assoc, tokensFrom_blanks h_gap,
      tokensFrom_written h_raw (h_last.append (h_end lexeme)), ← utf8ByteSize_append,
      ← utf8ByteSize_append, ih]
    simp

/-- The tokens of a tiled text. -/
theorem tokenize_of_tiling {text : String} {ts : List Token} (h : Tiling [] text.toList ts) :
    tokenize text = .ok ts := by
  have h_eq := tokensFrom_of_tiling h Lexeme.endsBefore_nil []
  rw [List.append_nil, List.append_nil] at h_eq
  rw [tokenize, show 0 = (String.ofList []).utf8ByteSize from rfl, h_eq, tokensFrom.eq_def]
  simp only
  rw [List.reverse_reverse]

/-- A quote that is not closed is where the scanner fails. -/
theorem tokenize_of_unclosed {text : String} {front back : List Char} {quote : Char}
    {ts : List Token} (h_text : text.toList = front ++ quote :: back)
    (h_quote : quote = '\'' ∨ quote = '"') (h_unclosed : Unclosed quote back)
    (h : Tiling [] front ts) :
    tokenize text = .error (.unterminatedString (String.ofList front).utf8ByteSize) := by
  have h_blank : isBlank quote = false := by
    rcases h_quote with rfl | rfl <;> decide
  have h_scan := scanToken_of_unclosed h_quote h_unclosed
  -- all tiles in front are scanned, since a quote ends any token
  have h_eq := tokensFrom_of_tiling h (fun lexeme => lexeme.endsBefore_quote h_quote back) []
  rw [tokenize, h_text, show 0 = (String.ofList []).utf8ByteSize from rfl, h_eq, tokensFrom.eq_def]
  simp only
  rw [if_neg (by simp [h_blank])]
  split
  · rfl
  · next h_some => exact absurd (h_scan.symm.trans h_some) (by simp)

/-- The tokens of a text tile it. -/
theorem tiling_of_tokenize {text : String} {ts : List Token} (h : tokenize text = .ok ts) :
    Tiling [] text.toList ts := by
  rcases tiling_or_unclosed [] text.toList with
    ⟨us, h_us⟩ | ⟨front, quote, back, us, h_text, h_quote, h_unclosed, h_us⟩
  · obtain rfl : ts = us := Except.ok.inj (h.symm.trans (tokenize_of_tiling h_us))
    exact h_us
  · exact absurd (h.symm.trans (tokenize_of_unclosed h_text h_quote h_unclosed h_us)) (by simp)

/-- **Tokenizing is tiling.** The scanner gives the tokens that tile the text. It fails just where a
text is tiled up to a quote that is never closed, with the offset of that quote. -/
theorem tokenize_eq_tiling (text : String) :
    (∀ ts, tokenize text = .ok ts ↔ Tiling [] text.toList ts) ∧
    ∀ e, tokenize text = .error e ↔
      ∃ front quote back ts, text.toList = front ++ quote :: back ∧ (quote = '\'' ∨ quote = '"') ∧
        Unclosed quote back ∧ Tiling [] front ts ∧
        e = .unterminatedString (String.ofList front).utf8ByteSize := by
  refine ⟨fun ts => ⟨fun h => ?_, tokenize_of_tiling⟩, fun e => ⟨fun h => ?_, ?_⟩⟩
  · -- the text is tiled by some tokens, and the scanner gives these
    rcases tiling_or_unclosed [] text.toList with
      ⟨us, h_tiling⟩ | ⟨front, quote, back, us, h_text, h_quote, h_unclosed, h_tiling⟩
    · obtain rfl : ts = us := Except.ok.inj (h.symm.trans (tokenize_of_tiling h_tiling))
      exact h_tiling
    · have h_error := tokenize_of_unclosed h_text h_quote h_unclosed h_tiling
      exact absurd (h.symm.trans h_error) (by simp)
  · rcases tiling_or_unclosed [] text.toList with
      ⟨us, h_tiling⟩ | ⟨front, quote, back, us, h_text, h_quote, h_unclosed, h_tiling⟩
    · exact absurd (h.symm.trans (tokenize_of_tiling h_tiling)) (by simp)
    · have h_error := tokenize_of_unclosed h_text h_quote h_unclosed h_tiling
      exact ⟨front, quote, back, us, h_text, h_quote, h_unclosed, h_tiling,
        Except.error.inj (h.symm.trans h_error)⟩
  · rintro ⟨front, quote, back, ts, h_text, h_quote, h_unclosed, h_tiling, rfl⟩
    exact tokenize_of_unclosed h_text h_quote h_unclosed h_tiling

/-- Offsets count bytes, and a backslash keeps the quote behind it from closing. -/
example : tokenize "é>='\\'' " = .ok
    [⟨.word "é", 0, "é"⟩, ⟨.symbol ">=", 2, ">="⟩, ⟨.quoted "'", 4, "'\\''"⟩] := by
  decide +kernel

end Eligibility
