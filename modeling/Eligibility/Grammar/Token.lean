import Eligibility.Grammar.Error
import Eligibility.Text.Character

/-!
# Tokens of rule text

Blanks separate tokens and are dropped. Parentheses and comparison symbols stand for themselves
wherever they occur, a run of comparison characters is one symbol, and a quoted literal ends at the
first occurrence of its own quote that is not behind a backslash. Everything else is a word, so a
keyword is recognised only as a whole word.
-/

namespace Eligibility

/-- What a token is. -/
inductive Lexeme
  | opening
  | closing
  /-- An attribute, a keyword or a literal without quotes. -/
  | word (text : String)
  /-- A run of comparison characters, such as `>` or `>=`. -/
  | symbol (text : String)
  /-- A quoted literal, by its content. -/
  | quoted (content : String)
  deriving DecidableEq

/-- A token with the place where it starts and the way it is written. -/
structure Token where
  lexeme : Lexeme
  offset : Nat
  raw : String
  deriving DecidableEq

/-- The characters that comparisons are made of, and some more, so that `>=` is read as one symbol
and refused as such. -/
def isComparisonChar (c : Char) : Bool := c == '<' || c == '>' || c == '=' || c == '!'

/-- The characters of words. -/
def isWordChar (c : Char) : Bool :=
  !isBlank c && !isComparisonChar c && c != '(' && c != ')' && c != '\'' && c != '"'

/-- Is the pair of a backslash and this character read as the character alone? Any other pair stands
for itself. -/
def isEscapable (c : Char) : Bool := c == '\'' || c == '"' || c == '\\'

/-- Reads a quoted literal up to its closing quote. `content` and `raw` hold what was read so far,
latest first. Gives the content, the literal as written and what follows. -/
def scanQuoted (quote : Char) :
    (content raw : List Char) → List Char → Option (List Char × List Char × List Char)
  | _, _, [] => none
  | content, raw, c :: cs =>
    if c = quote then some (content.reverse, (c :: raw).reverse, cs)
    else if c = '\\' then
      -- the character behind the backslash cannot end the literal
      match cs with
      | [] => none
      | e :: cs =>
        scanQuoted quote (if isEscapable e then e :: content else e :: c :: content)
          (e :: c :: raw) cs
    else scanQuoted quote (c :: content) (c :: raw) cs

/-- Reads the token that starts with the character `c`, not a blank. Gives what it is, the token as
written and what follows. Only a quoted literal can fail. -/
def scanToken (c : Char) (cs : List Char) : Option (Lexeme × List Char × List Char) :=
  if c = '(' then some (.opening, [c], cs)
  else if c = ')' then some (.closing, [c], cs)
  else if c = '\'' ∨ c = '"' then
    (scanQuoted c [] [c] cs).map fun (content, raw, rest) =>
      (.quoted (String.ofList content), raw, rest)
  else if isComparisonChar c then
    let run := c :: cs.takeWhile isComparisonChar
    some (.symbol (String.ofList run), run, cs.dropWhile isComparisonChar)
  else
    let run := c :: cs.takeWhile isWordChar
    some (.word (String.ofList run), run, cs.dropWhile isWordChar)

theorem length_scanQuoted {quote : Char} {content raw cs content' raw' rest : List Char}
    (h : scanQuoted quote content raw cs = some (content', raw', rest)) :
    rest.length < cs.length := by
  fun_induction scanQuoted quote content raw cs with
  | case1 => simp at h
  | case2 =>
    simp only [Option.some.injEq, Prod.mk.injEq] at h
    simp [← h.2.2]
  | case3 => simp at h
  | case4 content raw hq e cs ih =>
    have := ih h
    simp only [List.length_cons]
    omega
  | case5 content raw c cs hq hb ih =>
    have := ih h
    simp only [List.length_cons]
    omega

/-- A token takes at least its first character. -/
theorem length_scanToken {c : Char} {cs : List Char} {lexeme : Lexeme} {raw rest : List Char}
    (h : scanToken c cs = some (lexeme, raw, rest)) : rest.length ≤ cs.length := by
  have hdrop (p : Char → Bool) : (cs.dropWhile p).length ≤ cs.length :=
    (List.dropWhile_sublist p).length_le
  unfold scanToken at h
  split at h
  · simp_all
  · split at h
    · simp_all
    · split at h
      · obtain ⟨⟨content, raw', rest'⟩, hs, heq⟩ := Option.map_eq_some_iff.mp h
        have := length_scanQuoted hs
        cases heq
        omega
      · split at h <;> cases h <;> exact hdrop _

/-- Reads tokens from the text `cs`, which starts at `offset`. The tokens `found` before it are kept
latest first. -/
def tokensFrom (offset : Nat) (cs : List Char) (found : List Token) :
    Except ParseError (List Token) :=
  match cs with
  | [] => .ok found.reverse
  | c :: cs =>
    if isBlank c then tokensFrom (offset + c.utf8Size) cs found
    else
      match _ : scanToken c cs with
      | none => .error (.unterminatedString offset)
      | some (lexeme, raw, rest) =>
        let raw := String.ofList raw
        tokensFrom (offset + raw.utf8ByteSize) rest (⟨lexeme, offset, raw⟩ :: found)
termination_by cs.length
decreasing_by
  · simp
  · have := length_scanToken ‹_›
    simp only [List.length_cons]
    omega

/-- The tokens of a text. -/
def tokenize (text : String) : Except ParseError (List Token) := tokensFrom 0 text.toList []

end Eligibility
