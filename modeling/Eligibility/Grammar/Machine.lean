import Eligibility.Grammar.Field
import Eligibility.Rule.Basic

/-!
# The machine that reads rules

The machine takes the tokens of a rule one by one. It keeps the rules that are finished and the
keywords that still wait for their right operand on two stacks, a frame for every group that is
open, and the fields of the condition that is being read. Both keywords bind alike and from the
left, so a keyword is applied as soon as its right operand is finished: a frame never holds more
than one rule and one waiting keyword.
-/

namespace Eligibility

/-- What a text is read under. -/
structure Limits where
  /-- How deep parentheses may nest. -/
  maxDepth : Nat := 64
  deriving DecidableEq

instance : Inhabited Limits := ⟨{}⟩

/-- An open group: how many rules and keywords stood on the stacks before it, and where its
parenthesis is. -/
structure Frame where
  rulesBefore : Nat
  keywordsBefore : Nat
  offset : Nat
  deriving DecidableEq

/-- The state between two tokens. All lists are stacks, latest first. -/
structure Machine where
  rules : List Rule := []
  keywords : List Connective := []
  frames : List Frame := []
  fields : List Token := []
  /-- Is the next thing to come an operand, or part of one? -/
  awaitsOperand : Bool := true

namespace Machine

/-- How many rules and keywords stand below the innermost open group. -/
def stacksBefore (m : Machine) : Nat × Nat :=
  match m.frames with
  | [] => (0, 0)
  | f :: _ => (f.rulesBefore, f.keywordsBefore)

/-- Applies the waiting keywords above `keywordsBefore` to the rules above `rulesBefore`. -/
def applyKeywords (rulesBefore keywordsBefore offset : Nat) :
    List Connective → List Rule → Except ParseError (List Connective × List Rule)
  | [], rules => .ok ([], rules)
  | op :: ops, rules =>
    -- the topmost keyword belongs to a group further out
    if ops.length < keywordsBefore then .ok (op :: ops, rules)
    else if rules.length < rulesBefore + 2 then .error (.unbalancedGrouping offset .operandMissing)
    else
      match rules with
      | right :: left :: rest =>
        applyKeywords rulesBefore keywordsBefore offset ops (.join op left right :: rest)
      | _ => .error (.unbalancedGrouping offset .operandMissing)

/-- An operand is finished: applies the keyword that waits for it, if one does. -/
def completeOperand (m : Machine) (offset : Nat) : Except ParseError Machine := do
  let (rulesBefore, keywordsBefore) := m.stacksBefore
  let (keywords, rules) ← applyKeywords rulesBefore keywordsBefore offset m.keywords m.rules
  return { m with rules, keywords, awaitsOperand := false }

/-- Makes the fields that were read into a condition. Without fields there is nothing to do. -/
def completeCondition (m : Machine) : Except ParseError Machine :=
  match m.fields.reverse with
  | [] => .ok m
  | field :: fields => do
    let c ← readCondition (field :: fields)
    completeOperand { m with rules := .test c :: m.rules, fields := [] } field.offset

/-- Takes a field of a condition. -/
def takeField (m : Machine) (token : Token) : Except ParseError Machine :=
  if m.awaitsOperand then .ok { m with fields := token :: m.fields }
  else .error (.unbalancedGrouping token.offset .fieldWithoutKeyword)

/-- Takes a keyword. -/
def takeKeyword (m : Machine) (op : Connective) (token : Token) : Except ParseError Machine := do
  let m ← m.completeCondition
  if m.awaitsOperand then
    throw (.unbalancedGrouping token.offset .noLeftOperand)
  return { m with keywords := op :: m.keywords, awaitsOperand := true }

/-- Takes an opening parenthesis. -/
def takeOpening (limits : Limits) (m : Machine) (token : Token) : Except ParseError Machine :=
  if m.fields ≠ [] then .error (.unbalancedGrouping token.offset .openInCondition)
  else if !m.awaitsOperand then .error (.unbalancedGrouping token.offset .openWithoutKeyword)
  else if limits.maxDepth ≤ m.frames.length then .error (.nestingTooDeep limits.maxDepth)
  else .ok { m with frames := ⟨m.rules.length, m.keywords.length, token.offset⟩ :: m.frames }

/-- Takes a closing parenthesis: the group becomes an operand of what is around it. -/
def takeClosing (m : Machine) (token : Token) : Except ParseError Machine := do
  let m ← m.completeCondition
  match m.frames with
  | [] => throw (.unbalancedGrouping token.offset .unmatchedClose)
  | f :: frames =>
    if m.awaitsOperand then
      -- nothing stands before the parenthesis, or a keyword does
      if m.rules.length = f.rulesBefore ∧ m.keywords.length = f.keywordsBefore then
        throw (.malformedCondition "()" .emptyGroup)
      throw (.unbalancedGrouping token.offset .noRightOperand)
    if m.rules.length ≠ f.rulesBefore + 1 ∨ m.keywords.length ≠ f.keywordsBefore then
      throw (.unbalancedGrouping f.offset .groupNotSingle)
    -- a keyword outside may have waited for the group
    completeOperand { m with frames } token.offset

/-- A keyword has to come right after a complete condition or a group. -/
def keywordDue (m : Machine) : Bool :=
  match m.fields with
  | [_, _, _] => true
  | _ => !m.awaitsOperand

/-- A keyword in the wrong case is no keyword, and in a keyword's place it is nothing else. -/
def isMiscasedKeyword (w : String) : Bool :=
  let lower := w.toList.map Char.toLower
  lower == "and".toList || lower == "or".toList

/-- Takes one token. -/
def takeToken (limits : Limits) (m : Machine) (token : Token) : Except ParseError Machine :=
  match token.lexeme with
  | .opening => m.takeOpening limits token
  | .closing => m.takeClosing token
  | .word w =>
    match Connective.ofKeyword? w with
    | some op => m.takeKeyword op token
    | none =>
      if m.keywordDue && isMiscasedKeyword w then .error (.unsupportedOperator w token.offset)
      else m.takeField token
  | .symbol _ => m.takeField token
  | .quoted _ => m.takeField token

/-- The rule that was read, at the end of a text of `size` bytes. -/
def finish (m : Machine) (size : Nat) : Except ParseError Rule := do
  let m ← m.completeCondition
  if let f :: _ := m.frames then
    throw (.unbalancedGrouping f.offset .unmatchedOpen)
  if m.awaitsOperand then
    throw (.unbalancedGrouping size .noRightOperand)
  match m.rules, m.keywords with
  | [r], [] => return r
  | _, _ => throw (.unbalancedGrouping size .ruleNotSingle)

end Machine

/-- Makes the rule of a token list, in a text of `size` bytes. -/
def Rule.ofTokens (limits : Limits) (size : Nat) (tokens : List Token) : Except ParseError Rule :=
  match tokens with
  | [] => .error .empty
  | token :: tokens => do
    let m ← (token :: tokens).foldlM (Machine.takeToken limits) {}
    m.finish size

/-- Reads rule text. -/
def Rule.parse (limits : Limits) (text : String) : Except ParseError Rule := do
  let tokens ← tokenize text
  Rule.ofTokens limits text.utf8ByteSize tokens

/-- Reads many rule texts and joins them from the left. The first text that is no rule is the
error. -/
def Rule.combineTexts (op : Connective) (texts : List String) :
    Except ParseError (Option Rule) := do
  let rules ← texts.mapM (Rule.parse default)
  return Rule.combine op rules

end Eligibility
