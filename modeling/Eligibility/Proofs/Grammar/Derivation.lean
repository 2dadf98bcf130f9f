import Eligibility.Grammar.Machine
import Eligibility.Outcome

/-!
# The grammar of rules

What a rule is, said without a machine:

    expression := operand (KEYWORD operand)*
    operand    := '(' expression ')' | condition
    condition  := field field field

`Derives` is this grammar as a relation between token lists and rule trees. Both keywords bind alike
and from the left, so an expression is either one operand or a shorter expression, a keyword and an
operand. Parentheses leave no trace in the tree. How deep they nest is a property of the token list
alone, `nesting`.

The one fact about `nesting` that everything else needs is `deepest_append`: a derived stretch of
tokens closes every parenthesis that it opens, so what follows it starts at the depth at which it
started itself.
-/

namespace Eligibility

namespace Token

/-- The connective that a token is a keyword for. -/
def keyword? (t : Token) : Option Connective :=
  match t.lexeme with
  | .word w => Connective.ofKeyword? w
  | _ => none

/-- May the token stand in a condition? Parentheses and keywords may not. -/
def isField (t : Token) : Bool :=
  match t.lexeme with
  | .opening => false
  | .closing => false
  | _ => t.keyword?.isNone

theorem keyword?_of_isField {t : Token} (h : t.isField) : t.keyword? = none := by
  unfold isField at h
  split at h
  · exact absurd h (by simp)
  · exact absurd h (by simp)
  · simpa using h

theorem lexeme_ne_opening_of_isField {t : Token} (h : t.isField) : t.lexeme ≠ .opening := by
  intro h_open
  simp [isField, h_open] at h

theorem lexeme_ne_closing_of_isField {t : Token} (h : t.isField) : t.lexeme ≠ .closing := by
  intro h_close
  simp [isField, h_close] at h

theorem lexeme_ne_opening_of_keyword? {t : Token} {op : Connective} (h : t.keyword? = some op) :
    t.lexeme ≠ .opening := by
  intro h_open
  simp [keyword?, h_open] at h

theorem lexeme_ne_closing_of_keyword? {t : Token} {op : Connective} (h : t.keyword? = some op) :
    t.lexeme ≠ .closing := by
  intro h_close
  simp [keyword?, h_close] at h

/-- Every token is a field, a keyword or a parenthesis. -/
theorem kind (t : Token) :
    t.isField ∨ (∃ op, t.keyword? = some op) ∨ t.lexeme = .opening ∨ t.lexeme = .closing := by
  unfold isField
  split
  · next h => exact .inr (.inr (.inl h))
  · next h => exact .inr (.inr (.inr h))
  · -- what is no parenthesis is a keyword or may stand in a condition
    cases h : t.keyword? with
    | none => exact .inl rfl
    | some op => exact .inr (.inl ⟨op, rfl⟩)

end Token

/-! ### Derivations -/

/-- The two kinds of phrases that have a rule tree. -/
inductive Phrase
  | operand
  | expression
  deriving DecidableEq

/-- **The grammar.** The token list is a phrase of the kind, and the rule is its tree. -/
inductive Derives : Phrase → List Token → Rule → Prop
  /-- Three fields that make a condition. -/
  | condition {s o v : Token} {c : Condition} (hs : s.isField) (ho : o.isField) (hv : v.isField)
      (hc : readCondition [s, o, v] = .ok c) : Derives .operand [s, o, v] (.test c)
  /-- A group is the tree inside its parentheses. -/
  | group {o c : Token} {ts : List Token} {r : Rule} (ho : o.lexeme = .opening)
      (hc : c.lexeme = .closing) (h : Derives .expression ts r) :
      Derives .operand (o :: (ts ++ [c])) r
  /-- An expression may be a single operand. -/
  | single {ts : List Token} {r : Rule} (h : Derives .operand ts r) : Derives .expression ts r
  /-- The last keyword joins everything before it with one operand. -/
  | joined {k : Token} {op : Connective} {ts us : List Token} {left right : Rule}
      (hl : Derives .expression ts left) (hk : k.keyword? = some op)
      (hr : Derives .operand us right) : Derives .expression (ts ++ k :: us) (.join op left right)

/-- No phrase is empty. -/
theorem Derives.ne_nil {phrase : Phrase} {ts : List Token} {r : Rule} (h : Derives phrase ts r) :
    ts ≠ [] := by
  induction h with
  | condition => simp
  | group => simp
  | single _ ih => exact ih
  | joined => simp

/-- The deepest level that tokens reach which start `depth` levels deep. -/
def deepest (depth : Nat) : List Token → Nat
  | [] => depth
  | t :: ts =>
    match t.lexeme with
    | .opening => deepest (depth + 1) ts
    | .closing => max depth (deepest (depth - 1) ts)
    | _ => deepest depth ts

/-- How deep the parentheses of a token list nest. -/
def nesting (ts : List Token) : Nat := deepest 0 ts

@[simp] theorem deepest_nil (depth : Nat) : deepest depth [] = depth := rfl

theorem deepest_cons_opening {t : Token} (h : t.lexeme = .opening) (depth : Nat)
    (ts : List Token) : deepest depth (t :: ts) = deepest (depth + 1) ts := by
  rw [deepest, h]

theorem deepest_cons_closing {t : Token} (h : t.lexeme = .closing) (depth : Nat)
    (ts : List Token) : deepest depth (t :: ts) = max depth (deepest (depth - 1) ts) := by
  rw [deepest, h]

theorem deepest_cons_other {t : Token} (h_open : t.lexeme ≠ .opening)
    (h_close : t.lexeme ≠ .closing) (depth : Nat) (ts : List Token) :
    deepest depth (t :: ts) = deepest depth ts := by
  rw [deepest]
  split
  · next h => exact absurd h h_open
  · next h => exact absurd h h_close
  · rfl

theorem deepest_cons_field {t : Token} (h : t.isField) (depth : Nat) (ts : List Token) :
    deepest depth (t :: ts) = deepest depth ts :=
  deepest_cons_other (Token.lexeme_ne_opening_of_isField h)
    (Token.lexeme_ne_closing_of_isField h) depth ts

theorem deepest_cons_keyword {t : Token} {op : Connective} (h : t.keyword? = some op)
    (depth : Nat) (ts : List Token) : deepest depth (t :: ts) = deepest depth ts :=
  deepest_cons_other (Token.lexeme_ne_opening_of_keyword? h)
    (Token.lexeme_ne_closing_of_keyword? h) depth ts

/-- Tokens are at least as deep as the level at which they start. -/
theorem le_deepest (depth : Nat) (ts : List Token) : depth ≤ deepest depth ts := by
  induction ts generalizing depth with
  | nil => exact Nat.le_refl _
  | cons t ts ih =>
    -- for any depth, as the rest of the tokens may start one level further in or out
    rw [deepest]
    split
    · exact Nat.le_trans (Nat.le_succ depth) (ih (depth + 1))
    · exact Nat.le_max_left _ _
    · exact ih depth

/-- **A phrase leaves the depth as it found it.** What comes after it is read at the same level. -/
theorem deepest_append {phrase : Phrase} {ts : List Token} {r : Rule} (h : Derives phrase ts r)
    (depth : Nat) (us : List Token) :
    deepest depth (ts ++ us) = max (deepest depth ts) (deepest depth us) := by
  -- the depth is arbitrary, because a group is read one level further in
  induction h generalizing depth us with
  | condition hs ho hv =>
    -- three fields leave the depth alone
    have h_le := le_deepest depth us
    simp only [List.cons_append, List.nil_append, deepest_cons_field hs, deepest_cons_field ho,
      deepest_cons_field hv, deepest_nil]
    omega
  | group ho hc _ ih =>
    -- the closing parenthesis gives back the level that the opening one took, so what follows
    -- the group starts at `depth` again
    have h_le := le_deepest depth us
    simp only [List.cons_append, List.append_assoc, List.nil_append, deepest_cons_opening ho, ih,
      deepest_cons_closing hc, Nat.add_sub_cancel, deepest_nil]
    omega
  | single _ ih => exact ih depth us
  | joined _ hk _ ihl ihr =>
    simp only [List.append_assoc, List.cons_append, ihl, deepest_cons_keyword hk, ihr]
    omega

/-- The depth of a group is one more than that of what it holds. -/
theorem deepest_group {o c : Token} {ts : List Token} {r : Rule} (ho : o.lexeme = .opening)
    (hc : c.lexeme = .closing) (h : Derives .expression ts r) (depth : Nat) :
    deepest depth (o :: (ts ++ [c])) = deepest (depth + 1) ts := by
  have h_le := le_deepest (depth + 1) ts
  rw [deepest_cons_opening ho, deepest_append h, deepest_cons_closing hc, deepest_nil]
  omega

/-- The depth of an expression is that of the deeper side of its last keyword. -/
theorem deepest_joined {k : Token} {op : Connective} {ts us : List Token} {left : Rule}
    (hl : Derives .expression ts left) (hk : k.keyword? = some op) (depth : Nat) :
    deepest depth (ts ++ k :: us) = max (deepest depth ts) (deepest depth us) := by
  rw [deepest_append hl, deepest_cons_keyword hk]

/-- A phrase nests as deep below any level as it does on its own. -/
theorem deepest_eq_add {phrase : Phrase} {ts : List Token} {r : Rule} (h : Derives phrase ts r)
    (depth : Nat) : deepest depth ts = depth + nesting ts := by
  unfold nesting
  induction h generalizing depth with
  | condition hs ho hv =>
    simp only [deepest_cons_field hs, deepest_cons_field ho, deepest_cons_field hv, deepest_nil]
    rfl
  | group ho hc h ih =>
    -- the group's own nesting is measured from level one on, and here from `depth + 1` on
    rw [deepest_group ho hc h, deepest_group ho hc h, ih (depth + 1), ih (0 + 1)]
    omega
  | single _ ih => exact ih depth
  | joined hl hk _ ihl ihr =>
    -- addition goes through the greater of the two sides
    rw [deepest_joined hl hk, deepest_joined hl hk, ihl depth, ihr depth]
    omega

theorem nesting_condition {s o v : Token} (hs : s.isField) (ho : o.isField) (hv : v.isField) :
    nesting [s, o, v] = 0 := by
  rw [nesting, deepest_cons_field hs, deepest_cons_field ho, deepest_cons_field hv, deepest_nil]

theorem nesting_group {o c : Token} {ts : List Token} {r : Rule} (ho : o.lexeme = .opening)
    (hc : c.lexeme = .closing) (h : Derives .expression ts r) :
    nesting (o :: (ts ++ [c])) = nesting ts + 1 := by
  rw [nesting, deepest_group ho hc h, deepest_eq_add h]
  omega

end Eligibility
