import Eligibility.Proofs.Catalog.Insertion
import Mathlib.Data.List.TakeWhile

/-!
# Lines of a rule file

A rule file is a text of lines, each with a line feed at its end, or a carriage return and a line
feed; the last line may go without (`Lined`). Of a line only what is left when blanks are trimmed
off counts. It is idle if that is nothing or a comment, and else it should ask for a rule under an
identifier, which stands in front of the first colon (`Asks`). Colons further on belong to the rule.

The carriage return at the end of a line is a blank like any other. So the ends of lines make no
difference to what is loaded (`ofText_of_lined`), and neither does indentation.
-/

namespace Eligibility

/-! ### Trimming -/

/-- Blanks in front of a text are trimmed off. -/
theorem trimBlanks_append_left {gap : List Char} (h : ∀ c ∈ gap, isBlank c) (cs : List Char) :
    trimBlanks (gap ++ cs) = trimBlanks cs := by
  rw [trimBlanks, List.dropWhile_append_of_pos h, trimBlanks]

/-- Blanks behind a text are trimmed off. -/
theorem trimBlanks_append_right {gap : List Char} (h : ∀ c ∈ gap, isBlank c) (cs : List Char) :
    trimBlanks (cs ++ gap) = trimBlanks cs := by
  have h_gap : gap.dropWhile isBlank = [] := List.dropWhile_eq_nil_iff.mpr h
  rw [trimBlanks, List.dropWhile_append, trimBlanks]
  cases h_front : cs.dropWhile isBlank with
  | nil =>
    -- there are only blanks
    rw [List.isEmpty_nil, if_pos rfl, h_gap]
  | cons c rest =>
    have h_reverse : ∀ c ∈ gap.reverse, isBlank c := fun c hc => h c (List.mem_reverse.mp hc)
    rw [List.isEmpty_cons, if_neg Bool.false_ne_true, List.reverse_append,
      List.dropWhile_append_of_pos h_reverse]

namespace Catalog

/-! ### Physical lines -/

/-- What ends a line. -/
inductive LineEnd
  | feed
  | returnFeed
  deriving DecidableEq

def LineEnd.chars : LineEnd → List Char
  | feed => ['\n']
  | returnFeed => ['\r', '\n']

/-- **The lines of a text.** Each has its end, and the last one may go without. A carriage return in
front of a line feed may be counted to the line or to its end. -/
inductive Lined : List Char → List (List Char) → Prop
  | nil : Lined [] []
  | last {line : List Char} (h_ne : line ≠ []) (h : '\n' ∉ line) : Lined line [line]
  | cons {line rest : List Char} {ls : List (List Char)} (ending : LineEnd) (h : '\n' ∉ line)
      (h_rest : Lined rest ls) : Lined (line ++ ending.chars ++ rest) (line :: ls)

/-- Text is cut at the first of the characters it is cut at. -/
theorem cut_at_first {stop : Char} {front : List Char} (h : stop ∉ front) (back : List Char) :
    (front ++ stop :: back).takeWhile (· ≠ stop) = front ∧
      (front ++ stop :: back).dropWhile (· ≠ stop) = stop :: back := by
  have h_front : ∀ c ∈ front, decide (c ≠ stop) = true := fun c hc =>
    decide_eq_true fun h_eq => h (h_eq ▸ hc)
  rw [List.takeWhile_append_of_pos h_front, List.dropWhile_append_of_pos h_front,
    List.takeWhile_cons_of_neg (by simp), List.dropWhile_cons_of_neg (by simp), List.append_nil]
  exact ⟨rfl, rfl⟩

theorem lines_append_feed {line : List Char} (h : '\n' ∉ line) (rest : List Char) :
    lines (line ++ '\n' :: rest) = line :: lines rest := by
  obtain ⟨h_take, h_drop⟩ := cut_at_first h rest
  obtain ⟨c, cs, h_cons⟩ := List.exists_cons_of_ne_nil
    (show line ++ '\n' :: rest ≠ [] by simp)
  -- the line may be empty, but with its newline it is not
  rw [h_cons] at h_take h_drop ⊢
  rw [lines, h_take, h_drop]
  rfl

theorem lines_of_last {line : List Char} (h_ne : line ≠ []) (h : '\n' ∉ line) :
    lines line = [line] := by
  have h_line : ∀ c ∈ line, decide (c ≠ '\n') = true := fun c hc =>
    decide_eq_true fun h_eq => h (h_eq ▸ hc)
  have h_take : line.takeWhile (· ≠ '\n') = line := List.takeWhile_eq_self_iff.mpr h_line
  have h_drop : line.dropWhile (· ≠ '\n') = [] := List.dropWhile_eq_nil_iff.mpr h_line
  obtain ⟨c, cs, rfl⟩ := List.exists_cons_of_ne_nil h_ne
  rw [lines, h_take, h_drop, List.drop_nil, lines]

/-- Every text has lines. -/
theorem exists_lined (cs : List Char) : ∃ ls, Lined cs ls := by
  -- on the length of the text, as a line takes any number of characters off its front
  induction h_length : cs.length using Nat.strongRecOn generalizing cs with
  | ind n ih =>
    subst h_length
    by_cases h_feed : '\n' ∈ cs
    · obtain ⟨line, rest, rfl, h_line⟩ := List.eq_append_cons_of_mem h_feed
      obtain ⟨ls, h_rest⟩ := ih rest.length (by simp; omega) rest rfl
      have h_lined := Lined.cons .feed h_line h_rest
      rw [List.append_assoc] at h_lined
      exact ⟨line :: ls, h_lined⟩
    · by_cases h_nil : cs = []
      · subst h_nil
        exact ⟨[], .nil⟩
      · exact ⟨[cs], .last h_nil h_feed⟩

/-! ### What a line says -/

/-- There is no rule in the line: it is blank, or a comment. -/
def IsIdle (line : List Char) : Prop :=
  trimBlanks line = [] ∨ (trimBlanks line).head? = some '#'

/-- The line asks for a rule: in front of its first colon stands the identifier, and behind it the
text of the rule. -/
def Asks (line : List Char) (q : Request) : Prop :=
  ¬IsIdle line ∧ ∃ front back, trimBlanks line = front ++ ':' :: back ∧ ':' ∉ front ∧
    trimBlanks front ≠ [] ∧
    q = ⟨String.ofList (trimBlanks front), String.ofList (trimBlanks back)⟩

/-- What the line asks for, if it does. -/
def request? (line : List Char) : Option Request :=
  if isSkipped (trimBlanks line) then none
  else (splitLine? (trimBlanks line)).map fun p => ⟨p.1, p.2⟩

theorem isSkipped_iff {line : List Char} : isSkipped (trimBlanks line) ↔ IsIdle line := by
  rw [IsIdle]
  cases trimBlanks line with
  | nil => simp [isSkipped]
  | cons c cs => simp [isSkipped]

/-- A line is cut at its first colon. -/
theorem splitLine?_eq_some_iff {line : List Char} {p : String × String} :
    splitLine? line = some p ↔
      ∃ front back, line = front ++ ':' :: back ∧ ':' ∉ front ∧ trimBlanks front ≠ [] ∧
        p = (String.ofList (trimBlanks front), String.ofList (trimBlanks back)) := by
  constructor
  · intro h
    unfold splitLine? at h
    split at h
    · exact absurd h (by simp)
    next c text h_drop =>
      -- what stands in front of the colon has none
      have h_front : ':' ∉ line.takeWhile (· ≠ ':') := by
        intro h_mem
        have h_ne := List.all_eq_true.mp List.all_takeWhile ':' h_mem
        exact absurd h_ne (by simp)
      obtain rfl : c = ':' := by
        have h_head := List.head?_dropWhile_not (fun d => decide (d ≠ ':')) line
        rw [h_drop] at h_head
        simpa using h_head
      have h_line : line = line.takeWhile (· ≠ ':') ++ ':' :: text := by
        rw [← h_drop, List.takeWhile_append_dropWhile]
      simp only at h
      split at h
      · exact absurd h (by simp)
      · next h_id => exact ⟨_, text, h_line, h_front, h_id, (Option.some.inj h).symm⟩
  · rintro ⟨front, back, rfl, h_front, h_id, rfl⟩
    obtain ⟨h_take, h_drop⟩ := cut_at_first h_front back
    simp only [splitLine?, h_take, h_drop]
    rw [if_neg h_id]

theorem request?_eq_some_iff {line : List Char} {q : Request} :
    request? line = some q ↔ Asks line q := by
  unfold request? Asks
  -- an idle line is skipped before it is cut, and so asks for nothing even with a colon in it
  by_cases h_idle : IsIdle line
  · rw [if_pos (isSkipped_iff.mpr h_idle)]
    simp [h_idle]
  · rw [if_neg (isSkipped_iff.not.mpr h_idle), Option.map_eq_some_iff]
    simp only [splitLine?_eq_some_iff]
    constructor
    · rintro ⟨p, ⟨front, back, h_line, h_front, h_id, rfl⟩, rfl⟩
      exact ⟨h_idle, front, back, h_line, h_front, h_id, rfl⟩
    · rintro ⟨-, front, back, h_line, h_front, h_id, rfl⟩
      exact ⟨_, ⟨front, back, h_line, h_front, h_id, rfl⟩, rfl⟩

/-- A line asks for one thing at most. -/
theorem Asks.unique {line : List Char} {q q' : Request} (h : Asks line q) (h' : Asks line q') :
    q = q' :=
  Option.some.inj ((request?_eq_some_iff.mpr h).symm.trans (request?_eq_some_iff.mpr h'))

/-- Only what is left of a line by trimming counts. -/
theorem isIdle_congr {line line' : List Char} (h : trimBlanks line = trimBlanks line') :
    IsIdle line ↔ IsIdle line' := by
  rw [IsIdle, IsIdle, h]

theorem asks_congr {line line' : List Char} (h : trimBlanks line = trimBlanks line') {q : Request} :
    Asks line q ↔ Asks line' q := by
  rw [Asks, Asks, isIdle_congr h, h]

/-! ### Loading one line -/

section Line

variable {k : Catalog} {line : List Char} {number : Nat} {q : Request}

theorem insertLine_of_isIdle (h : IsIdle line) : k.insertLine number line = .ok k := by
  rw [insertLine, if_pos (isSkipped_iff.mpr h)]

/-- A line that asks for a rule is a request to insert it. -/
theorem insertLine_of_asks (h : Asks line q) :
    k.insertLine number line = k.insert q.id q.text := by
  have h_request := request?_eq_some_iff.mpr h
  rw [request?, if_neg (isSkipped_iff.not.mpr h.1)] at h_request
  obtain ⟨⟨id, text⟩, h_split, rfl⟩ := Option.map_eq_some_iff.mp h_request
  simp only [insertLine, h_split]
  rw [if_neg (isSkipped_iff.not.mpr h.1)]

/-- A line that is neither idle nor asks for a rule is invalid. -/
theorem insertLine_of_invalid (h_idle : ¬IsIdle line) (h : ∀ q, ¬Asks line q) :
    k.insertLine number line = .error (.invalidLine number) := by
  have h_request : request? line = none := by
    rw [Option.eq_none_iff_forall_ne_some]
    exact fun q h_some => h q (request?_eq_some_iff.mp h_some)
  rw [request?, if_neg (isSkipped_iff.not.mpr h_idle), Option.map_eq_none_iff] at h_request
  simp only [insertLine, h_request]
  rw [if_neg (isSkipped_iff.not.mpr h_idle)]

/-- Nor does loading look at blanks around a line. -/
theorem insertLine_congr {line' : List Char} (h : trimBlanks line = trimBlanks line') :
    k.insertLine number line = k.insertLine number line' := by
  rw [insertLine, insertLine, h]

end Line

/-- The lines as they are cut, but for carriage returns. -/
theorem insertLines_of_lined {cs : List Char} {ls : List (List Char)} (h : Lined cs ls)
    (k : Catalog) (number : Nat) :
    k.insertLines number (lines cs) = k.insertLines number ls := by
  induction h generalizing k number with
  | nil => rw [lines]
  | last h_ne h => rw [lines_of_last h_ne h]
  | @cons line rest ls ending h _ ih =>
    cases ending with
    | feed =>
      rw [LineEnd.chars, List.append_assoc, List.singleton_append, lines_append_feed h,
        insertLines, insertLines]
      exact bind_congr fun k' => ih k' (number + 1)
    | returnFeed =>
      -- the carriage return stays at the end of the line that is cut, where it is a blank
      have h_line : '\n' ∉ line ++ ['\r'] := by simp [h]
      have h_trim : trimBlanks (line ++ ['\r']) = trimBlanks line :=
        trimBlanks_append_right (List.forall_mem_singleton.mpr rfl) line
      rw [LineEnd.chars, show line ++ ['\r', '\n'] ++ rest = line ++ ['\r'] ++ '\n' :: rest by simp,
        lines_append_feed h_line, insertLines, insertLines, insertLine_congr h_trim]
      exact bind_congr fun k' => ih k' (number + 1)

/-- **A rule file is its lines.** -/
theorem ofText_of_lined {text : String} {ls : List (List Char)} (h : Lined text.toList ls) :
    ofText text = insertLines default 1 ls :=
  insertLines_of_lined h default 1

end Catalog

end Eligibility
