import Eligibility.Proofs.Blob.Normal
import Eligibility.Proofs.Catalog.Insertion
import Eligibility.Proofs.Evaluation.Strictness
import Eligibility.Proofs.Grammar.Canonical
import Eligibility.Proofs.Number.Integer

/-!
# Where rules come from

A program gets its rules from text, from a catalog or from stored bytes; it joins them, and it takes
them apart. What it can get in this way is `Rule.Obtainable`. Two checks guard the sources, that of
the reader of rule text and that of the reader of stored rules, and they are not the same check:
text has no infinite literal and no text to the right of `>`, while a stored rule may compare with a
text that reads as a number. What they have in common is that conditions are storable. Joining and
taking apart make no conditions, so obtainable rules have storable conditions only
(`Rule.Obtainable.isStorable`).

A strict evaluation fails for the cause of one of the rule's conditions (`Rule.exists_cause`). A
storable condition gives it no literal to blame, and a record that supplies the rule with values and
numbers gives it no attribute.
-/

namespace Eligibility

/-! ### Printable conditions are storable -/

/-- A value that can stand to the right of `>` or `<` in rule text is a finite number. Integers are,
because the doubles reach far beyond them. -/
theorem Value.isSome_orderingBound_of_isPrintable {comparison : Comparison} {v : Value}
    (h : v.IsPrintable comparison) (h_ordering : comparison.isOrdering) :
    v.orderingBound.isSome := by
  cases v with
  | int n =>
    show ((some (Binary64.ofInt n.toInt)).filter Binary64.isFinite).isSome
    rw [Option.filter_some, if_pos (Binary64.isFinite_ofInt n)]
    rfl
  | float x =>
    have h_finite : x.isFinite := h
    show ((some x).filter Binary64.isFinite).isSome
    rw [Option.filter_some, if_pos h_finite]
    rfl
  -- a text is printed to the right of `=` only
  | text s =>
    obtain rfl : comparison = .equal := h
    exact absurd h_ordering (by decide)

theorem Condition.IsPrintable.isStorable {c : Condition} (h : c.IsPrintable) : c.IsStorable where
  name_ne_empty := h.name_ne_empty
  bound := Value.isSome_orderingBound_of_isPrintable h.value

/-! ### Rules of a catalog -/

namespace Catalog

/-- The catalogs that come about by inserting one rule after the other. -/
inductive Reachable : Catalog → Prop
  | empty (limits : Limits) : (Catalog.empty limits).Reachable
  | insert {k k' : Catalog} {id text : String} (h : k.Reachable)
      (h_insert : k.insert id text = .ok k') : k'.Reachable

/-- What an insertion does: the text is a rule, and the rule is put under an identifier that was
free. -/
theorem exists_of_insert_eq_ok {k k' : Catalog} {id text : String}
    (h : k.insert id text = .ok k') :
    k.get? id = none ∧ ∃ r, Rule.parse k.limits text = .ok r ∧
      k' = { k with rules := k.rules.insert id ⟨text, r⟩ } := by
  rw [insert_eq k ⟨id, text⟩] at h
  rcases attempt_cases k ⟨id, text⟩ with
    ⟨-, h_attempt⟩ | ⟨h_free, ⟨cause, -, h_attempt⟩ | ⟨r, h_parse, h_attempt⟩⟩
  · rw [h_attempt] at h
    exact absurd h (by simp [Except.map])
  · rw [h_attempt] at h
    exact absurd h (by simp [Except.map])
  · rw [h_attempt] at h
    exact ⟨get?_eq_none_iff.mpr h_free, r, h_parse, (Except.ok.inj h).symm⟩

/-- Every rule of a catalog was read from the text that the catalog keeps with it. -/
theorem Reachable.parse_source {k : Catalog} (h : k.Reachable) {id : String} {e : CatalogEntry}
    (h_get : k.rules.get? id = some e) : Rule.parse k.limits e.source = .ok e.rule := by
  induction h generalizing id e with
  | empty limits => exact absurd h_get (by simp [Catalog.empty])
  | insert _ h_insert ih =>
    obtain ⟨-, r', h_parse, rfl⟩ := exists_of_insert_eq_ok h_insert
    rw [Directory.get?_insert] at h_get
    split at h_get
    · -- the rule is the one that was inserted
      obtain rfl := Option.some.inj h_get
      exact h_parse
    · exact ih h_get

theorem Reachable.exists_parse {k : Catalog} (h : k.Reachable) {id : String} {r : Rule}
    (h_get : k.get? id = some r) : ∃ text, Rule.parse k.limits text = .ok r := by
  obtain ⟨e, h_entry, rfl⟩ := Option.map_eq_some_iff.mp h_get
  exact ⟨e.source, h.parse_source h_entry⟩

/-- A line of a rule file changes nothing, or its rule is inserted. -/
theorem Reachable.insertLine {k k' : Catalog} (h : k.Reachable) {number : Nat} {line : List Char}
    (h_line : k.insertLine number line = .ok k') : k'.Reachable := by
  simp only [Catalog.insertLine] at h_line
  split at h_line
  · exact Except.ok.inj h_line ▸ h
  · split at h_line
    · exact absurd h_line (by simp)
    · exact .insert h h_line

theorem Reachable.insertLines {k k' : Catalog} (h : k.Reachable) {number : Nat}
    {lines : List (List Char)} (h_lines : k.insertLines number lines = .ok k') :
    k'.Reachable := by
  induction lines generalizing k number with
  | nil => exact Except.ok.inj h_lines ▸ h
  | cons line rest ih =>
    obtain ⟨k₁, h_line, h_rest⟩ := exists_of_bind_eq_ok h_lines
    exact ih (h.insertLine h_line) h_rest

/-- Catalogs that are read from rule files are among them. -/
theorem reachable_of_ofText {text : String} {k : Catalog} (h : ofText text = .ok k) :
    k.Reachable :=
  (Reachable.empty default).insertLines h

/-- An identifier that is found stands for its rule. -/
theorem find_eq_ok_iff {k : Catalog} {id : String} {r : Rule} :
    k.find id = .ok r ↔ k.get? id = some r := by
  unfold find
  cases k.get? id with
  | none => simp
  | some s => simp

end Catalog

namespace Rule

/-! ### Obtainable rules -/

/-- **The rules that a program can get hold of** without putting conditions together by hand: those
that are read from text, found in a catalog, or read from bytes, whether they were written from a
rule or not; and what comes of them by joining and by taking sides. -/
inductive Obtainable : Rule → Prop
  | parsed {limits : Limits} {text : String} {r : Rule} (h : parse limits text = .ok r) :
      Obtainable r
  | combinedTexts {op : Connective} {texts : List String} {r : Rule}
      (h : combineTexts op texts = .ok (some r)) : Obtainable r
  | found {k : Catalog} {id : String} {r : Rule} (h_reachable : k.Reachable)
      (h : k.get? id = some r) : Obtainable r
  | combinedFound {k : Catalog} {op : Connective} {ids : List String} {r : Rule}
      (h_reachable : k.Reachable) (h : k.combine op ids = .ok (some r)) : Obtainable r
  | stored {bytes : List UInt8} {r : Rule} (h : ofBlob bytes = .ok r) : Obtainable r
  | combined {op : Connective} {rs : List Rule} {r : Rule} (h_parts : ∀ s ∈ rs, Obtainable s)
      (h : combine op rs = some r) : Obtainable r
  | left {op : Connective} {left right : Rule} (h : Obtainable (.join op left right)) :
      Obtainable left
  | right {op : Connective} {left right : Rule} (h : Obtainable (.join op left right)) :
      Obtainable right

theorem isStorable_of_parse {limits : Limits} {text : String} {r : Rule}
    (h : parse limits text = .ok r) : ∀ c ∈ r.conditions, c.IsStorable :=
  fun c hc => (isPrintable_of_parse h c hc).isStorable

theorem isStorable_of_get? {k : Catalog} (h_reachable : k.Reachable) {id : String} {r : Rule}
    (h : k.get? id = some r) : ∀ c ∈ r.conditions, c.IsStorable := by
  obtain ⟨text, h_parse⟩ := h_reachable.exists_parse h
  exact isStorable_of_parse h_parse

theorem isStorable_of_combine {op : Connective} {rs : List Rule} {r : Rule}
    (h_parts : ∀ s ∈ rs, ∀ c ∈ s.conditions, c.IsStorable) (h : combine op rs = some r) :
    ∀ c ∈ r.conditions, c.IsStorable := by
  intro c hc
  obtain ⟨s, hs, hc⟩ := (mem_conditions_combine h).mp hc
  exact h_parts s hs c hc

/-- **The invariant**: every source checks what it lets in, and nothing else makes conditions. -/
theorem Obtainable.isStorable {r : Rule} (h : r.Obtainable) :
    ∀ c ∈ r.conditions, c.IsStorable := by
  -- over the ways to come by a rule: each reader checks its conditions, and combining adds none
  induction h with
  | parsed h => exact isStorable_of_parse h
  | combinedTexts h =>
    obtain ⟨rs, h_parts, h⟩ := exists_of_bind_eq_ok h
    refine isStorable_of_combine (fun s hs => ?_) (Except.ok.inj h)
    obtain ⟨text, -, h_parse⟩ := exists_of_mem_of_mapM_eq_ok h_parts hs
    exact isStorable_of_parse h_parse
  | found h_reachable h => exact isStorable_of_get? h_reachable h
  | combinedFound h_reachable h =>
    obtain ⟨rs, h_parts, h⟩ := exists_of_bind_eq_ok h
    refine isStorable_of_combine (fun s hs => ?_) (Except.ok.inj h)
    obtain ⟨id, -, h_find⟩ := exists_of_mem_of_mapM_eq_ok h_parts hs
    exact isStorable_of_get? h_reachable (Catalog.find_eq_ok_iff.mp h_find)
  | stored h => exact isStorable_of_ofBlob h
  | combined _ h ih => exact isStorable_of_combine ih h
  | left _ ih => exact fun c hc => ih c (mem_conditions_join.mpr (.inl hc))
  | right _ ih => exact fun c hc => ih c (mem_conditions_join.mpr (.inr hc))

end Rule

/-! ### Evaluating storable conditions -/

/-- The record has a value for every attribute that the rule reads, and a number for those that it
reads under `>` or `<`. -/
structure Record.Supplies (record : Record) (r : Rule) : Prop where
  value : ∀ name ∈ r.attributes, (record.get? name).isSome
  number : ∀ c ∈ r.conditions, c.comparison.isOrdering →
    (record.get? c.name).any Value.isNumber

/-- It is enough to look at the conditions one by one. -/
theorem Record.supplies_iff {record : Record} {r : Rule} :
    record.Supplies r ↔ ∀ c ∈ r.conditions, (record.get? c.name).isSome ∧
      (c.comparison.isOrdering → (record.get? c.name).any Value.isNumber) := by
  constructor
  · intro h c hc
    exact ⟨h.value c.name (Rule.mem_attributes_iff.mpr ⟨c, hc, rfl⟩), h.number c hc⟩
  · intro h
    refine ⟨fun name h_name => ?_, fun c hc => (h c hc).2⟩
    obtain ⟨c, hc, rfl⟩ := Rule.mem_attributes_iff.mp h_name
    exact (h c hc).1

instance (record : Record) : DecidablePred record.Supplies := fun r =>
  decidable_of_iff' (∀ c ∈ r.leaves, (record.get? c.name).isSome ∧
      (c.comparison.isOrdering → (record.get? c.name).any Value.isNumber))
    (by rw [Record.supplies_iff, Rule.conditions_eq_leaves])

/-- A storable condition is undecidable only for what the record holds. -/
theorem Condition.IsStorable.cause_cases {c : Condition} (h : c.IsStorable)
    {observed : Option Value} {e : EvalError} (h_cause : c.UndecidedBy observed e) :
    (observed = none ∧ e = .missingAttribute c.name) ∨
      ∃ v, observed = some v ∧ c.comparison.isOrdering ∧ v.number? = none ∧
        e = .invalidAttribute c.name c.comparison v.kind := by
  cases h_cause with
  | missing => exact .inl ⟨rfl, rfl⟩
  | unordered h_ordering h_number => exact .inr ⟨_, rfl, h_ordering, h_number, rfl⟩
  | unbounded h_ordering _ h_bound =>
    have h_some := h.bound h_ordering
    rw [h_bound] at h_some
    exact absurd h_some (by decide)

namespace Rule

variable {record : Record} {r : Rule}

/-- A strict evaluation fails for the cause of one of the conditions. -/
theorem exists_cause {e : EvalError} (h : evaluateStrictly (some r) record = .error e) :
    ∃ c ∈ r.conditions, c.UndecidedBy (record.get? c.name) e := by
  rw [evaluateStrictly, evaluateUnder_some] at h
  obtain ⟨v, hv, h_cause⟩ := exists_undecidedBy h
  refine ⟨v.condition, ?_, h_cause⟩
  -- a visited condition is a leaf
  rw [conditions_eq_leaves]
  exact (visits_sublist .lenient record r).subset (List.mem_map_of_mem hv)

/-- Storable conditions leave no literal to blame. -/
theorem evaluateStrictly_ne_invalidLiteral (h : ∀ c ∈ r.conditions, c.IsStorable) (name : String)
    (comparison : Comparison) (literal : Value) :
    evaluateStrictly (some r) record ≠ .error (.invalidLiteral name comparison literal) := by
  intro h_error
  obtain ⟨c, hc, h_cause⟩ := exists_cause h_error
  rcases (h c hc).cause_cases h_cause with ⟨-, h_e⟩ | ⟨v, -, -, -, h_e⟩
  · exact absurd h_e (by simp)
  · exact absurd h_e (by simp)

/-- A record that supplies the rule leaves no attribute to blame either. -/
theorem exists_evaluateStrictly (h : ∀ c ∈ r.conditions, c.IsStorable)
    (h_supplies : record.Supplies r) : ∃ b, evaluateStrictly (some r) record = .ok b := by
  cases h_outcome : evaluateStrictly (some r) record with
  | ok b => exact ⟨b, rfl⟩
  | error e =>
    -- an error has a cause, and of the three causes storable conditions leave those in the record
    obtain ⟨c, hc, h_cause⟩ := exists_cause h_outcome
    obtain ⟨h_value, h_number⟩ := Record.supplies_iff.mp h_supplies c hc
    rcases (h c hc).cause_cases h_cause with ⟨h_none, -⟩ | ⟨v, h_some, h_ordering, h_text, -⟩
    · rw [h_none] at h_value
      exact absurd h_value (by decide)
    · replace h_number := h_number h_ordering
      rw [h_some, Option.any_some, Value.isNumber, h_text] at h_number
      exact absurd h_number (by decide)

/-- **Obtainable rules are sound.** All their conditions name an attribute, and those that order
have a finite number to order by. So a strict evaluation never blames a literal, and on a record
that supplies the rule it does not fail; and what is written from the rule, if it fits the format,
is not refused by the checks but read back. -/
theorem Obtainable.isSound (h : r.Obtainable) :
    (∀ c ∈ r.conditions, c.name ≠ "" ∧ (c.comparison.isOrdering → c.value.orderingBound.isSome)) ∧
    (∀ (record : Record) (name : String) (comparison : Comparison) (literal : Value),
      evaluateStrictly (some r) record ≠ .error (.invalidLiteral name comparison literal)) ∧
    (∀ record : Record, record.Supplies r → ∃ b, evaluateStrictly (some r) record = .ok b) ∧
    ((Payload.ofRule r).write.length < 2 ^ 32 → ofBlob r.toBlob = .ok r) := by
  have h_storable := h.isStorable
  refine ⟨fun c hc => c.isStorable_iff.mp (h_storable c hc), fun record => ?_, fun record => ?_, ?_⟩
  · exact evaluateStrictly_ne_invalidLiteral h_storable
  · exact exists_evaluateStrictly h_storable
  · exact ofBlob_toBlob_of_isStorable h_storable

/-- A rule from text joined with one that text does not have, since it orders by a number in quotes:
on a record with both numbers the evaluation has a verdict, and the rule is read back. -/
theorem Obtainable.isSound_quoted :
    let a : Rule := .test ⟨"a", .greater, .int 3⟩
    let b : Rule := .test ⟨"b", .less, .text " 4e1 "⟩
    let r : Rule := .join .or a b
    let record : Record := Directory.insert (Directory.insert ∅ "a" (.int 3)) "b" (.int 30)
    r.Obtainable ∧ record.Supplies r ∧ (∃ v, evaluateStrictly (some r) record = .ok v) ∧
      (Payload.ofRule r).write.length < 2 ^ 32 ∧ ofBlob r.toBlob = .ok r := by
  intro a b r record
  -- one rule is read from text and the other from bytes, where the quotes are kept
  have ha : a.Obtainable := by
    have h_print : a.IsPrintable := by
      rw [IsPrintable, conditions_eq_leaves]
      decide
    have h_parse := parse_render_of_isPrintable h_print 0
    have h_depth : a.depth = 1 := by
      rw [depth_eq_height]
      rfl
    rw [h_depth, if_pos (by decide)] at h_parse
    exact .parsed h_parse
  have hb : b.Obtainable := by
    have h_storable : ∀ c ∈ b.conditions, c.IsStorable := by
      rw [conditions_eq_leaves]
      decide +kernel
    exact .stored (ofBlob_toBlob_of_isStorable h_storable (by decide +kernel))
  have hr : r.Obtainable := by
    have h_parts : ∀ s ∈ [a, b], s.Obtainable := by
      intro s hs
      rcases List.mem_pair.mp hs with rfl | rfl
      · exact ha
      · exact hb
    exact .combined h_parts rfl
  have h_supplies : record.Supplies r := by decide
  have h_short : (Payload.ofRule r).write.length < 2 ^ 32 := by
    have h_flatten : Entry.flatten r
        = [.test ⟨"a", .greater, .int 3⟩, .test ⟨"b", .less, .text " 4e1 "⟩, .chain .or 2] := by
      simp [r, a, b, Entry.flatten_join, Entry.chainOperands]
    rw [Payload.ofRule, h_flatten]
    decide +kernel
  obtain ⟨-, -, h_evaluate, h_back⟩ := Obtainable.isSound hr
  exact ⟨hr, h_supplies, h_evaluate record h_supplies, h_short, h_back h_short⟩

end Rule

end Eligibility
