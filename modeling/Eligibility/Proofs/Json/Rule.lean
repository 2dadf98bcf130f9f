import Eligibility.Json.Rule
import Eligibility.Proofs.Json.Reader
import Eligibility.Proofs.Rule.Walk

/-!
# Reading what was written

The text of a rule is read as the rule again, except that its values become what their own texts are
read as (`Rule.toOption_ofJson_json`). Integers and texts are read back, so only doubles can change
on the way (`Binary64.ReadsBack`).

How deep a text may nest is counted by the readers, and how high a rule may be by what is made of the
documents. As every level of a rule is one object, both counts agree: the documents of the parts are
read within one level less (`Rule.gives_json`), and the parts are made of them with one level less
(`Rule.ofTagged?_fields`). The outermost rule is read differently, entry by entry with its kind
checked at once, but it comes to the same (`Rule.toOption_readTagged`).
-/

namespace Eligibility

open Json

/-! ### Values -/

/-- What the text of a value is read as. -/
def Value.document? (v : Value) : Option Json :=
  (readDocument none v.writeJson).toOption.map (·.1)

/-- The value that is read from the text of a value. -/
def Value.reread? (v : Value) : Option Value := v.document?.bind Value.ofJson?

/-- A double that is read back from its text, as a double and as itself. Reading is quick rather than
exact, so a finite double with many digits may be read as its neighbour. -/
def Binary64.ReadsBack (x : Binary64) : Prop := (Value.float x).reread? = some (.float x)

instance : DecidablePred Binary64.ReadsBack := fun x =>
  inferInstanceAs (Decidable ((Value.float x).reread? = some (.float x)))

namespace Value

/-- The text of a finite double is read as a number. -/
theorem readDocument_writeFloat {x : Binary64} (h : x.isFinite) :
    ∃ p : NumberParts, ∀ inner more, EndsNumber more →
      readDocument inner (writeFloat x ++ more) = (p.number x.negative).map (·, more) := by
  obtain ⟨p, h_text, -⟩ := exists_parts (of_decide_eq_true h)
  refine ⟨p, fun inner more h_more => ?_⟩
  rw [writeFloat, if_pos h, Layout.render, ← h_text, readDocument_text inner p.isText_text _ h_more]

/-- What a value is read as depends on its text alone. -/
theorem exists_result (v : Value) :
    ∃ result : Except Fault Json, ∀ inner more, EndsNumber more →
      readDocument inner (v.writeJson ++ more) = result.map (·, more) := by
  cases v with
  | int n => exact ⟨.ok (.whole n.toInt), fun inner more => readDocument_integer inner n⟩
  | float x =>
    by_cases h : x.isFinite
    · obtain ⟨p, h_read⟩ := readDocument_writeFloat h
      exact ⟨p.number x.negative, h_read⟩
    · -- an infinite double is written as `null`
      have h_text : writeFloat x = "null".toList := if_neg h
      refine ⟨.ok .null, fun inner more _ => ?_⟩
      rw [writeJson, h_text]
      rfl
  | text s => exact ⟨.ok (.str s), fun inner more _ => readDocument_string inner s more⟩

/-- Whatever may nest, a document is read. -/
theorem exists_inner (levels : ℕ) : ∃ inner, (Json.value levels).run = readDocument inner := by
  cases levels with
  | zero => exact ⟨none, rfl⟩
  | succ levels => exact ⟨some (Json.value levels), rfl⟩

/-- Inside of a rule, a value is read as it is read alone. -/
theorem gives_writeJson (v : Value) (levels : ℕ) :
    (Json.value levels).Gives v.writeJson v.document? := by
  obtain ⟨result, h_result⟩ := v.exists_result
  -- no value nests, so what may stand inside is of no matter
  obtain ⟨inner, h_run⟩ := exists_inner levels
  have h_alone := h_result none [] endsNumber_nil
  rw [List.append_nil] at h_alone
  intro more h_more
  rw [h_run, h_result inner more h_more, document?, h_alone]
  cases result with
  | error fault => rfl
  | ok x => rfl

theorem reread?_int (n : Int64) : (int n).reread? = some (int n) := by
  have h_read := readDocument_integer none n endsNumber_nil
  rw [List.append_nil] at h_read
  have h_value : ofJson? (.whole n.toInt) = some (int n) := by
    rw [ofJson?, if_pos n.toInt_lt, Int64.ofInt_toInt]
  rw [reread?, document?, writeJson, h_read, ← h_value]
  rfl

theorem document?_text (s : String) : (text s).document? = some (.str s) := by
  have h_read := readDocument_string none s []
  rw [List.append_nil] at h_read
  rw [document?, writeJson, h_read]
  rfl

theorem gives_writeString (levels : ℕ) (s : String) :
    (Json.value levels).Gives (writeString s) (some (.str s)) := by
  rw [← document?_text]
  exact gives_writeJson (text s) levels

theorem reread?_text (s : String) : (text s).reread? = some (text s) := by
  rw [reread?, document?_text]
  rfl

/-- A double that is not finite is written as no value. -/
theorem isFinite_of_readsBack {x : Binary64} (h : x.ReadsBack) : x.isFinite := by
  by_contra h_infinite
  have h_text : (float x).writeJson = "null".toList := if_neg h_infinite
  have h_none : (float x).reread? = none := by
    rw [reread?, document?, h_text]
    rfl
  rw [Binary64.ReadsBack, h_none] at h
  exact absurd h (by simp)

end Value

namespace Rule

/-! ### What is written -/

/-- The JSON text of a rule, however high it is. -/
def json : Rule → List Char
  | test c => writeCondition c
  | join op left right =>
    "\x7b\"kind\":\"operator\",\"operator\":".toList ++ Json.writeString op.keyword
      ++ ",\"left\":".toList ++ left.json ++ ",\"right\":".toList ++ right.json ++ ['\x7d']

theorem height_pos (r : Rule) : 0 < r.height := by
  cases r <;> simp only [height] <;> omega

theorem writeLevels_test (levels : ℕ) (c : Condition) :
    writeLevels (levels + 1) (test c) = some (test c).json := rfl

theorem writeLevels_join (levels : ℕ) (op : Connective) (left right : Rule) :
    writeLevels (levels + 1) (join op left right)
      = (writeLevels levels left).bind fun left => (writeLevels levels right).bind fun right =>
        some ("\x7b\"kind\":\"operator\",\"operator\":".toList ++ Json.writeString op.keyword
          ++ ",\"left\":".toList ++ left ++ ",\"right\":".toList ++ right ++ ['\x7d']) := rfl

/-- **A rule is written if it is not too high**, whatever its shape. -/
theorem writeLevels_eq (levels : ℕ) (r : Rule) :
    writeLevels levels r = if r.height ≤ levels then some r.json else none := by
  -- on the levels, with one case for each kind of rule as in the writer
  induction levels generalizing r with
  | zero =>
    rw [if_neg (Nat.not_le_of_lt r.height_pos)]
    rfl
  | succ levels ih =>
    cases r with
    | test c =>
      have h_height : (test c).height ≤ levels + 1 := Nat.le_add_left 1 levels
      rw [if_pos h_height, writeLevels_test]
    | join op left right =>
      have h_height : (join op left right).height ≤ levels + 1
          ↔ left.height ≤ levels ∧ right.height ≤ levels := by
        simp only [height]
        omega
      rw [writeLevels_join, ih, ih]
      -- either side may be too high
      by_cases h_left : left.height ≤ levels
      · by_cases h_right : right.height ≤ levels
        · rw [if_pos h_left, if_pos h_right, if_pos (h_height.mpr ⟨h_left, h_right⟩)]
          rfl
        · rw [if_pos h_left, if_neg h_right, if_neg fun h => h_right (h_height.mp h).2]
          rfl
      · rw [if_neg h_left, if_neg fun h => h_left (h_height.mp h).1]
        rfl

theorem toJson?_eq_some_iff {r : Rule} {text : String} :
    r.toJson? = some text ↔ r.depth ≤ maxJsonHeight ∧ text = String.ofList r.json := by
  rw [toJson?, writeLevels_eq, depth_eq_height]
  split
  · next h => simp [h, eq_comm]
  · next h => simp [h]

/-! ### What it is read as -/

/-- The kind under which a rule is written. -/
def kind : Rule → NodeKind
  | test _ => .operand
  | join _ _ _ => .operator

/-- The other entries of a rule, if `part?` is what its parts are read as. -/
def fields? (part? : Rule → Option Json) : Rule → Option (List (String × Json))
  | test c => do
    let value ← c.value.document?
    return [("attribute", .str c.name), ("comparator", .str c.comparison.symbol), ("value", value)]
  | join op left right => do
    let left ← part? left
    let right ← part? right
    return [("operator", .str op.keyword), ("left", left), ("right", right)]

end Rule

/-- The name of a kind. -/
def Json.NodeKind.name : NodeKind → String
  | operand => "operand"
  | operator => "operator"

@[simp] theorem Json.NodeKind.ofName?_name (kind : NodeKind) : ofName? kind.name = some kind := by
  cases kind <;> rfl

namespace Rule

/-- What the text of a rule is read as within some levels of nesting. -/
def document? : (levels : ℕ) → Rule → Option Json
  | 0, _ => none
  | levels + 1, r =>
    (r.fields? (document? levels)).map fun fields => .obj (("kind", .str r.kind.name) :: fields)

/-- What stands between the texts of three members makes an object of a kind with these members. -/
theorem writeObject_eq {kind k₁ k₂ k₃ : String} {front second third : List Char}
    (h_front : front = '\x7b' :: (writeMember "kind" (writeString kind) ++ ',' :: writeMember k₁ []))
    (h_second : second = ',' :: writeMember k₂ []) (h_third : third = ',' :: writeMember k₃ [])
    (cs₁ cs₂ cs₃ : List Char) :
    front ++ cs₁ ++ second ++ cs₂ ++ third ++ cs₃ ++ ['\x7d']
      = writeObject [("kind", writeString kind), (k₁, cs₁), (k₂, cs₂), (k₃, cs₃)] := by
  subst h_front h_second h_third
  simp [writeObject, writeMember]

theorem json_test (c : Condition) :
    (test c).json = writeObject [("kind", writeString "operand"), ("attribute", writeString c.name),
      ("comparator", writeString c.comparison.symbol), ("value", c.value.writeJson)] := by
  have h_front : "\x7b\"kind\":\"operand\",\"attribute\":".toList
      = '\x7b' :: (writeMember "kind" (writeString "operand")
        ++ ',' :: writeMember "attribute" []) := rfl
  have h_comparator : ",\"comparator\":".toList = ',' :: writeMember "comparator" [] := rfl
  have h_value : ",\"value\":".toList = ',' :: writeMember "value" [] := rfl
  exact writeObject_eq h_front h_comparator h_value _ _ _

theorem json_join (op : Connective) (left right : Rule) :
    (join op left right).json = writeObject [("kind", writeString "operator"),
      ("operator", writeString op.keyword), ("left", left.json), ("right", right.json)] := by
  have h_front : "\x7b\"kind\":\"operator\",\"operator\":".toList
      = '\x7b' :: (writeMember "kind" (writeString "operator")
        ++ ',' :: writeMember "operator" []) := rfl
  have h_left : ",\"left\":".toList = ',' :: writeMember "left" [] := rfl
  have h_right : ",\"right\":".toList = ',' :: writeMember "right" [] := rfl
  exact writeObject_eq h_front h_left h_right _ _ _

/-- A member of a rule besides its kind. -/
structure RuleMember (inner : Reader Json) extends Member inner where
  key_ne_kind : key ≠ "kind"

/-- A rule is written as an object of its kind and its other members. -/
theorem exists_members {levels : ℕ}
    (h_parts : ∀ s : Rule, (Json.value levels).Gives s.json (s.document? levels)) (r : Rule) :
    ∃ members : List (RuleMember (Json.value levels)),
      r.json = writeObject
          (("kind", writeString r.kind.name) :: members.map fun m => m.toMember.written) ∧
        members.mapM (fun m => m.toMember.found?) = r.fields? (document? levels) := by
  have h_string := Value.gives_writeString levels
  -- the members in the order in which they are written, each with what it is read as
  cases r with
  | test c =>
    refine ⟨[⟨⟨"attribute", _, _, h_string c.name⟩, by simp⟩,
      ⟨⟨"comparator", _, _, h_string c.comparison.symbol⟩, by simp⟩,
      ⟨⟨"value", _, _, c.value.gives_writeJson levels⟩, by simp⟩], json_test c, ?_⟩
    simp only [List.mapM_cons, List.mapM_nil, Member.found?, fields?]
    cases c.value.document? with
    | none => rfl
    | some v => rfl
  | join op left right =>
    refine ⟨[⟨⟨"operator", _, _, h_string op.keyword⟩, by simp⟩,
      ⟨⟨"left", _, _, h_parts left⟩, by simp⟩, ⟨⟨"right", _, _, h_parts right⟩, by simp⟩],
      json_join op left right, ?_⟩
    simp only [List.mapM_cons, List.mapM_nil, Member.found?, fields?]
    cases left.document? levels with
    | none => rfl
    | some l =>
      cases right.document? levels with
      | none => rfl
      | some r => rfl

/-- **The text of a rule is read as its document**, whatever follows. -/
theorem gives_json (levels : ℕ) (r : Rule) :
    (Json.value levels).Gives r.json (r.document? levels) := by
  induction levels generalizing r with
  | zero =>
    cases r with
    | test c =>
      rw [json_test]
      exact gives_object_zero _
    | join op left right =>
      rw [json_join]
      exact gives_object_zero _
  | succ levels ih =>
    -- the kind is read as any other member is, and it comes first
    obtain ⟨members, h_json, h_fields⟩ := exists_members ih r
    have h_object := gives_object (⟨"kind", _, _, Value.gives_writeString levels r.kind.name⟩
      :: members.map RuleMember.toMember)
    rw [List.map_cons, List.map_map, List.mapM_cons, List.mapM_map] at h_object
    rw [show List.mapM (Member.found? ∘ RuleMember.toMember) members = _ from h_fields] at h_object
    rw [h_json, document?]
    cases h_some : r.fields? (document? levels) with
    | none =>
      rw [h_some] at h_object
      exact h_object
    | some fields =>
      rw [h_some] at h_object
      exact h_object

/-! ### The outermost rule -/

/-- The kind of the outermost rule is read from its name. -/
theorem gives_kind (kind : NodeKind) : kindReader.Gives (writeString kind.name) (some kind) := by
  intro more _
  have h_kind : readKind (writeString kind.name ++ more) = .ok (kind, more) := by
    rw [writeString_append, readKind, skipSpace_cons (by decide)]
    simp only
    rw [if_neg (by decide), readScalar_string]
    simp only [Json.string?, Option.bind_some, NodeKind.ofName?_name]
  show (readKind (writeString kind.name ++ more)).toOption = _
  rw [h_kind]
  rfl

/-- The kind among the entries of the outermost rule. -/
def kindStep (inner : Reader Json) (kind : NodeKind) : EntryStep (entries inner) where
  key := "kind"
  text := writeString kind.name
  step state := if state.1.isSome then none else some (some kind, state.2)
  gives state := by
    have h_entry : ((entries inner).entry state "kind").Gives (writeString kind.name)
        (some (some kind, state.2)) := by
      have h_kind : (entries inner).entry state "kind"
          = kindReader.map fun kind => (some kind, state.2) := by simp only [entries, if_true]
      rw [h_kind]
      exact (gives_kind kind).map fun kind => (some kind, state.2)
    have h_gives := gives_entry h_entry
    have h_admits : (entries inner).admits state "kind" = !state.1.isSome := rfl
    rw [h_admits] at h_gives
    cases h_seen : state.1.isSome with
    | true =>
      rw [h_seen] at h_gives
      exact h_gives
    | false =>
      rw [h_seen] at h_gives
      exact h_gives

/-- Another member among the entries of the outermost rule. -/
def RuleMember.step {inner : Reader Json} (m : RuleMember inner) : EntryStep (entries inner) where
  key := m.key
  text := m.text
  step state := m.found?.map fun e => (state.1, e :: state.2)
  gives state := by
    have h_entry : ((entries inner).entry state m.key).Gives m.text
        (m.found?.map fun e => (state.1, e :: state.2)) := by
      have h_member : (entries inner).entry state m.key
          = inner.map fun x => (state.1, (m.key, x) :: state.2) := by
        simp only [entries, if_neg m.key_ne_kind]
      rw [h_member, Member.found?, Option.map_map]
      exact m.gives.map fun x => (state.1, (m.key, x) :: state.2)
    have h_gives := gives_entry h_entry
    have h_admits : (entries inner).admits state m.key = true := by
      simp [entries, m.key_ne_kind]
    rw [h_admits] at h_gives
    exact h_gives

/-- The entries of the outermost rule are read one by one, its kind first. -/
theorem toOption_readTagged (r : Rule) :
    (readTagged r.json).toOption
      = (r.fields? (document? (maxNesting - 1))).map fun fields =>
        ((some r.kind, .fields fields), []) := by
  obtain ⟨members, h_json, h_fields⟩ := exists_members (gives_json (maxNesting - 1)) r
  obtain ⟨cs, h_text, h_read⟩ := toOption_readObject
    (kindStep _ r.kind :: members.map RuleMember.step) (none, []) []
  -- once the kind is known, the entries behind it are collected
  have h_fold : members.foldlM
      (fun state m => m.found?.map fun e => (state.1, e :: state.2)) (some r.kind, [])
      = (r.fields? (document? (maxNesting - 1))).map fun fields =>
        (some r.kind, fields.reverse ++ []) := by
    rw [← h_fields]
    refine foldlM_collect (fun found => (some r.kind, found)) (fun m => m.toMember.found?) ?_
      members []
    exact fun _ _ => rfl
  have h_start : r.json = '\x7b' :: cs := by
    rw [List.append_nil, List.map_cons, List.map_map] at h_text
    rw [h_json, ← h_text]
    rfl
  have h_object : readTagged r.json
      = readObject (entries (Json.value (maxNesting - 1))) (none, []) cs >>= fun p =>
        .ok ((p.1.1, .fields p.1.2.reverse), p.2) := by
    rw [h_start]
    rfl
  have h_kind : (kindStep (Json.value (maxNesting - 1)) r.kind).step (none, [])
      = some (some r.kind, []) := rfl
  rw [List.foldlM_cons, h_kind, Option.bind_eq_bind, Option.bind_some, List.foldlM_map] at h_read
  rw [h_object, toOption_bind, h_read.trans (congrArg _ h_fold), Option.map_map, Option.bind_map]
  cases r.fields? (document? (maxNesting - 1)) with
  | none => rfl
  | some fields => simp [Except.toOption]

/-! ### Making the rule -/

/-- The rule of a document, at most `levels` levels high. -/
def ofDocument? (levels : ℕ) (x : Json) : Option Rule :=
  x.tagged?.bind fun p => ofTagged? levels p.1 p.2

/-- The rule whose values are read from the texts of the values, if it is not too high. -/
def reread? : (levels : ℕ) → Rule → Option Rule
  | 0, _ => none
  | _ + 1, test c => c.value.reread?.map fun v => test { c with value := v }
  | levels + 1, join op left right => do
    let left ← left.reread? levels
    let right ← right.reread? levels
    return join op left right

/-- A document with a kind in front of its other entries. -/
theorem tagged?_of_kind {kind : NodeKind} {fields : List (String × Json)}
    (h : ∀ f ∈ fields, f.1 ≠ "kind") :
    (Json.obj (("kind", .str kind.name) :: fields)).tagged? = some (kind, .fields fields) := by
  -- the kind is found once, as no other member has its key
  have h_none : fields.filter (·.1 == "kind") = [] := by
    rw [List.filter_eq_nil_iff]
    intro f hf
    simp [h f hf]
  have h_all : fields.filter (·.1 != "kind") = fields := by
    rw [List.filter_eq_self]
    intro f hf
    simp [h f hf]
  simp [Json.tagged?, Json.single?, h_none, h_all, Json.kind?]

theorem ne_kind_of_fields? {part? : Rule → Option Json} {r : Rule} {fields : List (String × Json)}
    (h : r.fields? part? = some fields) : ∀ f ∈ fields, f.1 ≠ "kind" := by
  cases r with
  | test c =>
    obtain ⟨v, -, h⟩ := Option.bind_eq_some_iff.mp h
    obtain rfl := Option.some.inj h
    simp
  | join op left right =>
    obtain ⟨l, -, h⟩ := Option.bind_eq_some_iff.mp h
    obtain ⟨r, -, h⟩ := Option.bind_eq_some_iff.mp h
    obtain rfl := Option.some.inj h
    simp

theorem pick_operand (name comparison value : Json) :
    (Body.fields [("attribute", name), ("comparator", comparison), ("value", value)]).pick
      ["attribute", "comparator", "value"] = some [name, comparison, value] := by
  simp [Body.pick, Json.single?]

theorem pick_operator (op left right : Json) :
    (Body.fields [("operator", op), ("left", left), ("right", right)]).pick
      ["operator", "left", "right"] = some [op, left, right] := by
  simp [Body.pick, Json.single?]

theorem ofTagged?_operand (levels : ℕ) (c : Condition) (v : Json) :
    ofTagged? (levels + 1) .operand
        (.fields [("attribute", .str c.name), ("comparator", .str c.comparison.symbol), ("value", v)])
      = (Value.ofJson? v).map fun v => test { c with value := v } := by
  have h_condition : conditionOf? (.str c.name) (.str c.comparison.symbol) v
      = (Value.ofJson? v).map fun v => { c with value := v } := by
    simp only [conditionOf?, Json.string?, Json.named?, Comparison.ofSymbol?_symbol]
    cases Value.ofJson? v with
    | none => rfl
    | some v => rfl
  rw [ofTagged?, pick_operand]
  simp only [h_condition, Option.map_map]
  rfl

theorem ofTagged?_operator (levels : ℕ) (op : Connective) (left right : Json) :
    ofTagged? (levels + 1) .operator
        (.fields [("operator", .str op.keyword), ("left", left), ("right", right)])
      = (ofDocument? levels left).bind fun left => (ofDocument? levels right).bind fun right =>
        some (join op left right) := by
  rw [ofTagged?, pick_operator]
  simp only [ofDocument?, Json.named?, Connective.ofKeyword?_keyword, Option.bind_assoc]
  rfl

/-- **From entries to rules.** If the parts are made from their documents, so is the rule. -/
theorem ofTagged?_fields {levels : ℕ}
    (h_parts : ∀ s : Rule, (s.document? levels).bind (ofDocument? levels) = s.reread? levels)
    (r : Rule) :
    ((r.fields? (document? levels)).bind fun fields => ofTagged? (levels + 1) r.kind (.fields fields))
      = r.reread? (levels + 1) := by
  cases r with
  | test c =>
    rw [reread?, Value.reread?, fields?, kind]
    cases c.value.document? with
    | none => rfl
    | some v => exact ofTagged?_operand levels c v
  | join op left right =>
    rw [reread?, fields?, kind, ← h_parts, ← h_parts]
    -- a side that is not read leaves nothing to join
    cases left.document? levels with
    | none => rfl
    | some l =>
      cases right.document? levels with
      | none =>
        simp
      | some r => exact ofTagged?_operator levels op l r

/-- The rule of the document of a rule. -/
theorem ofDocument?_document? (levels : ℕ) (r : Rule) :
    (r.document? levels).bind (ofDocument? levels) = r.reread? levels := by
  -- on the levels, as both sides of a joint have one less
  induction levels generalizing r with
  | zero => rfl
  | succ levels ih =>
    rw [← ofTagged?_fields ih, document?]
    cases h_fields : r.fields? (document? levels) with
    | none => rfl
    | some fields =>
      rw [Option.map_some, Option.bind_some, ofDocument?,
        tagged?_of_kind (ne_kind_of_fields? h_fields)]
      rfl

/-- **Reading what was written.** The text of a rule is read as the rule whose values are read from
the texts of the values. -/
theorem toOption_ofJson_json (r : Rule) :
    (ofJson (String.ofList r.json)).toOption = r.reread? maxNesting := by
  -- the outermost rule is taken apart while it is read, and its parts are documents
  have h_fields := ofTagged?_fields (ofDocument?_document? (maxNesting - 1)) r
  rw [show maxNesting - 1 + 1 = maxNesting from rfl] at h_fields
  rw [ofJson, toOption_bind, String.toList_ofList, toOption_readTagged, Option.bind_map, ← h_fields]
  cases r.fields? (document? (maxNesting - 1)) with
  | none => rfl
  | some fields =>
    rw [Option.bind_some, Option.bind_some, Function.comp_apply]
    simp only [Option.bind_some]
    cases ofTagged? maxNesting r.kind (.fields fields) with
    | none => rfl
    | some s => rfl

/-- A rule is read back unless it is too high or has a value that is not read back. -/
theorem reread?_eq_some_iff {levels : ℕ} {r : Rule} :
    r.reread? levels = some r ↔
      r.height ≤ levels ∧ ∀ c ∈ r.leaves, c.value.reread? = some c.value := by
  induction levels generalizing r with
  | zero =>
    simp only [reread?, reduceCtorEq, Nat.not_le_of_lt r.height_pos, false_and]
  | succ levels ih =>
    cases r with
    | test c =>
      rw [reread?, height, leaves, Option.map_eq_some_iff, List.forall_mem_singleton,
        and_iff_right (Nat.le_add_left 1 levels)]
      constructor
      · rintro ⟨v, h_read, h_test⟩
        obtain rfl : v = c.value := congrArg Condition.value (Rule.test.inj h_test)
        exact h_read
      · intro h_read
        exact ⟨c.value, h_read, rfl⟩
    | join op left right =>
      -- a joint is read back exactly if both of its sides are
      have h_join : (join op left right).reread? (levels + 1) = some (join op left right)
          ↔ left.reread? levels = some left ∧ right.reread? levels = some right := by
        rw [reread?]
        cases left.reread? levels with
        | none => simp
        | some l =>
          cases right.reread? levels with
          | none => simp
          | some r => simp
      rw [h_join, ih, ih, leaves, List.forall_mem_append, height]
      constructor
      · rintro ⟨⟨h_left, h_leaves⟩, h_right, h_leaves'⟩
        exact ⟨by omega, h_leaves, h_leaves'⟩
      · rintro ⟨h_height, h_leaves, h_leaves'⟩
        exact ⟨⟨by omega, h_leaves⟩, by omega, h_leaves'⟩

end Rule

end Eligibility
