import Eligibility.Proofs.Json.Exact
import Eligibility.Proofs.Json.Finite

/-!
# Rules through JSON and back

A rule goes through JSON unharmed if it is not too high and its doubles are read back
(`Rule.ofJson_of_toJson?`); the writer alone would take higher rules, up to 256 levels.

Conversely, a rule may be accepted in many forms: with its entries in any order, among others, or as
an array. Whatever the form, what is accepted has at most as many levels as the reader counts
(`Rule.height_le_of_ofTagged?`), and as no infinite number is read, it has no infinite double
(`Rule.isFinite_of_ofTagged?`). So it can be written, and is read back from the canonical form
(`Rule.ofJson_toJson`).

Reading a double is quick rather than exact. That it is read back is therefore asked of the finite
doubles of the rule at hand; for those with few digits it is known (`Binary64.readsBack_of_short`).
-/

namespace Eligibility

open Json

/-! ### The doubles of a rule -/

/-- The double that a value is. -/
def Value.float? : Value → Option Binary64
  | float x => some x
  | _ => none

namespace Rule

/-- The doubles that a rule compares with. -/
def floats (r : Rule) : List Binary64 := r.conditions.filterMap (·.value.float?)

theorem mem_floats_iff {r : Rule} {x : Binary64} :
    x ∈ r.floats ↔ ∃ c ∈ r.leaves, c.value = .float x := by
  rw [floats, conditions_eq_leaves, List.mem_filterMap]
  refine exists_congr fun c => and_congr_right fun _ => ?_
  cases c.value with
  | float y => simp [Value.float?]
  | int n => simp [Value.float?]
  | text s => simp [Value.float?]

/-- Whether a rule is read back is a matter of its height and its doubles. -/
theorem reread?_eq_some_iff_floats {levels : ℕ} {r : Rule} :
    r.reread? levels = some r ↔ r.height ≤ levels ∧ ∀ x ∈ r.floats, x.ReadsBack := by
  rw [reread?_eq_some_iff]
  refine and_congr_right fun _ => ⟨fun h x hx => ?_, fun h c hc => ?_⟩
  · obtain ⟨c, hc, h_value⟩ := mem_floats_iff.mp hx
    have h_read := h c hc
    rw [h_value] at h_read
    exact h_read
  · cases h_value : c.value with
    | int n => exact Value.reread?_int n
    | float x => exact h x (mem_floats_iff.mpr ⟨c, hc, h_value⟩)
    | text s => exact Value.reread?_text s

/-! ### Accepted rules -/

end Rule

/-- What stands in the entries. -/
def Json.Body.values : Body → List Json
  | fields fs => fs.map (·.2)
  | items xs => xs

theorem Json.mem_values_of_single? {key : String} {fields : List (String × Json)} {x : Json}
    (h : single? key fields = some x) : x ∈ (Body.fields fields).values := by
  unfold single? at h
  split at h
  · next e y h_filter =>
    obtain rfl := Option.some.inj h
    have h_mem : (e, y) ∈ fields.filter (·.1 == key) := h_filter ▸ List.mem_singleton_self _
    exact List.mem_map_of_mem (List.mem_filter.mp h_mem).1
  · exact absurd h (by simp)

/-- What is picked stands in the entries. -/
theorem Json.Body.mem_values_of_pick {body : Body} {keys : List String} {xs : List Json}
    (h : body.pick keys = some xs) : ∀ x ∈ xs, x ∈ body.values := by
  cases body with
  | items ys =>
    have h_items : (if ys.length = keys.length then some ys else none) = some xs := h
    split at h_items
    · exact Option.some.inj h_items ▸ fun x hx => hx
    · exact absurd h_items (by simp)
  | fields fs =>
    replace h : keys.mapM (fun key => single? key fs) = some xs := h
    induction keys generalizing xs with
    | nil =>
      obtain rfl : [] = xs := Option.some.inj h
      exact fun x hx => absurd hx List.not_mem_nil
    | cons key keys ih =>
      rw [List.mapM_cons] at h
      -- the value of the first key, then those of the others
      obtain ⟨y, h_single, h⟩ := Option.bind_eq_some_iff.mp h
      obtain ⟨ys, h_keys, h⟩ := Option.bind_eq_some_iff.mp h
      obtain rfl : y :: ys = xs := Option.some.inj h
      exact List.forall_mem_cons.mpr ⟨mem_values_of_single? h_single, ih h_keys⟩

/-- Entries with nothing but finite numbers in them. -/
def Json.Body.IsFinite (body : Body) : Prop := ∀ x ∈ body.values, x.IsFinite

/-- What a finite document is taken apart into is finite. -/
theorem Json.isFinite_of_tagged? {x : Json} {kind : NodeKind} {body : Body} (hx : x.IsFinite)
    (h : x.tagged? = some (kind, body)) : body.IsFinite := by
  unfold Json.tagged? at h
  split at h
  · -- an object: the kind is filtered out, and the other entries are left
    next fields =>
    obtain ⟨_, -, h⟩ := Option.bind_eq_some_iff.mp h
    obtain ⟨_, -, h⟩ := Option.bind_eq_some_iff.mp h
    obtain ⟨-, rfl⟩ := Prod.mk.inj (Option.some.inj h)
    cases hx with
    | obj h_fields =>
      intro y hy
      obtain ⟨f, hf, rfl⟩ := List.mem_map.mp hy
      exact h_fields f (List.mem_filter.mp hf).1
  · -- an array: the kind is the first item
    next tag items =>
    obtain ⟨_, -, h⟩ := Option.bind_eq_some_iff.mp h
    obtain ⟨-, rfl⟩ := Prod.mk.inj (Option.some.inj h)
    cases hx with
    | arr h_items => exact fun y hy => h_items y (List.mem_cons_of_mem _ hy)
  · exact absurd h (by simp)

/-- A finite document has no infinite value. -/
theorem Value.isFinite_of_ofJson? {x : Json} {y : Binary64} (hx : x.IsFinite)
    (h : ofJson? x = some (.float y)) : y.isFinite := by
  cases hx with
  | null => exact absurd h (by simp [ofJson?])
  | bool b => exact absurd h (by simp [ofJson?])
  -- a whole number beyond 64 bits becomes a double, and it is too small to be infinite
  | @whole i h_lt =>
    rw [ofJson?] at h
    split at h
    · exact absurd h (by simp)
    · obtain rfl := Value.float.inj (Option.some.inj h)
      exact Binary64.isFinite_ofInt_of_lt (by omega)
  | float h_finite =>
    obtain rfl := Value.float.inj (Option.some.inj h)
    exact h_finite
  | str s => exact absurd h (by simp [ofJson?])
  | arr => exact absurd h (by simp [ofJson?])
  | obj => exact absurd h (by simp [ofJson?])

namespace Rule

theorem value_of_conditionOf? {name comparison value : Json} {c : Condition}
    (h : conditionOf? name comparison value = some c) : Value.ofJson? value = some c.value := by
  obtain ⟨_, -, h⟩ := Option.bind_eq_some_iff.mp h
  obtain ⟨_, -, h⟩ := Option.bind_eq_some_iff.mp h
  obtain ⟨v, h_value, h⟩ := Option.bind_eq_some_iff.mp h
  obtain rfl := Option.some.inj h
  exact h_value

/-- **How a rule comes of a kind and its entries**: it is a condition of a value that was picked, or
it joins two rules that come of picked documents with one level less. -/
theorem ofTagged?_cases {levels : ℕ} {kind : NodeKind} {body : Body} {r : Rule}
    (h : ofTagged? levels kind body = some r) :
    ∃ n keys xs, levels = n + 1 ∧ body.pick keys = some xs ∧
      ((∃ c, ∃ x ∈ xs, Value.ofJson? x = some c.value ∧ r = test c) ∨
        ∃ op left right, ∃ x ∈ xs, ∃ y ∈ xs, ofDocument? n x = some left ∧
          ofDocument? n y = some right ∧ r = join op left right) := by
  cases levels with
  | zero => exact absurd h (by simp [ofTagged?])
  | succ n =>
    refine ⟨n, ?_⟩
    cases kind with
    | operand =>
      rw [ofTagged?] at h
      split at h
      · -- the value of the condition is the third of the picked entries
        next name comparison value h_pick =>
        obtain ⟨c, h_condition, rfl⟩ := Option.map_eq_some_iff.mp h
        exact ⟨_, _, rfl, h_pick,
          .inl ⟨c, value, by simp, value_of_conditionOf? h_condition, rfl⟩⟩
      · exact absurd h (by simp)
    | operator =>
      rw [ofTagged?] at h
      split at h
      · next name left right h_pick =>
        obtain ⟨op, -, h⟩ := Option.bind_eq_some_iff.mp h
        -- both sides are documents of their own, with a kind and entries
        obtain ⟨⟨left_kind, left_body⟩, h_left_tag, h⟩ := Option.bind_eq_some_iff.mp h
        obtain ⟨l, h_left, h⟩ := Option.bind_eq_some_iff.mp h
        obtain ⟨⟨right_kind, right_body⟩, h_right_tag, h⟩ := Option.bind_eq_some_iff.mp h
        obtain ⟨r, h_right, h⟩ := Option.bind_eq_some_iff.mp h
        obtain rfl := Option.some.inj h
        refine ⟨_, _, rfl, h_pick, .inr ⟨op, l, r, left, by simp, right, by simp, ?_, ?_, rfl⟩⟩
        · rw [ofDocument?, h_left_tag]
          exact h_left
        · rw [ofDocument?, h_right_tag]
          exact h_right
      · exact absurd h (by simp)

/-- **What is accepted** is not higher than the levels allow, and has no infinite double. -/
theorem height_le_of_ofTagged? {levels : ℕ} {kind : NodeKind} {body : Body} {r : Rule}
    (h : ofTagged? levels kind body = some r) : r.height ≤ levels := by
  -- on the levels that are left: each joint uses up one for its two sides
  induction levels generalizing kind body r with
  | zero =>
    obtain ⟨n, _, _, h_levels, -⟩ := ofTagged?_cases h
    exact absurd h_levels (by simp)
  | succ levels ih =>
    obtain ⟨n, keys, xs, h_levels, -, h_cases⟩ := ofTagged?_cases h
    obtain rfl := Nat.succ.inj h_levels
    rcases h_cases with ⟨c, x, -, -, rfl⟩ | ⟨op, left, right, x, -, y, -, h_left, h_right, rfl⟩
    · exact Nat.le_add_left 1 levels
    · obtain ⟨p, -, h_left⟩ := Option.bind_eq_some_iff.mp h_left
      obtain ⟨q, -, h_right⟩ := Option.bind_eq_some_iff.mp h_right
      have h_left := ih h_left
      have h_right := ih h_right
      rw [height]
      omega

theorem isFinite_of_ofTagged? {levels : ℕ} {kind : NodeKind} {body : Body} {r : Rule}
    (h_body : body.IsFinite) (h : ofTagged? levels kind body = some r) :
    ∀ x ∈ r.floats, x.isFinite := by
  induction levels generalizing kind body r with
  | zero =>
    obtain ⟨n, _, _, h_levels, -⟩ := ofTagged?_cases h
    exact absurd h_levels (by simp)
  | succ levels ih =>
    obtain ⟨n, keys, xs, h_levels, h_pick, h_cases⟩ := ofTagged?_cases h
    obtain rfl := Nat.succ.inj h_levels
    -- what is picked is finite, as all the entries are
    have h_xs : ∀ x ∈ xs, x.IsFinite := fun x hx => h_body x (Body.mem_values_of_pick h_pick x hx)
    intro z hz
    obtain ⟨c, hc, h_value⟩ := mem_floats_iff.mp hz
    rcases h_cases with ⟨c', x, hx, h_read, rfl⟩
      | ⟨op, left, right, x, hx, y, hy, h_left, h_right, rfl⟩
    · obtain rfl := List.mem_singleton.mp hc
      rw [h_value] at h_read
      exact Value.isFinite_of_ofJson? (h_xs x hx) h_read
    · -- the documents of the two sides are finite in turn, so induction applies to their entries
      obtain ⟨p, h_tag, h_left⟩ := Option.bind_eq_some_iff.mp h_left
      obtain ⟨q, h_tag', h_right⟩ := Option.bind_eq_some_iff.mp h_right
      rcases List.mem_append.mp hc with hc | hc
      · exact ih (isFinite_of_tagged? (h_xs x hx) h_tag) h_left z (mem_floats_iff.mpr ⟨c, hc, h_value⟩)
      · exact ih (isFinite_of_tagged? (h_xs y hy) h_tag') h_right z
          (mem_floats_iff.mpr ⟨c, hc, h_value⟩)

/-- Any kind may be read. -/
theorem ensures_kindReader : kindReader.Ensures fun _ => True := fun _ _ _ _ => trivial

/-- What is read of the outermost rule is finite. -/
theorem isFinite_of_readTagged {cs rest : List Char} {kind : Option NodeKind} {body : Body}
    (h : readTagged cs = .ok ((kind, body), rest)) : body.IsFinite := by
  have h_inner := ensures_value (maxNesting - 1)
  unfold readTagged at h
  simp only at h
  split at h
  · exact absurd h (by simp)
  split at h
  · -- an array: the kind is read with the first item, and the others are collected
    obtain ⟨⟨⟨kind', xs⟩, rest'⟩, h_items, h⟩ := exists_of_bind_eq_ok h
    obtain ⟨h_body, -⟩ := Prod.mk.inj (Except.ok.inj h)
    obtain ⟨-, rfl⟩ := Prod.mk.inj h_body
    -- what an item adds to the collected ones is finite, so they stay finite
    have h_item : ∀ state : Option NodeKind × List Json, (∀ x ∈ state.2, x.IsFinite) →
        (items (Json.value (maxNesting - 1)) state).Ensures fun state =>
          ∀ x ∈ state.2, x.IsFinite := by
      rintro ⟨_ | kind, xs⟩ h_xs
      · exact ensures_kindReader.map fun _ _ => h_xs
      · exact h_inner.map fun x hx => List.forall_mem_cons.mpr ⟨hx, h_xs⟩
    have h_all := ensures_readItems h_item (by simp) h_items
    exact fun x hx => h_all x (List.mem_reverse.mp hx)
  split at h
  · -- an object: the kind may come anywhere
    obtain ⟨⟨⟨kind', fields⟩, rest'⟩, h_fields, h⟩ := exists_of_bind_eq_ok h
    obtain ⟨h_body, -⟩ := Prod.mk.inj (Except.ok.inj h)
    obtain ⟨-, rfl⟩ := Prod.mk.inj h_body
    have h_entry : ∀ state : Option NodeKind × List (String × Json),
        (∀ f ∈ state.2, f.2.IsFinite) →
        ((entries (Json.value (maxNesting - 1))).reader state).Ensures fun state =>
          ∀ f ∈ state.2, f.2.IsFinite := by
      refine fun state h_state => ensures_entry fun key => ?_
      -- the entry of the kind adds nothing, any other one a finite document
      by_cases h_key : key = "kind"
      · simp only [entries, if_pos h_key]
        exact ensures_kindReader.map fun _ _ => h_state
      · simp only [entries, if_neg h_key]
        exact h_inner.map fun x hx => List.forall_mem_cons.mpr ⟨hx, h_state⟩
    have h_all := ensures_readItems h_entry (by simp) h_fields
    intro x hx
    obtain ⟨f, hf, rfl⟩ := List.mem_map.mp hx
    exact h_all f (List.mem_reverse.mp hf)
  · obtain ⟨_, -, h⟩ := exists_of_bind_eq_ok h
    exact absurd h (by simp)

/-- A rule that is accepted, in whatever form, was made of a kind and finite entries. -/
theorem exists_of_ofJson {text : String} {r : Rule} (h : ofJson text = .ok r) :
    ∃ kind body, body.IsFinite ∧ ofTagged? maxNesting kind body = some r := by
  obtain ⟨⟨⟨kind, body⟩, rest⟩, h_read, h⟩ := exists_of_bind_eq_ok h
  simp only at h
  split at h
  · exact absurd h (by simp)
  · next s h_some =>
    obtain ⟨_, -, h⟩ := exists_of_bind_eq_ok h
    obtain rfl := Except.ok.inj h
    obtain ⟨kind, rfl, h_rule⟩ := Option.bind_eq_some_iff.mp h_some
    exact ⟨kind, body, isFinite_of_readTagged h_read, h_rule⟩

/-- **A written rule is read back** unless it is too high or has a double that is not read back. -/
theorem ofJson_of_toJson? {r : Rule} {text : String} (h : r.toJson? = some text) :
    ofJson text = .ok r ↔ r.depth ≤ maxNesting ∧ ∀ x ∈ r.floats, x.ReadsBack := by
  obtain ⟨-, rfl⟩ := toJson?_eq_some_iff.mp h
  rw [← toOption_eq_some_iff, toOption_ofJson_json, reread?_eq_some_iff_floats, depth_eq_height]

/-- **Rules through JSON and back.** A rule is written exactly if it is at most 256 levels high. If
the text of every finite double in it is read as that double, then its text is read as the rule
exactly if the rule is at most 127 levels high and its doubles are finite; and a rule that is read
from any text is written, and read back from what is written.

Nothing is said of rules with a finite double that is not read back. There are such doubles among
those whose digits make a number from `2 ^ 53` on, or whose exponent is beyond 22, and
`9007199254740991.0` is one. All others are covered (`Binary64.readsBack_of_short`). -/
theorem ofJson_toJson :
    (∀ r : Rule, (∃ text, r.toJson? = some text) ↔ r.depth ≤ 256) ∧
    (∀ (r : Rule) (text : String), r.toJson? = some text →
      (∀ x ∈ r.floats, x.isFinite → x.ReadsBack) →
      (ofJson text = .ok r ↔ r.depth ≤ 127 ∧ ∀ x ∈ r.floats, x.isFinite)) ∧
    ∀ (r : Rule) (text : String), ofJson text = .ok r →
      (∀ x ∈ r.floats, x.isFinite → x.ReadsBack) →
      ∃ written, r.toJson? = some written ∧ ofJson written = .ok r := by
  refine ⟨fun r => ?_, fun r text h_write h_back => ?_, fun r text h_read h_back => ?_⟩
  · constructor
    · rintro ⟨text, h_write⟩
      exact (toJson?_eq_some_iff.mp h_write).1
    · exact fun h_depth => ⟨_, toJson?_eq_some_iff.mpr ⟨h_depth, rfl⟩⟩
  · rw [ofJson_of_toJson? h_write]
    refine and_congr_right fun _ => forall₂_congr fun x hx => ?_
    exact ⟨Value.isFinite_of_readsBack, h_back x hx⟩
  · -- what is accepted is low enough and finite, so what is written for it is read back
    obtain ⟨kind, body, h_body, h_rule⟩ := exists_of_ofJson h_read
    have h_depth : r.depth ≤ 127 := by
      rw [depth_eq_height]
      exact height_le_of_ofTagged? h_rule
    have h_write : r.toJson? = some (String.ofList r.json) :=
      toJson?_eq_some_iff.mpr ⟨Nat.le_trans h_depth (by decide), rfl⟩
    refine ⟨_, h_write, (ofJson_of_toJson? h_write).mpr ⟨h_depth, fun x hx => ?_⟩⟩
    exact h_back x hx (isFinite_of_ofTagged? h_body h_rule x hx)

/-- A rule with the double `0.1` and a text that has to be escaped is written and read back. A rule
with an infinite double is written as well, but it is not read from what is written. -/
theorem ofJson_toJson_escaped :
    let tenth : Binary64 := ⟨0x3FB999999999999A⟩
    let r : Rule :=
      .join .and (.test ⟨"a", .greater, .float tenth⟩) (.test ⟨"b", .equal, .text "\"\\\n"⟩)
    let infinity : Binary64 := ⟨0x7FF0000000000000⟩
    let s : Rule := .test ⟨"a", .equal, .float infinity⟩
    (∀ x ∈ r.floats, x.isFinite → x.ReadsBack) ∧
      (∃ text, r.toJson? = some text ∧ ofJson text = .ok r ∧
        ∃ written, r.toJson? = some written ∧ ofJson written = .ok r) ∧
      (∀ x ∈ s.floats, x.isFinite → x.ReadsBack) ∧
      ∃ text, s.toJson? = some text ∧ ¬ofJson text = .ok s := by
  intro tenth r infinity s
  obtain ⟨h_write, h_read, h_again⟩ := ofJson_toJson
  -- one digit and a small exponent: reading it is exact
  have h_tenth : tenth.ReadsBack := by
    have h_text : Decimal.read? (writeFloat tenth) = some ⟨false, 1, -1⟩ := by decide +kernel
    exact Binary64.readsBack_of_short (by decide) h_text (by decide) (by decide)
  have hr : ∀ x ∈ r.floats, x = tenth := by
    intro x hx
    obtain ⟨c, hc, h_value⟩ := mem_floats_iff.mp hx
    rcases List.mem_pair.mp hc with rfl | rfl
    · exact (Value.float.inj h_value).symm
    · exact absurd h_value (by simp)
  -- the infinite double is one that nothing is assumed of
  have hs : infinity ∈ s.floats := mem_floats_iff.mpr ⟨_, List.mem_singleton_self _, rfl⟩
  have h_infinite : ¬infinity.isFinite := by decide
  have hs_back : ∀ x ∈ s.floats, x.isFinite → x.ReadsBack := by
    intro x hx h_finite
    obtain ⟨c, hc, h_value⟩ := mem_floats_iff.mp hx
    obtain rfl := List.mem_singleton.mp hc
    exact absurd (Value.float.inj h_value ▸ h_finite) h_infinite
  have hr_back : ∀ x ∈ r.floats, x.isFinite → x.ReadsBack := fun x hx _ => hr x hx ▸ h_tenth
  have hr_depth : r.depth ≤ 127 := by
    rw [depth_eq_height]
    decide
  have hs_depth : s.depth ≤ 256 := by
    rw [depth_eq_height]
    decide
  obtain ⟨text, h_text⟩ := (h_write r).mpr (Nat.le_trans hr_depth (by decide))
  obtain ⟨text', h_text'⟩ := (h_write s).mpr hs_depth
  have h_rule : ofJson text = .ok r := by
    refine (h_read r text h_text hr_back).mpr ⟨hr_depth, fun x hx => ?_⟩
    rw [hr x hx]
    decide
  refine ⟨hr_back, ⟨text, h_text, h_rule, h_again r text h_rule hr_back⟩, hs_back, text', h_text',
    fun h_ok => ?_⟩
  exact h_infinite (((h_read s text' h_text' hs_back).mp h_ok).2 infinity hs)

end Rule

end Eligibility
