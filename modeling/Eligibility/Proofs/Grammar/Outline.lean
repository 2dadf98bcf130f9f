import Eligibility.Proofs.Evaluation.Unquoted

/-!
# What canonical text keeps of a rule

The outline of a rule is its connectives, in their places, and the names in its conditions. The
canonical text of a rule has parentheses around every joint, so that its outline should be read
back. But a stored rule may have any name that is not empty, and a name is written as it is. A name
that says `a = 1 AND b` is read as one condition and a half, and there is a joint where there was
none (`Rule.not_sameOutline_of_parse_render`).

Names that rule text has are all that is needed (`Rule.sameOutline_of_parse_render`). No literal gets
in the way of it: numbers are read back, texts are quoted, a text that stays a text stands next to
`=`, and an infinite literal, which is stored there as well, is read as a text that says `inf`
(`Condition.IsStorable.exists_readsAs`). Conversely what is read has no other names, so that with
any other name the outline is lost.
-/

namespace Eligibility

/-- The two rules have the same connectives in the same places, and conditions with the same names
between them. -/
def Rule.SameOutline (r s : Rule) : Prop := r.Matches (fun c d => c.name = d.name) s

/-! ### Literals that are words -/

/-- Beyond the finite doubles a literal is a word that is no number. -/
theorem Value.readNumber_floatLiteral_infinite {x : Binary64} (h : x.isFinite = false) :
    readNumber (floatLiteral x) = .noNumber := by
  rw [floatLiteral, h, if_neg Bool.false_ne_true]
  split
  · decide
  · split <;> decide

/-- To the right of `=` such a literal is read as a text. -/
theorem valueOf_floatLiteral_infinite {x : Binary64} (h : x.isFinite = false) {t : Token}
    (ht : t.lexeme = (Value.float x).lexeme) :
    t.isField ∧ (valueOf .equal t >>= checkOrdering .equal) = .ok (.text (Value.float x).render) := by
  have h_lex : t.lexeme = .word (Value.float x).render := ht
  -- no literal stands for an infinite double, so the text of one is a plain word
  have h_read : readNumber (Value.float x).render.toList = .noNumber := by
    rw [Value.render, String.toList_ofList]
    exact Value.readNumber_floatLiteral_infinite h
  refine ⟨?_, ?_⟩
  · have h_keyword : (Value.float x).render ≠ "AND" ∧ (Value.float x).render ≠ "OR" := by
      rw [Value.render, Value.literal, Value.floatLiteral, h, if_neg Bool.false_ne_true]
      split
      · decide
      · split <;> decide
    exact isField_of_lexeme_word h_lex h_keyword.1 h_keyword.2
  · exact valueOf_of_noNumber h_lex h_read

/-- **A stored condition is read as a condition**, on the same name, if rule text has that name. -/
theorem Condition.IsStorable.exists_readsAs {c : Condition} (h : c.IsStorable)
    (h_name : IsBareName c.name) : ∃ d, c.ReadsAs d ∧ c.name = d.name := by
  obtain ⟨name, comparison, v⟩ := c
  by_cases h_float : ∀ x, v = .float x → x.isFinite
  · have h_print := h_name.isPrintable (Value.isPrintable_unquoted h.bound h_float)
    exact ⟨_, Condition.readsAs_unquoted h_print, rfl⟩
  · -- there is no ordering by a literal that is not finite
    obtain ⟨x, rfl, h_infinite⟩ : ∃ x, v = .float x ∧ x.isFinite = false := by
      simpa using h_float
    obtain rfl : comparison = .equal := by
      cases comparison with
      | equal => rfl
      | _ => exact absurd (h.bound rfl) (by simp [Value.orderingBound, Value.number?, h_infinite])
    have h_print := h_name.isPrintable (v := .text (Value.float x).render) rfl
    exact ⟨_, .of_value h_print fun _ ht => valueOf_floatLiteral_infinite h_infinite ht, rfl⟩

/-! ### The outline of what is read -/

/-- **What canonical text keeps.** A rule that is read from bytes has in its canonical text the same
outline, whatever the limit, exactly if all its names are names that rule text has. Then the text is
a rule, within levels of nesting that are one less than its depth. -/
theorem Rule.sameOutline_of_parse_render {bytes : List UInt8} {r : Rule}
    (h : Rule.ofBlob bytes = .ok r) :
    (∀ (limits : Limits) (s : Rule), Rule.parse limits r.render = .ok s →
      (r.SameOutline s ↔ ∀ c ∈ r.conditions, IsBareName c.name)) ∧
    ((∀ c ∈ r.conditions, IsBareName c.name) → ∃ s, r.SameOutline s ∧ ∀ m,
      Rule.parse ⟨m⟩ r.render = if r.depth - 1 ≤ m then .ok s else .error (.nestingTooDeep m)) := by
  have h_read : (∀ c ∈ r.conditions, IsBareName c.name) → ∃ s, r.SameOutline s ∧ ∀ m,
      Rule.parse ⟨m⟩ r.render
        = if r.depth - 1 ≤ m then .ok s else .error (.nestingTooDeep m) := by
    intro h_names
    have h_storable := Rule.isStorable_of_ofBlob h
    rw [Rule.conditions_eq_leaves] at h_names h_storable
    -- each condition is read as some condition, and the shape is that of the rule
    obtain ⟨s, h_matches⟩ := Rule.exists_matches
      fun c hc => (h_storable c hc).exists_readsAs (h_names c hc)
    refine ⟨s, h_matches.mono fun c _ d hd => hd.2, fun m => ?_⟩
    exact Rule.parse_render_of_matches (h_matches.mono fun c _ d hd => hd.1) m
  refine ⟨fun limits s h_parse => ⟨fun h_outline => ?_, fun h_names => ?_⟩, h_read⟩
  · -- the names are those of what was read
    have h_print := Rule.isPrintable_of_parse h_parse
    rw [Rule.IsPrintable, Rule.conditions_eq_leaves] at h_print
    rw [Rule.conditions_eq_leaves]
    refine h_outline.flip.forall_leaves (fun d c h_name hd => ?_) h_print
    rw [h_name]
    exact isBareName_iff.mpr { hd with value := trivial }
  · -- one text is read as one rule
    obtain ⟨s', h_outline, h_text⟩ := h_read h_names
    have h_both := (h_text limits.maxDepth).symm.trans h_parse
    split at h_both
    · exact Except.ok.inj h_both ▸ h_outline
    · exact absurd h_both (by simp)

/-- A stored rule with an infinite literal and a number in quotes: its text is another rule, and has
its outline. -/
theorem Rule.sameOutline_of_parse_render_infinite :
    let r : Rule := .join .or (.test ⟨"a", .equal, .float ⟨0x7FF0000000000000⟩⟩)
      (.test ⟨"b", .less, .text " 4e1 "⟩)
    let s : Rule := .join .or (.test ⟨"a", .equal, .text "inf"⟩)
      (.test ⟨"b", .less, .float (.ofInt 40)⟩)
    Rule.ofBlob r.toBlob = .ok r ∧ (∀ c ∈ r.conditions, IsBareName c.name) ∧
      Rule.parse ⟨1⟩ r.render = .ok s ∧ r.SameOutline s := by
  intro r s
  have h_storable : ∀ c ∈ r.conditions, c.IsStorable := by
    rw [Rule.conditions_eq_leaves]
    decide +kernel
  have h_short : (Payload.ofRule r).write.length < 2 ^ 32 := by
    have h_flatten : Entry.flatten r
        = [.test ⟨"a", .equal, .float ⟨0x7FF0000000000000⟩⟩, .test ⟨"b", .less, .text " 4e1 "⟩,
          .chain .or 2] := by
      simp [r, Entry.flatten_join, Entry.chainOperands]
    rw [Payload.ofRule, h_flatten]
    decide +kernel
  have h_blob := ofBlob_toBlob_of_isStorable h_storable h_short
  have h_names : ∀ c ∈ r.conditions, IsBareName c.name := by
    rw [Rule.conditions_eq_leaves]
    decide +kernel
  have h_parse : Rule.parse ⟨1⟩ r.render = .ok s := by
    rw [Rule.render_eq_text]
    decide +kernel
  obtain ⟨h_outline, -⟩ := Rule.sameOutline_of_parse_render h_blob
  exact ⟨h_blob, h_names, h_parse, (h_outline ⟨1⟩ s h_parse).mpr h_names⟩

/-- **A name may be read as more than a name.** A rule with one condition, which is stored and read
again, has the text of a rule with two. -/
theorem Rule.not_sameOutline_of_parse_render :
    let r : Rule := .test ⟨"a = 1 AND b", .equal, .int 2⟩
    let s : Rule := .join .and (.test ⟨"a", .equal, .int 1⟩) (.test ⟨"b", .equal, .int 2⟩)
    Rule.ofBlob r.toBlob = .ok r ∧ Rule.parse ⟨0⟩ r.render = .ok s ∧ ¬r.SameOutline s := by
  intro r s
  have h_storable : ∀ c ∈ r.conditions, c.IsStorable := by
    rw [Rule.conditions_eq_leaves]
    decide +kernel
  have h_parse : Rule.parse ⟨0⟩ r.render = .ok s := by
    rw [Rule.render_eq_text]
    decide +kernel
  refine ⟨ofBlob_toBlob_of_isStorable h_storable (by decide +kernel), h_parse, fun h_outline => ?_⟩
  -- a condition has no counterpart in a joint
  have h_matches : Rule.Matches _ (.test _) (.join _ _ _) := h_outline
  cases h_matches

end Eligibility
