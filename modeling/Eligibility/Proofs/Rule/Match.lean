import Eligibility.Rule.Equality

/-!
# Rules of one shape

Two rules match if they have the same shape and the same connectives, and a given relation holds of
any two conditions in corresponding places: `Rule.Matches`. Being alike is the case of alike
conditions (`Rule.alike_iff_matches`).
-/

namespace Eligibility

/-- **The same rule, apart from its conditions**, each of which is related to the one in its
place. -/
inductive Rule.Matches (R : Condition → Condition → Prop) : Rule → Rule → Prop
  | test {c d : Condition} (h : R c d) : Matches R (.test c) (.test d)
  | join (op : Connective) {left left' right right' : Rule} (hl : Matches R left left')
      (hr : Matches R right right') : Matches R (.join op left right) (.join op left' right')

namespace Rule

variable {R S : Condition → Condition → Prop} {r s : Rule}

/-- Matching depends on the conditions that the rule has. -/
theorem Matches.mono (h : r.Matches R s) (h_imp : ∀ c ∈ r.leaves, ∀ d, R c d → S c d) :
    r.Matches S s := by
  induction h with
  | test h => exact .test (h_imp _ (List.mem_singleton.mpr rfl) _ h)
  | join op _ _ ihl ihr =>
    exact .join op (ihl fun c hc => h_imp c (List.mem_append_left _ hc))
      (ihr fun c hc => h_imp c (List.mem_append_right _ hc))

/-- Matching goes the other way as well. -/
theorem Matches.flip (h : r.Matches R s) : s.Matches (fun d c => R c d) r := by
  induction h with
  | test h => exact .test h
  | join op _ _ ihl ihr => exact .join op ihl ihr

/-- What the relation carries over from a condition to its counterpart holds of all of them. -/
theorem Matches.forall_leaves {P Q : Condition → Prop} (h : r.Matches R s)
    (h_imp : ∀ c d, R c d → P c → Q d) (hr : ∀ c ∈ r.leaves, P c) : ∀ d ∈ s.leaves, Q d := by
  -- the leaves are listed in corresponding places, left before right
  induction h with
  | test h =>
    exact List.forall_mem_singleton.mpr (h_imp _ _ h (hr _ (List.mem_singleton.mpr rfl)))
  | join op _ _ ihl ihr =>
    obtain ⟨h_left, h_right⟩ := List.forall_mem_append.mp hr
    exact List.forall_mem_append.mpr ⟨ihl h_left, ihr h_right⟩

/-- What the relation says of a condition alone holds of all of them. -/
theorem Matches.forall_left {P : Condition → Prop} (h : r.Matches R s)
    (h_imp : ∀ c d, R c d → P c) : ∀ c ∈ r.leaves, P c :=
  h.flip.forall_leaves (P := fun _ => True) (fun d c h_rel _ => h_imp c d h_rel)
    fun _ _ => trivial

/-- A rule matches itself if its conditions do. -/
theorem matches_self_iff : r.Matches R r ↔ ∀ c ∈ r.leaves, R c c := by
  induction r with
  | test c =>
    rw [leaves, List.forall_mem_singleton]
    exact ⟨fun | .test h => h, .test⟩
  | join op left right ihl ihr =>
    rw [leaves, List.forall_mem_append, ← ihl, ← ihr]
    exact ⟨fun | .join _ hl hr => ⟨hl, hr⟩, fun ⟨hl, hr⟩ => .join op hl hr⟩

/-- A counterpart of every condition gives one of the rule. -/
theorem exists_matches (h : ∀ c ∈ r.leaves, ∃ d, R c d) : ∃ s, r.Matches R s := by
  induction r with
  | test c =>
    obtain ⟨d, hd⟩ := h c (List.mem_singleton.mpr rfl)
    exact ⟨.test d, .test hd⟩
  | join op left right ihl ihr =>
    obtain ⟨left', hl⟩ := ihl fun c hc => h c (List.mem_append_left _ hc)
    obtain ⟨right', hr⟩ := ihr fun c hc => h c (List.mem_append_right _ hc)
    exact ⟨.join op left' right', .join op hl hr⟩

/-- Alike rules have alike conditions in all places. -/
theorem alike_iff_matches : r.alike s ↔ r.Matches (fun c d => c.alike d) s := by
  constructor
  · intro h
    -- over both rules at once, as each case of the comparison looks at one node of either
    induction r generalizing s with
    | test c =>
      cases s with
      | test d => exact .test h
      | join => exact absurd h (by simp [alike])
    | join op left right ihl ihr =>
      cases s with
      | test => exact absurd h (by simp [alike])
      | join op' left' right' =>
        simp only [alike, Bool.and_eq_true, beq_iff_eq] at h
        obtain ⟨⟨rfl, hl⟩, hr⟩ := h
        exact .join op (ihl hl) (ihr hr)
  · intro h
    induction h with
    | test h => exact h
    | join op _ _ ihl ihr => simp [alike, ihl, ihr]

end Rule

end Eligibility
