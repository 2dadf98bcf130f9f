/-!
# Outcomes of steps

Steps that may fail are written with `Except`, one after the other. A sequence of steps succeeds
only if each of them does, and the first that fails is its outcome.
-/

namespace Eligibility

variable {ε α β : Type}

@[simp] theorem ok_bind (a : α) (f : α → Except ε β) : (Except.ok a >>= f) = f a := rfl

@[simp] theorem error_bind (e : ε) (f : α → Except ε β) : (Except.error e >>= f) = .error e := rfl

@[simp] theorem throw_eq_error (e : ε) : (throw e : Except ε α) = .error e := rfl

@[simp] theorem pure_eq_ok (a : α) : (pure a : Except ε α) = .ok a := rfl

@[simp] theorem map_ok (f : α → β) (a : α) : (Except.ok a : Except ε α).map f = .ok (f a) := rfl

@[simp] theorem map_error (f : α → β) (e : ε) : (Except.error e).map f = .error e := rfl

/-- Apart from the errors, steps that may fail are optional steps. -/
theorem toOption_bind (x : Except ε α) (f : α → Except ε β) :
    (x >>= f).toOption = x.toOption.bind fun a => (f a).toOption := by
  cases x with
  | error e => rfl
  | ok a => rfl

theorem toOption_eq_some_iff {x : Except ε α} {a : α} : x.toOption = some a ↔ x = .ok a := by
  cases x with
  | error e => simp [Except.toOption]
  | ok b => simp [Except.toOption]

/-- A sequence of steps succeeds only if each of them does. -/
theorem exists_of_bind_eq_ok {x : Except ε α} {f : α → Except ε β} {b : β}
    (h : x >>= f = .ok b) : ∃ a, x = .ok a ∧ f a = .ok b := by
  cases x with
  | error e => cases h
  | ok a => exact ⟨a, rfl, h⟩

/-- What comes of a step for every member of a list comes of the step for one of them. -/
theorem exists_of_mem_of_mapM_eq_ok {f : α → Except ε β} {as : List α} {bs : List β} {b : β}
    (h : as.mapM f = .ok bs) (hb : b ∈ bs) : ∃ a ∈ as, f a = .ok b := by
  induction as generalizing bs with
  | nil =>
    obtain rfl : [] = bs := Except.ok.inj h
    exact absurd hb List.not_mem_nil
  | cons a as ih =>
    rw [List.mapM_cons] at h
    obtain ⟨first, h_first, h⟩ := exists_of_bind_eq_ok h
    obtain ⟨rest, h_rest, h⟩ := exists_of_bind_eq_ok h
    obtain rfl : first :: rest = bs := Except.ok.inj h
    rcases List.mem_cons.mp hb with rfl | hb
    · exact ⟨a, List.mem_cons_self, h_first⟩
    · obtain ⟨a', ha, h_step⟩ := ih h_rest hb
      exact ⟨a', List.mem_cons_of_mem _ ha, h_step⟩

/-- The first member for which the step fails decides. -/
theorem mapM_append_eq_error {f : α → Except ε β} {front back : List α} {a : α} {e : ε}
    (h_front : ∀ a ∈ front, ∃ b, f a = .ok b) (h : f a = .error e) :
    (front ++ a :: back).mapM f = .error e := by
  induction front with
  | nil => rw [List.nil_append, List.mapM_cons, h, error_bind]
  | cons first front ih =>
    obtain ⟨h_first, h_front⟩ := List.forall_mem_cons.mp h_front
    obtain ⟨b, h_first⟩ := h_first
    rw [List.cons_append, List.mapM_cons, h_first, ok_bind, ih h_front, error_bind]

end Eligibility
