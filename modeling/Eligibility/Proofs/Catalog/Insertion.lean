import Eligibility.Catalog
import Eligibility.Outcome
import Mathlib.Data.List.Nodup
import Mathlib.Data.List.Perm.Basic

/-!
# Inserting into a catalog

A program keeps a catalog and inserts rules into it, good ones and bad ones, under identifiers that
are free or taken. `Catalog.after` is what it has after any number of requests.

One request does no more than to fill a gap: under its own identifier, if nothing is there and the
text reads as a rule (`Catalog.get?_attempt`). So after a history of requests an identifier stands
for the first request under it whose text is a rule (`Catalog.get?_after`), and all others have
failed without a trace. Requests under different identifiers do not see each other and can be
exchanged (`Catalog.attempt_comm`); hence the order of rules with distinct identifiers does not
matter.
-/

namespace Eligibility.Catalog

/-- What the request offers to the catalog, if its text reads as a rule. -/
def Request.offer? (limits : Limits) (q : Request) : Option CatalogEntry :=
  (Rule.parse limits q.text).toOption.map (⟨q.text, ·⟩)

theorem Request.offer?_eq_some_iff {limits : Limits} {q : Request} {text : String} {r : Rule} :
    q.offer? limits = some ⟨text, r⟩ ↔ q.text = text ∧ Rule.parse limits q.text = .ok r := by
  rw [offer?, Option.map_eq_some_iff]
  constructor
  · rintro ⟨s, h_parse, h_offer⟩
    obtain ⟨rfl, rfl⟩ := CatalogEntry.mk.inj h_offer
    exact ⟨rfl, toOption_eq_some_iff.mp h_parse⟩
  · rintro ⟨rfl, h_parse⟩
    exact ⟨r, toOption_eq_some_iff.mpr h_parse, rfl⟩

theorem Request.offer?_eq_none_iff {limits : Limits} {q : Request} :
    q.offer? limits = none ↔ ∀ r, Rule.parse limits q.text ≠ .ok r := by
  rw [offer?, Option.map_eq_none_iff]
  cases Rule.parse limits q.text with
  | error cause => simp [Except.toOption]
  | ok r => simp [Except.toOption]

/-- The catalog after a history of requests, whether they succeed or not. -/
def after (k : Catalog) (qs : List Request) : Catalog :=
  qs.foldl (fun k q => (k.attempt q).2) k

/-- Catalogs are equal if they find the same entries and read under the same limits. -/
theorem ext_get? {k k' : Catalog} (h : ∀ id, k.rules.get? id = k'.rules.get? id)
    (h_limits : k.limits = k'.limits) : k = k' := by
  cases k
  cases k'
  cases Directory.ext_get? h
  cases h_limits
  rfl

/-! ### One request -/

variable {k : Catalog} {q : Request}

/-- A taken identifier is refused, whatever the text. -/
theorem attempt_of_taken (h : (k.rules.get? q.id).isSome) :
    k.attempt q = (.error (.duplicateRule q.id), k) := by
  rw [attempt, if_pos h]

/-- Under a free identifier a text that is no rule is refused. -/
theorem attempt_of_unreadable {cause : ParseError} (h_free : k.rules.get? q.id = none)
    (h : Rule.parse k.limits q.text = .error cause) :
    k.attempt q = (.error (.unreadable q.id cause), k) := by
  rw [attempt, if_neg (by simp [h_free]), h]

theorem attempt_of_readable {r : Rule} (h_free : k.rules.get? q.id = none)
    (h : Rule.parse k.limits q.text = .ok r) :
    k.attempt q = (.ok (), { k with rules := k.rules.insert q.id ⟨q.text, r⟩ }) := by
  rw [attempt, if_neg (by simp [h_free]), h]

/-- The three outcomes of a request. -/
theorem attempt_cases (k : Catalog) (q : Request) :
    (k.rules.get? q.id).isSome ∧ k.attempt q = (.error (.duplicateRule q.id), k) ∨
    k.rules.get? q.id = none ∧
      ((∃ cause, Rule.parse k.limits q.text = .error cause ∧
          k.attempt q = (.error (.unreadable q.id cause), k)) ∨
        ∃ r, Rule.parse k.limits q.text = .ok r ∧
          k.attempt q = (.ok (), { k with rules := k.rules.insert q.id ⟨q.text, r⟩ })) := by
  cases h_get : k.rules.get? q.id with
  | some e => exact .inl ⟨rfl, attempt_of_taken (by rw [h_get]; rfl)⟩
  | none =>
    cases h_parse : Rule.parse k.limits q.text with
    | error cause => exact .inr ⟨rfl, .inl ⟨cause, rfl, attempt_of_unreadable h_get h_parse⟩⟩
    | ok r => exact .inr ⟨rfl, .inr ⟨r, rfl, attempt_of_readable h_get h_parse⟩⟩

/-- **A request that fails leaves the catalog as it is.** -/
theorem attempt_eq_of_error {e : CatalogError} (h : (k.attempt q).1 = .error e) :
    (k.attempt q).2 = k := by
  rcases attempt_cases k q with ⟨-, h_attempt⟩ | ⟨-, ⟨cause, -, h_attempt⟩ | ⟨r, -, h_attempt⟩⟩
  · rw [h_attempt]
  · rw [h_attempt]
  · rw [h_attempt] at h
    exact absurd h (by simp)

/-- Callers that stop at a refusal see the answer and the catalog of the request. -/
theorem insert_eq (k : Catalog) (q : Request) :
    k.insert q.id q.text = (k.attempt q).1.map fun _ => (k.attempt q).2 := by
  unfold insert
  rcases k.attempt q with ⟨_ | _, _⟩ <;> rfl

theorem limits_attempt (k : Catalog) (q : Request) : (k.attempt q).2.limits = k.limits := by
  rcases attempt_cases k q with ⟨-, h⟩ | ⟨-, ⟨cause, -, h⟩ | ⟨r, -, h⟩⟩ <;> rw [h]

/-- **A request fills a gap**, if it does anything. -/
theorem get?_attempt (k : Catalog) (q : Request) (id : String) :
    (k.attempt q).2.rules.get? id
      = (k.rules.get? id).or (if q.id = id then q.offer? k.limits else none) := by
  rcases attempt_cases k q with ⟨h_taken, h⟩ | ⟨h_free, ⟨cause, h_parse, h⟩ | ⟨r, h_parse, h⟩⟩
  · rw [h]
    split
    · -- the identifier is taken, and its rule stays
      next h_id =>
      obtain ⟨e, he⟩ := Option.isSome_iff_exists.mp (h_id ▸ h_taken)
      rw [he, Option.some_or]
    · rw [Option.or_none]
  · rw [h, Request.offer?, h_parse]
    simp [Except.toOption]
  · rw [h, Request.offer?, h_parse, Directory.get?_insert]
    split
    · -- it was free, so the rule of the request is found
      next h_id =>
      subst h_id
      rw [h_free]
      rfl
    · rw [Option.or_none]

/-- **Requests under different identifiers can be exchanged.** -/
theorem attempt_comm (k : Catalog) {q q' : Request} (h : q.id ≠ q'.id) :
    ((k.attempt q).2.attempt q').2 = ((k.attempt q').2.attempt q).2 := by
  refine ext_get? (fun id => ?_) (by simp only [limits_attempt])
  simp only [get?_attempt, limits_attempt, Option.or_assoc]
  congr 1
  -- the gap is filled by one of the two at most
  by_cases h_id : q.id = id
  · rw [if_neg (fun h_id' : q'.id = id => h (h_id.trans h_id'.symm)), Option.or_none, Option.none_or]
  · rw [if_neg h_id, Option.none_or, Option.or_none]

/-! ### Histories -/

theorem limits_after (k : Catalog) (qs : List Request) : (k.after qs).limits = k.limits := by
  induction qs generalizing k with
  | nil => rfl
  | cons q qs ih => exact (ih _).trans (limits_attempt k q)

/-- **The first request counts** whose text is a rule, unless there was an entry before. -/
theorem get?_after (k : Catalog) (qs : List Request) (id : String) :
    (k.after qs).rules.get? id
      = (k.rules.get? id).or
          (qs.findSome? fun q => if q.id = id then q.offer? k.limits else none) := by
  induction qs generalizing k with
  | nil => rw [List.findSome?_nil, Option.or_none]; rfl
  | cons q qs ih =>
    show ((k.attempt q).2.after qs).rules.get? id = _
    rw [ih, get?_attempt, limits_attempt, Option.or_assoc, List.findSome?_cons]
    congr 1
    cases if q.id = id then q.offer? k.limits else none with
    | none => rfl
    | some e => rfl

/-- **The order of requests under distinct identifiers does not matter.** -/
theorem after_perm (k : Catalog) {qs qs' : List Request} (h : qs.Perm qs')
    (h_distinct : (qs.map Request.id).Nodup) : k.after qs = k.after qs' := by
  refine h.foldl_eq' (fun q hq q' hq' k => ?_) k
  by_cases h_eq : q = q'
  · rw [h_eq]
  · exact attempt_comm k fun h_id => h_eq (List.inj_on_of_nodup_map h_distinct hq hq' h_id)

/-- What a catalog that was empty at first holds: the first request under the identifier whose text
is a rule. -/
theorem get?_after_empty_iff {limits : Limits} {qs : List Request} {id text : String} {r : Rule} :
    ((empty limits).after qs).rules.get? id = some ⟨text, r⟩ ↔
      ∃ front back, qs = front ++ ⟨id, text⟩ :: back ∧ Rule.parse limits text = .ok r ∧
        ∀ q ∈ front, q.id = id → ∀ s, Rule.parse limits q.text ≠ .ok s := by
  -- the first request that offers a rule under the identifier decides
  rw [get?_after, show (empty limits).rules.get? id = none from rfl, Option.none_or,
    List.findSome?_eq_some_iff]
  constructor
  · rintro ⟨front, q, back, rfl, h_first, h_front⟩
    obtain ⟨rfl, h_offer⟩ := Option.ite_none_right_eq_some.mp h_first
    obtain ⟨rfl, h_parse⟩ := Request.offer?_eq_some_iff.mp h_offer
    refine ⟨front, back, rfl, h_parse, fun q' hq' h_id => ?_⟩
    have h_none := h_front q' hq'
    rw [if_pos h_id] at h_none
    exact Request.offer?_eq_none_iff.mp h_none
  · rintro ⟨front, back, rfl, h_parse, h_front⟩
    refine ⟨front, ⟨id, text⟩, back, rfl, ?_, fun q hq => ?_⟩
    · rw [if_pos rfl]
      exact Request.offer?_eq_some_iff.mpr ⟨rfl, h_parse⟩
    · split
      · next h_id => exact Request.offer?_eq_none_iff.mpr (h_front q hq h_id)
      · rfl

theorem get?_eq_none_iff {id : String} : k.get? id = none ↔ k.rules.get? id = none := by
  rw [get?, Option.map_eq_none_iff]

/-- What a catalog says about an identifier is its entry. -/
theorem source?_get?_iff {id text : String} {r : Rule} :
    k.source? id = some text ∧ k.get? id = some r ↔ k.rules.get? id = some ⟨text, r⟩ := by
  rw [source?, get?]
  cases k.rules.get? id with
  | none => simp
  | some e =>
    obtain ⟨source, rule⟩ := e
    simp

theorem isSome_get? {id : String} : (k.get? id).isSome = (k.rules.get? id).isSome := by
  rw [get?, Option.isSome_map]

/-- **Inserting into a catalog.** After any history of requests to an empty catalog, an identifier
stands for the text of the first request under it that is a rule within the limits, and for the tree
of that rule. From then on it is taken, whatever the text of a later request; a request that fails
leaves the catalog as it is. Rules under distinct identifiers are all held, and their order is of no
account. -/
theorem first_request_counts (limits : Limits) :
    (∀ qs : List Request,
      let k := (empty limits).after qs
      k.limits = limits ∧
      (∀ id text r, k.source? id = some text ∧ k.get? id = some r ↔
        ∃ front back, qs = front ++ ⟨id, text⟩ :: back ∧ Rule.parse limits text = .ok r ∧
          ∀ q ∈ front, q.id = id → ∀ s, Rule.parse limits q.text ≠ .ok s) ∧
      (∀ q, (k.get? q.id).isSome → k.attempt q = (.error (.duplicateRule q.id), k)) ∧
      (∀ q cause, k.get? q.id = none → Rule.parse limits q.text = .error cause →
        k.attempt q = (.error (.unreadable q.id cause), k)) ∧
      ∀ q e, (k.attempt q).1 = .error e → (k.attempt q).2 = k) ∧
    ∀ qs qs' : List Request, qs.Perm qs' → (qs.map Request.id).Nodup →
      (∀ q ∈ qs, ∃ r, Rule.parse limits q.text = .ok r) →
      (empty limits).after qs = (empty limits).after qs' ∧
        ∀ q ∈ qs, ∃ r, Rule.parse limits q.text = .ok r ∧
          ((empty limits).after qs).source? q.id = some q.text ∧
          ((empty limits).after qs).get? q.id = some r := by
  refine ⟨fun qs => ?_, fun qs qs' h_perm h_distinct h_readable =>
    ⟨after_perm _ h_perm h_distinct, fun q hq => ?_⟩⟩
  · have h_limits : ((empty limits).after qs).limits = limits := limits_after _ qs
    refine ⟨h_limits, fun id text r => source?_get?_iff.trans get?_after_empty_iff,
      fun q h_taken => ?_, fun q cause h_free h_parse => ?_,
      fun q e h_error => attempt_eq_of_error h_error⟩
    · exact attempt_of_taken (isSome_get? ▸ h_taken)
    · exact attempt_of_unreadable (get?_eq_none_iff.mp h_free) (h_limits.symm ▸ h_parse)
  · obtain ⟨r, h_parse⟩ := h_readable q hq
    obtain ⟨front, back, rfl⟩ := List.append_of_mem hq
    refine ⟨r, h_parse, source?_get?_iff.mpr <|
      get?_after_empty_iff.mpr ⟨front, back, rfl, h_parse, ?_⟩⟩
    -- no other request has the identifier
    intro q' hq' h_id
    rw [List.map_append, List.map_cons, List.nodup_append] at h_distinct
    exact absurd h_id (h_distinct.2.2 _ (List.mem_map_of_mem hq') _ List.mem_cons_self)

/-- Without nesting: a text that is no rule does not take its identifier, nor does one in
parentheses; the first rule does, and a later text is refused, rule or not. -/
theorem first_request_counts_retried :
    let limits : Limits := ⟨0⟩
    let r : Rule := .test ⟨"x", .equal, .text "y"⟩
    let qs : List Request := [⟨"a", "x ="⟩, ⟨"a", "(x = y)"⟩, ⟨"a", "x = y"⟩, ⟨"a", "z = y"⟩]
    let k : Catalog := (empty limits).after qs
    (k.source? "a" = some "x = y" ∧ k.get? "a" = some r) ∧
      k.attempt ⟨"a", "x ="⟩ = (.error (.duplicateRule "a"), k) ∧
      (empty limits).after [⟨"b", "z = y"⟩, ⟨"a", "x = y"⟩]
        = (empty limits).after [⟨"a", "x = y"⟩, ⟨"b", "z = y"⟩] := by
  intro limits r qs k
  have h_rule : Rule.parse limits "x = y" = .ok r := by decide +kernel +zetaReduce
  have h_other : Rule.parse limits "z = y" = .ok (.test ⟨"z", .equal, .text "y"⟩) := by
    decide +kernel +zetaReduce
  have h_short : Rule.parse limits "x =" = .error (.malformedCondition "x =" (.fieldCount 2)) := by
    decide +kernel +zetaReduce
  have h_deep : Rule.parse limits "(x = y)" = .error (.nestingTooDeep 0) := by
    decide +kernel +zetaReduce
  obtain ⟨h_run, h_order⟩ := first_request_counts limits
  obtain ⟨-, h_held, h_taken, -⟩ := h_run qs
  have h_first : k.source? "a" = some "x = y" ∧ k.get? "a" = some r := by
    refine (h_held "a" "x = y" r).mpr ⟨qs.take 2, qs.drop 3, rfl, h_rule, fun q hq _ s => ?_⟩
    -- neither of the requests before it is for a rule
    rcases List.mem_cons.mp hq with rfl | hq
    · rw [h_short]
      simp
    · obtain rfl := List.mem_singleton.mp hq
      rw [h_deep]
      simp
  refine ⟨h_first, h_taken ⟨"a", "x ="⟩ (by rw [h_first.2]; rfl), ?_⟩
  refine (h_order _ _ (.swap _ _ _) (by decide) fun q hq => ?_).1
  rcases List.mem_cons.mp hq with rfl | hq
  · exact ⟨_, h_other⟩
  · obtain rfl := List.mem_singleton.mp hq
    exact ⟨_, h_rule⟩

end Eligibility.Catalog
