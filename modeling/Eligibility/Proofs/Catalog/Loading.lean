import Eligibility.Proofs.Catalog.Line
import Mathlib.Data.List.Induction
import Mathlib.Tactic.Push

/-!
# Loading a rule file

Lines are loaded from the top, and the first at fault ends it. `Loads` says of lines, without any
loading, that none is at fault: each is idle or asks for a rule that can be read, and no two ask for
the same identifier. `Offends` says what is wrong with a line below others that load. Exactly one of
them is the case (`loads_or_offends`): a line below others that load `Follows` them, or it offends.

Lines that load leave what their requests would leave, one after the other, in a new catalog
(`insertLines_of_loads`). So loading is a history of requests as in
`Eligibility.Proofs.Catalog.Insertion`, and what is known of these settles the rest. The identifiers
are distinct, so each of them stands for its one line (`Loads.get?_iff`), and the order of the lines
does not matter. Neither do idle lines and blanks around a line, of which the requests know nothing.
The main statement is `ofText_by_line`.
-/

namespace Eligibility.Catalog

/-! ### Lines that load -/

/-- **No line is at fault.** -/
structure Loads (ls : List (List Char)) : Prop where
  /-- A line that is not idle asks for a rule that can be read. -/
  readable : ∀ line ∈ ls, IsIdle line ∨ ∃ q r, Asks line q ∧ Rule.parse default q.text = .ok r
  /-- No identifier is asked for twice. -/
  distinct : ls.Pairwise fun line line' =>
    ∀ q, Asks line q → ∀ q', Asks line' q' → q.id ≠ q'.id

/-- A line that is not at fault below these. -/
inductive Follows (above : List (List Char)) (line : List Char) : Prop
  | idle (h : IsIdle line)
  | rule {q : Request} {r : Rule} (h : Asks line q)
      (h_free : ∀ line' ∈ above, ∀ q', Asks line' q' → q'.id ≠ q.id)
      (h_parse : Rule.parse default q.text = .ok r)

/-- **What is wrong with a line** below these. Lines count from one, idle ones included. -/
inductive Offends (above : List (List Char)) (line : List Char) : CatalogError → Prop
  /-- There is no colon, or nothing in front of it. -/
  | invalid (h_idle : ¬IsIdle line) (h : ∀ q, ¬Asks line q) :
      Offends above line (.invalidLine (above.length + 1))
  /-- The identifier is taken, whether the text can be read or not. -/
  | taken {line' : List Char} {q q' : Request} (h : Asks line q) (h_above : line' ∈ above)
      (h' : Asks line' q') (h_id : q'.id = q.id) : Offends above line (.duplicateRule q.id)
  | unreadable {q : Request} {cause : ParseError} (h : Asks line q)
      (h_free : ∀ line' ∈ above, ∀ q', Asks line' q' → q'.id ≠ q.id)
      (h_parse : Rule.parse default q.text = .error cause) :
      Offends above line (.unreadable q.id cause)

variable {ls ls' above : List (List Char)} {line : List Char}

theorem follows_or_offends (above : List (List Char)) (line : List Char) :
    Follows above line ∨ ∃ e, Offends above line e := by
  by_cases h_idle : IsIdle line
  · exact .inl (.idle h_idle)
  by_cases h_asks : ∃ q, Asks line q
  · obtain ⟨q, h⟩ := h_asks
    -- the identifier is looked up before the text is read
    by_cases h_free : ∀ line' ∈ above, ∀ q', Asks line' q' → q'.id ≠ q.id
    · cases h_parse : Rule.parse default q.text with
      | ok r => exact .inl (.rule h h_free h_parse)
      | error cause => exact .inr ⟨_, .unreadable h h_free h_parse⟩
    · push Not at h_free
      obtain ⟨line', h_above, q', h', h_id⟩ := h_free
      exact .inr ⟨_, .taken h h_above h' h_id⟩
  · exact .inr ⟨_, .invalid h_idle (not_exists.mp h_asks)⟩

theorem loads_nil : Loads [] := ⟨List.forall_mem_nil _, .nil⟩

theorem loads_concat_iff : Loads (ls ++ [line]) ↔ Loads ls ∧ Follows ls line := by
  constructor
  · rintro ⟨h_readable, h_distinct⟩
    -- the identifier of the last line differs from all above it
    obtain ⟨h_distinct, -, h_last⟩ := List.pairwise_append.mp h_distinct
    refine ⟨⟨fun l hl => h_readable l (List.mem_append_left _ hl), h_distinct⟩, ?_⟩
    rcases h_readable line (List.mem_append_right _ (List.mem_singleton_self line)) with
      h_idle | ⟨q, r, h, h_parse⟩
    · exact .idle h_idle
    · refine .rule h (fun line' h_above q' h' => ?_) h_parse
      exact h_last line' h_above line (List.mem_singleton_self line) q' h' q h
  · rintro ⟨⟨h_readable, h_distinct⟩, h_follows⟩
    constructor
    · intro l hl
      rcases List.mem_append.mp hl with hl | hl
      · exact h_readable l hl
      · obtain rfl := List.mem_singleton.mp hl
        cases h_follows with
        | idle h => exact .inl h
        | rule h _ h_parse => exact .inr ⟨_, _, h, h_parse⟩
    · -- a line asks for one thing only, so what its neighbours above ask for is not in its way
      refine List.pairwise_append.mpr ⟨h_distinct, List.pairwise_singleton _ _, ?_⟩
      intro line' h_above l hl q' h' q h
      obtain rfl := List.mem_singleton.mp hl
      cases h_follows with
      | idle h_idle => exact absurd h_idle h.1
      | rule h'' h_free _ =>
        obtain rfl := h.unique h''
        exact h_free line' h_above q' h'

/-- **Lines load, or there is a first one that offends.** -/
theorem loads_or_offends (ls : List (List Char)) :
    Loads ls ∨ ∃ front line back e, ls = front ++ line :: back ∧ Loads front ∧
      Offends front line e := by
  -- from the last line, as a line is judged by those above it
  induction ls using List.reverseRecOn with
  | nil => exact .inl loads_nil
  | append_singleton ls line ih =>
    rcases ih with h | ⟨front, line', back, e, rfl, h, h_offends⟩
    · rcases follows_or_offends ls line with h_follows | ⟨e, h_offends⟩
      · exact .inl (loads_concat_iff.mpr ⟨h, h_follows⟩)
      · exact .inr ⟨ls, line, [], e, rfl, h, h_offends⟩
    · exact .inr ⟨front, line', back ++ [line], e, by rw [List.append_assoc, List.cons_append], h,
        h_offends⟩

/-! ### The requests of lines -/

/-- What lines ask for, from the top. -/
def requests (ls : List (List Char)) : List Request := ls.filterMap request?

theorem mem_requests_iff {q : Request} : q ∈ requests ls ↔ ∃ line ∈ ls, Asks line q := by
  simp only [requests, List.mem_filterMap, request?_eq_some_iff]

theorem requests_concat (ls : List (List Char)) (line : List Char) :
    requests (ls ++ [line]) = requests ls ++ (request? line).toList := by
  rw [requests, List.filterMap_append, List.filterMap_cons, List.filterMap_nil]
  cases request? line with
  | none => rfl
  | some q => rfl

theorem request?_eq_none_of_isIdle (h : IsIdle line) : request? line = none := by
  rw [request?, if_pos (isSkipped_iff.mpr h)]

/-- The identifiers of distinct lines are distinct. -/
theorem nodup_ids_iff :
    ((requests ls).map Request.id).Nodup ↔
      ls.Pairwise fun line line' => ∀ q, Asks line q → ∀ q', Asks line' q' → q.id ≠ q'.id := by
  rw [List.Nodup, List.pairwise_map, requests, List.pairwise_filterMap]
  simp only [request?_eq_some_iff]

/-- **What the lines leave.** An identifier stands for the line that asks for it. -/
theorem Loads.get?_iff (h : Loads ls) {id source : String} {r : Rule} :
    ((empty default).after (requests ls)).rules.get? id = some ⟨source, r⟩ ↔
      Rule.parse default source = .ok r ∧ ∃ line ∈ ls, Asks line ⟨id, source⟩ := by
  rw [get?_after_empty_iff, ← mem_requests_iff]
  constructor
  · rintro ⟨front, back, h_requests, h_parse, -⟩
    refine ⟨h_parse, ?_⟩
    rw [h_requests]
    exact List.mem_append_right _ List.mem_cons_self
  · rintro ⟨h_parse, h_mem⟩
    obtain ⟨front, back, h_requests⟩ := List.append_of_mem h_mem
    refine ⟨front, back, h_requests, h_parse, fun q hq h_id => ?_⟩
    -- no other line asks for the identifier
    have h_distinct := nodup_ids_iff.mpr h.distinct
    rw [h_requests, List.map_append, List.map_cons, List.nodup_append] at h_distinct
    exact absurd h_id (h_distinct.2.2 _ (List.mem_map_of_mem hq) _ List.mem_cons_self)

/-- An identifier is free as long as no line has asked for it. -/
theorem Loads.get?_eq_none_iff (h : Loads ls) {id : String} :
    ((empty default).after (requests ls)).rules.get? id = none ↔
      ∀ line ∈ ls, ∀ q, Asks line q → q.id ≠ id := by
  constructor
  · rintro h_none line h_mem q h_asks rfl
    rcases h.readable line h_mem with h_idle | ⟨q', r, h_asks', h_parse⟩
    · exact absurd h_idle h_asks.1
    · -- what can be read is held
      obtain rfl := h_asks.unique h_asks'
      have h_some := h.get?_iff.mpr ⟨h_parse, line, h_mem, h_asks⟩
      exact absurd (h_none.symm.trans h_some) (by simp)
  · intro h_free
    cases h_get : ((empty default).after (requests ls)).rules.get? id with
    | none => rfl
    | some e =>
      obtain ⟨source, r⟩ := e
      obtain ⟨-, line, h_mem, h_asks⟩ := h.get?_iff.mp h_get
      exact absurd rfl (h_free line h_mem _ h_asks)

/-! ### The loop -/

theorem insertLines_append (k : Catalog) (number : Nat) (front back : List (List Char)) :
    k.insertLines number (front ++ back)
      = k.insertLines number front >>= fun k' => k'.insertLines (number + front.length) back := by
  induction front generalizing k number with
  | nil => rfl
  | cons line front ih =>
    rw [List.cons_append, insertLines, insertLines]
    cases k.insertLine number line with
    | error e => rfl
    | ok k' =>
      rw [ok_bind, ok_bind, ih, List.length_cons, Nat.add_assoc, Nat.add_comm 1]

theorem after_concat (k : Catalog) (qs : List Request) (q : Request) :
    k.after (qs ++ [q]) = ((k.after qs).attempt q).2 := by
  rw [after, List.foldl_append]
  rfl

/-- An insertion that succeeds is a request. -/
theorem insert_of_readable {k : Catalog} {q : Request} {r : Rule}
    (h_free : k.rules.get? q.id = none) (h : Rule.parse k.limits q.text = .ok r) :
    k.insert q.id q.text = .ok (k.attempt q).2 := by
  rw [insert_eq, attempt_of_readable h_free h]
  rfl

/-- A line that follows does what it asks for. -/
theorem insertLine_of_follows (h : Loads above) (h_follows : Follows above line) (number : Nat) :
    ((empty default).after (requests above)).insertLine number line
      = .ok ((empty default).after (requests (above ++ [line]))) := by
  rw [requests_concat]
  cases h_follows with
  | idle h_idle =>
    rw [insertLine_of_isIdle h_idle, request?_eq_none_of_isIdle h_idle, Option.toList_none,
      List.append_nil]
  | @rule q r h_asks h_free h_parse =>
    have h_limits : ((empty default).after (requests above)).limits = default := limits_after _ _
    have h_none := h.get?_eq_none_iff.mpr h_free
    -- the request is the next one of the history
    rw [request?_eq_some_iff.mpr h_asks, Option.toList_some, after_concat,
      insertLine_of_asks h_asks, insert_of_readable h_none (h_limits.symm ▸ h_parse)]

/-- **Lines that load** leave what their requests would leave. -/
theorem insertLines_of_loads (h : Loads ls) :
    insertLines default 1 ls = .ok ((empty default).after (requests ls)) := by
  -- on the last line, below the others
  induction ls using List.reverseRecOn with
  | nil => rfl
  | append_singleton ls line ih =>
    obtain ⟨h_above, h_follows⟩ := loads_concat_iff.mp h
    rw [insertLines_append, ih h_above, ok_bind, insertLines, insertLine_of_follows h_above h_follows,
      ok_bind, insertLines]

/-- A line that offends is the error. -/
theorem insertLine_of_offends {e : CatalogError} (h : Loads above) (h_offends : Offends above line e) :
    ((empty default).after (requests above)).insertLine (above.length + 1) line = .error e := by
  have h_limits : ((empty default).after (requests above)).limits = default := limits_after _ _
  cases h_offends with
  | invalid h_idle h_asks => exact insertLine_of_invalid h_idle h_asks
  -- the line above that asked for the identifier was loaded, so its rule is there
  | @taken line' q q' h_asks h_above h' h_id =>
    have h_some : (((empty default).after (requests above)).rules.get? q.id).isSome := by
      rw [Option.isSome_iff_ne_none]
      exact fun h_none => h.get?_eq_none_iff.mp h_none line' h_above q' h' h_id
    rw [insertLine_of_asks h_asks, insert_eq, attempt_of_taken h_some]
    rfl
  | @unreadable q cause h_asks h_free h_parse =>
    have h_none := h.get?_eq_none_iff.mpr h_free
    rw [insertLine_of_asks h_asks, insert_eq,
      attempt_of_unreadable h_none (h_limits.symm ▸ h_parse)]
    rfl

theorem insertLines_of_offends {back : List (List Char)} {e : CatalogError} (h : Loads above)
    (h_offends : Offends above line e) :
    insertLines default 1 (above ++ line :: back) = .error e := by
  rw [insertLines_append, insertLines_of_loads h, ok_bind, insertLines, Nat.add_comm,
    insertLine_of_offends h h_offends, error_bind]

/-! ### Other layouts -/

/-- **The same rules in another layout**: with the lines in another order, with more or less blanks
around them, and with more or fewer lines that are idle. -/
inductive Relaid : List (List Char) → List (List Char) → Prop
  | permuted {ls ls' : List (List Char)} (h : ls.Perm ls') : Relaid ls ls'
  | indented {line before after : List Char} (h_before : ∀ c ∈ before, isBlank c)
      (h_after : ∀ c ∈ after, isBlank c) (ls : List (List Char)) :
      Relaid (line :: ls) ((before ++ line ++ after) :: ls)
  | idle {line : List Char} (h : IsIdle line) (ls : List (List Char)) : Relaid ls (line :: ls)
  | symm {ls ls' : List (List Char)} (h : Relaid ls ls') : Relaid ls' ls
  | trans {ls ls' ls'' : List (List Char)} (h : Relaid ls ls') (h' : Relaid ls' ls'') :
      Relaid ls ls''

theorem trimBlanks_indented {before after : List Char} (h_before : ∀ c ∈ before, isBlank c)
    (h_after : ∀ c ∈ after, isBlank c) (line : List Char) :
    trimBlanks (before ++ line ++ after) = trimBlanks line := by
  rw [trimBlanks_append_right h_after, trimBlanks_append_left h_before]

/-- Another layout asks for the same, in some order. -/
theorem Relaid.requests_perm (h : Relaid ls ls') : (requests ls).Perm (requests ls') := by
  induction h with
  | permuted h => exact h.filterMap _
  | @indented line before after h_before h_after ls =>
    have h_line : request? line = request? (before ++ line ++ after) := by
      rw [request?, request?, trimBlanks_indented h_before h_after]
    rw [requests, requests, List.filterMap_cons, List.filterMap_cons, h_line]
  | idle h_idle ls =>
    rw [requests, requests, List.filterMap_cons, request?_eq_none_of_isIdle h_idle]
  | symm _ ih => exact ih.symm
  | trans _ _ ih ih' => exact ih.trans ih'

/-- In another layout the same lines can be read. -/
theorem Relaid.readable_iff (h : Relaid ls ls') :
    (∀ line ∈ ls, IsIdle line ∨ ∃ q r, Asks line q ∧ Rule.parse default q.text = .ok r) ↔
      ∀ line ∈ ls', IsIdle line ∨ ∃ q r, Asks line q ∧ Rule.parse default q.text = .ok r := by
  induction h with
  | permuted h => simp only [h.mem_iff]
  | @indented line before after h_before h_after ls =>
    have h_trim := trimBlanks_indented h_before h_after line
    simp only [List.forall_mem_cons, isIdle_congr h_trim, asks_congr h_trim]
  | @idle line h_idle ls => simp only [List.forall_mem_cons, h_idle, true_or, true_and]
  | symm _ ih => exact ih.symm
  | trans _ _ ih ih' => exact ih.trans ih'

theorem Relaid.loads (h : Relaid ls ls') (h_loads : Loads ls) : Loads ls' := by
  refine ⟨h.readable_iff.mp h_loads.readable, nodup_ids_iff.mp ?_⟩
  exact (h.requests_perm.map Request.id).nodup_iff.mp (nodup_ids_iff.mpr h_loads.distinct)

/-- **The layout does not matter.** -/
theorem Relaid.insertLines_eq (h : Relaid ls ls') (h_loads : Loads ls) :
    insertLines default 1 ls = insertLines default 1 ls' := by
  rw [insertLines_of_loads h_loads, insertLines_of_loads (h.loads h_loads),
    after_perm _ h.requests_perm (nodup_ids_iff.mpr h_loads.distinct)]

/-! ### Rule files -/

theorem exists_insertLines_iff : (∃ k, insertLines default 1 ls = .ok k) ↔ Loads ls := by
  constructor
  · rintro ⟨k, h_ok⟩
    rcases loads_or_offends ls with h | ⟨front, line, back, e, rfl, h, h_offends⟩
    · exact h
    · exact absurd (h_ok.symm.trans (insertLines_of_offends h h_offends)) (by simp)
  · exact fun h => ⟨_, insertLines_of_loads h⟩

/-- **Loading a rule file.** It succeeds exactly if no line of the text is at fault, and then the
catalog holds, under each identifier, the text and the tree of the line that asks for it. Otherwise
the first line at fault tells the error. A text that loads can be laid out in another way, with other
ends of lines, without any difference to the catalog. -/
theorem ofText_by_line (text : String) :
    (∃ ls, Lined text.toList ls) ∧
    ∀ ls, Lined text.toList ls →
      ((∃ k, ofText text = .ok k) ↔ Loads ls) ∧
      (∀ k, ofText text = .ok k → k.limits = default ∧ ∀ id source r,
        k.source? id = some source ∧ k.get? id = some r ↔
          Rule.parse default source = .ok r ∧ ∃ line ∈ ls, Asks line ⟨id, source⟩) ∧
      (∀ e, ofText text = .error e ↔
        ∃ front line back, ls = front ++ line :: back ∧ Loads front ∧ Offends front line e) ∧
      ∀ (text' : String) (ls' : List (List Char)) (k : Catalog), Lined text'.toList ls' →
        Relaid ls ls' → ofText text = .ok k → ofText text' = .ok k := by
  refine ⟨exists_lined _, fun ls h_lined => ?_⟩
  rw [ofText_of_lined h_lined]
  refine ⟨exists_insertLines_iff, fun k h_ok => ?_, fun e => ⟨fun h_error => ?_, ?_⟩,
    fun text' ls' k h_lined' h_relaid h_ok => ?_⟩
  · -- the lines load, so the catalog is the one that their requests lead to
    have h := exists_insertLines_iff.mp ⟨k, h_ok⟩
    obtain rfl := Except.ok.inj ((insertLines_of_loads h).symm.trans h_ok)
    exact ⟨limits_after _ _, fun id source r => source?_get?_iff.trans h.get?_iff⟩
  · -- either all lines load, or there is a first one that does not, and its fault is the answer
    rcases loads_or_offends ls with h | ⟨front, line, back, e', rfl, h, h_offends⟩
    · exact absurd (h_error.symm.trans (insertLines_of_loads h)) (by simp)
    · obtain rfl := Except.error.inj (h_error.symm.trans (insertLines_of_offends h h_offends))
      exact ⟨front, line, back, rfl, h, h_offends⟩
  · rintro ⟨front, line, back, rfl, h, h_offends⟩
    exact insertLines_of_offends h h_offends
  · have h := exists_insertLines_iff.mp ⟨k, h_ok⟩
    rw [ofText_of_lined h_lined', ← h_relaid.insertLines_eq h, h_ok]

/-- A file with a comment, a blank line, both ends of lines and a colon inside a quoted literal; the
same rules in the other order, one of them indented; and a third line without a colon. -/
theorem ofText_by_line_swapped :
    let r : Rule := .test ⟨"x", .equal, .text "a:b"⟩
    let k : Catalog := (empty default).after [⟨"r", "x = 'a:b'"⟩, ⟨"s", "y = z"⟩]
    ofText "# c\r\n\nr: x = 'a:b'\r\ns: y = z" = .ok k ∧
      (k.source? "r" = some "x = 'a:b'" ∧ k.get? "r" = some r) ∧
      ofText "s: y = z\r\n\t r: x = 'a:b'\n" = .ok k ∧
      ofText "# c\n\nr = x\n" = .error (.invalidLine 3) := by
  intro r k
  have h_parse : Rule.parse default "x = 'a:b'" = .ok r := by decide +kernel +zetaReduce
  have h_other : Rule.parse default "y = z" = .ok (.test ⟨"y", .equal, .text "z"⟩) := by
    decide +kernel
  have h_lined : Lined "# c\r\n\nr: x = 'a:b'\r\ns: y = z".toList
      ["# c".toList, [], "r: x = 'a:b'".toList, "s: y = z".toList] :=
    @Lined.cons "# c".toList _ _ .returnFeed (by decide) <| @Lined.cons [] _ _ .feed (by decide) <|
      @Lined.cons "r: x = 'a:b'".toList _ _ .returnFeed (by decide) <| .last (by decide) (by decide)
  have h_lined' : Lined "s: y = z\r\n\t r: x = 'a:b'\n".toList
      ["s: y = z".toList, "\t r: x = 'a:b'".toList] :=
    @Lined.cons "s: y = z".toList _ _ .returnFeed (by decide) <|
      @Lined.cons "\t r: x = 'a:b'".toList _ _ .feed (by decide) .nil
  have h_comment : IsIdle "# c".toList := .inr (by decide)
  have h_blank : IsIdle [] := .inl rfl
  -- the comment and the blank line go, then one line is indented, and then the two trade places
  have h_relaid : Relaid ["# c".toList, [], "r: x = 'a:b'".toList, "s: y = z".toList]
      ["s: y = z".toList, "\t r: x = 'a:b'".toList] := by
    refine .trans (.symm (.idle h_comment _)) (.trans (.symm (.idle h_blank _)) ?_)
    have h_before : ∀ c ∈ "\t ".toList, isBlank c := List.all_eq_true.mp (by decide)
    have h_indented := @Relaid.indented "r: x = 'a:b'".toList "\t ".toList [] h_before
      (List.forall_mem_nil _) ["s: y = z".toList]
    exact .trans h_indented (.permuted (.swap _ _ _))
  -- two identifiers, and both texts are rules
  have h_loads : Loads ["# c".toList, [], "r: x = 'a:b'".toList, "s: y = z".toList] := by
    refine ⟨?_, nodup_ids_iff.mp (by decide)⟩
    simp only [List.forall_mem_cons]
    exact ⟨.inl h_comment, .inl h_blank, .inr ⟨_, _, request?_eq_some_iff.mp rfl, h_parse⟩,
      .inr ⟨_, _, request?_eq_some_iff.mp rfl, h_other⟩, List.forall_mem_nil _⟩
  have h_ok : ofText "# c\r\n\nr: x = 'a:b'\r\ns: y = z" = .ok k := by
    rw [ofText_of_lined h_lined, insertLines_of_loads h_loads]
    rfl
  obtain ⟨-, h_held, -, h_layout⟩ := (ofText_by_line _).2 _ h_lined
  refine ⟨h_ok, ((h_held k h_ok).2 "r" "x = 'a:b'" r).mpr ⟨h_parse, "r: x = 'a:b'".toList, by decide,
    request?_eq_some_iff.mp (by decide)⟩, h_layout _ _ k h_lined' h_relaid h_ok, ?_⟩
  -- a line without a colon asks for nothing, and the number in the error counts the idle lines too
  have h_faulty : Lined "# c\n\nr = x\n".toList ["# c".toList, [], "r = x".toList] :=
    @Lined.cons "# c".toList _ _ .feed (by decide) <| @Lined.cons [] _ _ .feed (by decide) <|
      @Lined.cons "r = x".toList _ _ .feed (by decide) .nil
  have h_above : Loads ["# c".toList, []] := by
    have h_first : Loads ["# c".toList] := loads_concat_iff.mpr ⟨loads_nil, .idle h_comment⟩
    exact loads_concat_iff.mpr ⟨h_first, .idle h_blank⟩
  have h_none (q : Request) : ¬Asks "r = x".toList q := by
    rw [← request?_eq_some_iff, show request? "r = x".toList = none by decide]
    simp
  refine (((ofText_by_line _).2 _ h_faulty).2.2.1 _).mpr
    ⟨["# c".toList, []], "r = x".toList, [], rfl, h_above, .invalid ?_ h_none⟩
  rw [← isSkipped_iff]
  decide

end Eligibility.Catalog
