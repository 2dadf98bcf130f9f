import Eligibility.Proofs.Json.Items

/-!
# Reading items and entries

What a reader makes of a text does not depend on what follows, as long as no number goes on there.
`Reader.Gives` says so, and says what it makes of the text, if it makes anything of it. From what
the readers of items give, it follows what the fold over the items of an array or an object gives
(`Json.toOption_readItems`). An object is written as a list of members, and it is read as the entries
that are read from the members one by one (`Json.gives_object`).
-/

namespace Eligibility.Json

/-- In front of anything that no number goes on with, the reader takes this text and gives `a`; if
`a` is none, it takes nothing. -/
def Reader.Gives {α : Type} (reader : Reader α) (cs : List Char) (a : Option α) : Prop :=
  ∀ more, EndsNumber more → (reader.run (cs ++ more)).toOption = a.map (·, more)

/-- What is done with what a reader gives. -/
theorem Reader.Gives.andThen {α β : Type} {reader : Reader α} {cs : List Char} {a : Option α}
    (h : reader.Gives cs a) {more : List Char} (h_more : EndsNumber more)
    (f : α × List Char → Except Fault β) :
    (reader.run (cs ++ more) >>= f).toOption = a.bind fun a => (f (a, more)).toOption := by
  rw [toOption_bind, h more h_more, Option.bind_map]
  rfl

theorem Reader.Gives.map {α β : Type} {reader : Reader α} {cs : List Char} {a : Option α}
    (h : reader.Gives cs a) (f : α → β) : (reader.map f).Gives cs (a.map f) := by
  intro more h_more
  -- mapping changes neither what is left of the text nor the fault
  have h_run : (reader.map f).run (cs ++ more)
      = reader.run (cs ++ more) >>= fun p => .ok (f p.1, p.2) := by
    simp only [Reader.map, Reader.filterMap]
    cases reader.run (cs ++ more) with
    | error fault => rfl
    | ok p => rfl
  rw [h_run, h.andThen h_more, Option.map_map]
  cases a with
  | none => rfl
  | some a => rfl

section FilterMap

variable {α β : Type} {reader : Reader α} {f : α → Option β} {cs rest : List Char} {a : α} {b : β}

theorem run_filterMap (h : reader.run cs = .ok (a, rest)) (h_some : f a = some b) :
    (reader.filterMap f).run cs = .ok (b, rest) := by
  simp only [Reader.filterMap, h, h_some]

/-- A document of the wrong shape is a fault of its own kind. -/
theorem run_filterMap_none (h : reader.run cs = .ok (a, rest)) (h_none : f a = none) :
    (reader.filterMap f).run cs = .error .mismatched := by
  simp only [Reader.filterMap, h, h_none]

theorem exists_of_filterMap (h : (reader.filterMap f).run cs = .ok (b, rest)) :
    ∃ a, reader.run cs = .ok (a, rest) ∧ f a = some b := by
  simp only [Reader.filterMap] at h
  split at h
  · exact absurd h (by simp)
  · next h_run =>
    split at h
    · exact absurd h (by simp)
    · next h_some =>
      obtain ⟨rfl, rfl⟩ := Prod.mk.inj (Except.ok.inj h)
      exact ⟨_, h_run, h_some⟩

end FilterMap

section Items

variable {σ ι : Type} {close : Char} {item : σ → Reader σ} {text : ι → List Char}
  {step : σ → ι → Option σ}

/-- **The items are folded over**, each of them as its reader gives it. -/
theorem toOption_readItems (h_space : isSpace close = false) (h_comma : close ≠ ',')
    (h_close : ∀ rest, EndsNumber (close :: rest)) {items : List ι}
    (h_text : ∀ i ∈ items, StartsItem close (text i))
    (h_item : ∀ i ∈ items, ∀ state, (item state).Gives (text i) (step state i)) (start : σ)
    (rest : List Char) :
    (readItems close item start ([','].intercalate (items.map text) ++ close :: rest)).toOption
      = (items.foldlM step start).map (·, rest) := by
  have h_start : ∀ i ∈ items, StartsItem close (Padded.bare (text i)).core := h_text
  have h_view := view_readItems h_space h_comma h_close .found h_start h_item start noBlanks rest
  simp only [Padded.chars_bare] at h_view
  exact h_view

end Items

/-! ### Objects -/

/-- A member of an object: a key and the text of its value. -/
def writeMember (key : String) (cs : List Char) : List Char := writeString key ++ ':' :: cs

/-- An object without blanks. -/
def writeObject (members : List (String × List Char)) : List Char :=
  '\x7b' :: ([','].intercalate (members.map fun m => writeMember m.1 m.2) ++ ['\x7d'])

theorem writeString_append (s : String) (more : List Char) :
    writeString s ++ more = '"' :: (s.toList.flatMap writeChar ++ '"' :: more) := by
  simp [writeString]

/-- A key is read up to its value, and judged. Blanks may stand in front of the colon. -/
theorem readKey_literal (admits : String → Bool) {key : String} {literal : List Char}
    (h : Spells literal key.toList) (gap : Blanks) (cs : List Char) :
    readKey admits ('"' :: (literal ++ '"' :: (gap.1 ++ ':' :: cs)))
      = if admits key then .ok (key, cs) else .error .mismatched := by
  have h_colon : expect ':' (skipSpace (gap.1 ++ ':' :: cs)) = .ok cs := by
    rw [skipSpace_append, skipSpace_cons (by decide), expect_self]
  rw [readKey, expect_self, ok_bind, readString_append h, ok_bind]
  simp only
  -- the literal spells the key, and the key alone is judged
  cases admits key with
  | true =>
    rw [h_colon]
    rfl
  | false => rfl

theorem readKey_writeMember (admits : String → Bool) (key : String) (cs : List Char) :
    readKey admits (writeMember key cs)
      = if admits key then .ok (key, cs) else .error .mismatched := by
  rw [writeMember, writeString_append]
  exact readKey_literal admits (spells_flatMap_writeChar key.toList) noBlanks cs

/-- An entry is read with the reader for its key, if the key is admitted. -/
theorem gives_entry {σ : Type} {entries : Entries σ} {state : σ} {key : String} {cs : List Char}
    {a : Option σ} (h : (entries.entry state key).Gives cs a) :
    (entries.reader state).Gives (writeMember key cs)
      (if entries.admits state key then a else none) := by
  intro more h_more
  have h_append : writeMember key cs ++ more = writeMember key (cs ++ more) := by
    simp [writeMember]
  have h_run : (entries.reader state).run (writeMember key (cs ++ more))
      = readKey (entries.admits state) (writeMember key (cs ++ more)) >>= fun p =>
        (entries.entry state p.1).run p.2 := by
    simp only [Entries.reader]
    cases readKey (entries.admits state) (writeMember key (cs ++ more)) with
    | error fault => rfl
    | ok p => rfl
  -- whether the key is admitted is asked before the value is read
  rw [h_append, h_run, readKey_writeMember]
  cases entries.admits state key with
  | true => exact h more h_more
  | false => rfl

/-- An entry of an object that is written, and what reading it does to the state. -/
structure EntryStep {σ : Type} (entries : Entries σ) where
  key : String
  text : List Char
  step : σ → Option σ
  gives : ∀ state, (entries.reader state).Gives (writeMember key text) (step state)

/-- What is written. -/
def EntryStep.written {σ : Type} {entries : Entries σ} (s : EntryStep entries) :
    String × List Char := (s.key, s.text)

/-- **An object is folded over**, entry by entry. -/
theorem toOption_readObject {σ : Type} {entries : Entries σ} (steps : List (EntryStep entries))
    (start : σ) (more : List Char) :
    ∃ cs, writeObject (steps.map EntryStep.written) ++ more = '\x7b' :: cs ∧
      (readObject entries start cs).toOption
        = (steps.foldlM (fun state (s : EntryStep entries) => s.step state) start).map
          (·, more) := by
  -- every entry starts with the quote of its key, which neither closes the object nor is blank
  have h_start : ∀ s ∈ steps, StartsItem '\x7d' (writeMember s.key s.text) := fun s _ =>
    ⟨'"', _, rfl, by decide, by decide⟩
  have h_read := toOption_readItems (by decide) (by decide) endsNumber_brace h_start
    (fun s _ => s.gives) start more
  refine ⟨_, ?_, h_read⟩
  rw [writeObject, List.map_map, List.cons_append, List.append_assoc, List.singleton_append]
  rfl

/-! ### Documents -/

/-- A member of an object that is written, and what its value is read as inside of the object. -/
structure Member (inner : Reader Json) where
  key : String
  text : List Char
  document : Option Json
  gives : inner.Gives text document

namespace Member

variable {inner : Reader Json}

/-- What is written. -/
def written (m : Member inner) : String × List Char := (m.key, m.text)

/-- What is read. -/
def found? (m : Member inner) : Option (String × Json) := m.document.map (m.key, ·)

/-- The member among the entries that are collected. -/
def collected (m : Member inner) : EntryStep (collectEntries inner) where
  key := m.key
  text := m.text
  step fields := m.found?.map (· :: fields)
  gives fields := by
    have h_entry := m.gives.map fun x => (m.key, x) :: fields
    rw [found?, Option.map_map]
    exact gives_entry h_entry

end Member

/-- What is collected latest first is what comes of the items in their order. -/
theorem foldlM_collect {σ ι β : Type} {step : σ → ι → Option σ} (state : List β → σ)
    (f : ι → Option β)
    (h : ∀ found i, step (state found) i = (f i).map fun b => state (b :: found)) (items : List ι)
    (start : List β) :
    items.foldlM step (state start) = (items.mapM f).map fun bs => state (bs.reverse ++ start) := by
  -- the found ones are in reverse, for each is put in front
  induction items generalizing start with
  | nil => rfl
  | cons i items ih =>
    rw [List.foldlM_cons, List.mapM_cons, h]
    cases f i with
    | none => rfl
    | some b =>
      simp only [Option.map_some, Option.bind_eq_bind, Option.bind_some, ih]
      cases items.mapM f with
      | none => rfl
      | some bs => simp

/-- **An object is read as the entries that its members are read as.** -/
theorem gives_object {levels : ℕ} (members : List (Member (value levels))) :
    (value (levels + 1)).Gives (writeObject (members.map Member.written))
      ((members.mapM Member.found?).map .obj) := by
  intro more h_more
  obtain ⟨cs, h_text, h_read⟩ := toOption_readObject (members.map Member.collected) [] more
  -- entries are collected latest first and turned around at the end
  have h_fold : members.foldlM (fun fields m => m.found?.map (· :: fields)) []
      = (members.mapM Member.found?).map fun fields => fields.reverse ++ [] :=
    foldlM_collect id Member.found? (fun _ _ => rfl) members []
  have h_run : (value (levels + 1)).run (writeObject (members.map Member.written) ++ more)
      = readObject (collectEntries (value levels)) [] cs >>= fun p =>
        .ok (.obj p.1.reverse, p.2) := by
    rw [List.map_map, show EntryStep.written ∘ Member.collected = Member.written from rfl] at h_text
    rw [h_text]
    rfl
  rw [List.foldlM_map] at h_read
  rw [h_run, toOption_bind, h_read.trans (congrArg _ h_fold), Option.map_map,
    Option.map_map, Option.bind_map]
  cases members.mapM Member.found? with
  | none => rfl
  | some fields => simp [Except.toOption]

/-- Where nothing may nest any more there is no object. -/
theorem gives_object_zero (members : List (String × List Char)) :
    (value 0).Gives (writeObject members) none :=
  fun _ _ => rfl

theorem readDocument_append (inner : Option (Reader Json)) (gap : Blanks) (cs : List Char) :
    readDocument inner (gap.1 ++ cs) = readDocument inner cs := by
  unfold readDocument
  rw [skipSpace_append]

theorem readScalar_string (s : String) (more : List Char) :
    readScalar '"' (s.toList.flatMap writeChar ++ '"' :: more) = .ok (.str s, more) := by
  rw [readScalar, if_neg (by decide), if_neg (by decide), if_neg (by decide), if_pos rfl,
    readString_writeString]

theorem readDocument_string (inner : Option (Reader Json)) (s : String) (more : List Char) :
    readDocument inner (writeString s ++ more) = .ok (.str s, more) := by
  rw [writeString_append, ← readScalar_string]
  rfl

end Eligibility.Json
