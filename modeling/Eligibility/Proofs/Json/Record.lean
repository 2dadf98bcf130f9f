import Eligibility.Json.Record
import Eligibility.Proofs.Json.Value

/-!
# Records through JSON and back

A record is read from the text of an object whose members are keys with values
(`Record.Member`), with blanks wherever JSON allows them. These are all the texts that are read as a
record, and of several members with one key the last one holds.

Members and written entries are read by one fold (`Record.ofJson_object`). It is said of results with
their faults, since it matters which fault a record meets that was written with a double that is not
finite: such a double is written as `null`, which is JSON, but no value. In front of it everything is
read, so that is the fault (`Record.foldlM_enter`).

Reading a double is quick rather than exact. That it is read back is therefore asked of the finite
doubles of the record at hand.

The main statement is `Record.ofJson_by_members`.
-/

namespace Eligibility

open Json

/-! ### Values in a record -/

/-- Is it not a double beyond the finite ones? -/
def Value.isFinite : Value → Bool
  | float x => x.isFinite
  | _ => true

theorem Value.HasText.isFinite {v : Value} {cs : List Char} (h : v.HasText cs) : v.isFinite := by
  cases h with
  | int => rfl
  | float _ _ h_finite _ => exact h_finite
  | text => rfl

namespace Record

/-- The doubles of a record. -/
def floats (record : Record) : List Binary64 := record.entries.filterMap (·.2.float?)

theorem mem_floats_iff {record : Record} {x : Binary64} :
    x ∈ record.floats ↔ ∃ e ∈ record.entries, e.2 = .float x := by
  rw [floats, List.mem_filterMap]
  refine exists_congr fun e => and_congr_right fun _ => ?_
  cases e.2 with
  | float y => simp [Value.float?]
  | int n => simp [Value.float?]
  | text s => simp [Value.float?]

theorem forall_isFinite_iff {record : Record} :
    (∀ e ∈ record.entries, e.2.isFinite) ↔ ∀ x ∈ record.floats, x.isFinite := by
  constructor
  · intro h x hx
    obtain ⟨e, he, h_value⟩ := mem_floats_iff.mp hx
    have h_finite := h e he
    rwa [h_value] at h_finite
  · intro h e he
    cases h_value : e.2 with
    | int n => rfl
    | float x => exact h x (mem_floats_iff.mpr ⟨e, he, h_value⟩)
    | text s => rfl

/-- Takes an entry in. A double that is not finite has no text that is a value. -/
def enter (record : Record) (e : String × Value) : Except Fault Record :=
  if e.2.isFinite then .ok (record.insert e.1 e.2) else .error .mismatched

/-- **Entries are taken in** unless one of them has a double that is not finite. -/
theorem foldlM_enter (es : List (String × Value)) (record : Record) :
    es.foldlM enter record
      = if ∀ e ∈ es, e.2.isFinite then .ok (es.foldl (fun r e => r.insert e.1 e.2) record)
        else .error .mismatched := by
  induction es generalizing record with
  | nil => rfl
  | cons e es ih =>
    rw [List.foldlM_cons, enter]
    -- the first value that cannot be entered ends the fold, wherever it stands
    by_cases h : e.2.isFinite
    · have h_iff : (∀ e' ∈ e :: es, e'.2.isFinite) ↔ ∀ e' ∈ es, e'.2.isFinite := by
        rw [List.forall_mem_cons]
        exact and_iff_right h
      rw [if_pos h, ok_bind, ih, List.foldl_cons]
      exact (if_congr h_iff rfl rfl).symm
    · rw [if_neg h, error_bind, if_neg fun h_all => h (h_all e List.mem_cons_self)]

/-! ### Members -/

/-- A member in the text of an object: a key in one of its literals and a value in one of its texts,
with blanks in all four places. -/
structure Member where
  key : String
  value : Value
  literal : List Char
  text : List Char
  spells : Spells literal key.toList
  hasText : value.HasText text
  before : Blanks
  between : Blanks
  ahead : Blanks
  after : Blanks

namespace Member

def entry (m : Member) : String × Value := (m.key, m.value)

/-- From the quote of the key to the end of the value. -/
def core (m : Member) : List Char :=
  '"' :: (m.literal ++ '"' :: (m.between.1 ++ ':' :: (m.ahead.1 ++ m.text)))

def padded (m : Member) : Padded := ⟨m.before, m.core, m.after⟩

end Member

/-- The text of an object with these members. -/
def IsObject (members : List Member) (cs : List Char) : Prop :=
  ∃ front gap back : Blanks, cs = front.1 ++ '\x7b' ::
    (gap.1 ++ ([','].intercalate (members.map fun m => m.padded.chars) ++ '\x7d' :: back.1))

/-- The value of the last member with this key. -/
def lastValue? (members : List Member) (key : String) : Option Value :=
  (members.reverse.find? fun m => m.key = key).map (·.value)

theorem get?_ofList_members (members : List Member) (key : String) :
    (Directory.ofList (members.map Member.entry)).get? key = lastValue? members key := by
  rw [Directory.get?_ofList, ← List.map_reverse, List.find?_map, Option.map_map]
  rfl

/-! ### Reading members -/

section Reading

variable {levels : ℕ} {record : Record} {cs rest : List Char}

/-- A member is read as what is made of its value. -/
theorem run_entry (record : Record) (inner : Reader Json) {key : String} {literal : List Char}
    (h : Spells literal key.toList) (gap : Blanks) (cs : List Char) :
    ((entryReader inner).reader record).run ('"' :: (literal ++ '"' :: (gap.1 ++ ':' :: cs)))
      = (inner.filterMap fun x => (Value.ofJson? x).map fun v => record.insert key v).run cs := by
  have h_key : readKey ((entryReader inner).admits record)
      ('"' :: (literal ++ '"' :: (gap.1 ++ ':' :: cs))) = .ok (key, cs) :=
    readKey_literal _ h gap cs
  simp only [Entries.reader, h_key]
  rfl

/-- A member is taken in. -/
theorem run_member (m : Member) (record : Record) (more : List Char) (h_more : EndsNumber more) :
    ((entryReader (Json.value levels)).reader record).run (m.core ++ more)
      = (enter record m.entry).map (·, more) := by
  obtain ⟨inner, h_inner⟩ := Value.exists_inner levels
  -- the text of the member is read as its value, whatever stands behind it
  obtain ⟨y, h_read, h_value⟩ := m.hasText.readDocument inner h_more
  have h_core : m.core ++ more
      = '"' :: (m.literal ++ '"' :: (m.between.1 ++ ':' :: (m.ahead.1 ++ (m.text ++ more)))) := by
    simp [Member.core]
  have h_run : (Json.value levels).run (m.ahead.1 ++ (m.text ++ more)) = .ok (y, more) := by
    rw [h_inner, readDocument_append, h_read]
  rw [h_core, run_entry record _ m.spells, run_filterMap h_run (by rw [h_value]; rfl), enter,
    if_pos (show m.entry.2.isFinite from m.hasText.isFinite)]
  rfl

/-- **Nothing but members is read.** -/
theorem exists_member {r : Record}
    (h : ((entryReader (Json.value levels)).reader record).run cs = .ok (r, rest)) :
    ∃ m : Member, cs = m.core ++ rest ∧ r = record.insert m.key m.value := by
  simp only [Entries.reader] at h
  split at h
  · exact absurd h (by simp)
  next key cs₁ h_key =>
    -- the key with its colon
    obtain ⟨cs₂, h_quote, h_key⟩ := exists_of_bind_eq_ok h_key
    obtain ⟨⟨key', cs₃⟩, h_string, h_key⟩ := exists_of_bind_eq_ok h_key
    obtain ⟨cs₄, h_colon, h_key⟩ := exists_of_bind_eq_ok h_key
    obtain ⟨rfl, rfl⟩ := Prod.mk.inj (Except.ok.inj h_key)
    obtain ⟨literal, h_spells, h_cs₂⟩ := exists_of_readString h_string
    obtain ⟨between, h_cs₃⟩ := exists_blanks cs₃
    -- the value
    obtain ⟨y, h_read, h_some⟩ := exists_of_filterMap h
    obtain ⟨v, h_value, rfl⟩ := Option.map_eq_some_iff.mp h_some
    obtain ⟨inner, h_inner⟩ := Value.exists_inner levels
    rw [h_inner] at h_read
    obtain ⟨ahead, text, h_cs₄, h_text⟩ := Value.exists_hasText h_read h_value
    refine ⟨⟨key', v, literal, text, h_spells, h_text, noBlanks, between, ahead, noBlanks⟩, ?_, rfl⟩
    rw [eq_cons_of_expect h_quote, h_cs₂, h_cs₃, eq_cons_of_expect h_colon, h_cs₄]
    simp [Member.core]

/-- What follows a member is more members. -/
theorem exists_members_of_itemsFrom {r : Record}
    (h : itemsFrom '\x7d' (entryReader (Json.value levels)).reader record cs = .ok (r, rest)) :
    ∃ (gap : Blanks) (members : List Member),
      cs = gap.1 ++ ((members.flatMap fun m => ',' :: m.padded.chars) ++ '\x7d' :: rest) ∧
      r = (members.map Member.entry).foldl (fun r e => r.insert e.1 e.2) record := by
  fun_induction itemsFrom '\x7d' (entryReader (Json.value levels)).reader record cs with
  | case1 => exact absurd h (by simp)
  | case2 record cs rest' h_next =>
    obtain ⟨rfl, rfl⟩ := Prod.mk.inj (Except.ok.inj h)
    obtain ⟨gap, ⟨_, ⟨⟩, rfl⟩ | ⟨_, _, ⟨⟩, -⟩⟩ := exists_of_nextItem h_next
    exact ⟨gap, [], rfl, rfl⟩
  | case3 => exact absurd h (by simp)
  | case4 record cs rest' h_next record₁ rest₁ h_run ih =>
    obtain ⟨gap, ⟨_, ⟨⟩, -⟩ | ⟨before, _, ⟨⟩, rfl⟩⟩ := exists_of_nextItem h_next
    obtain ⟨m, rfl, rfl⟩ := exists_member h_run
    obtain ⟨after, members, rfl, rfl⟩ := ih h
    -- the blanks behind the member are found with what follows it
    refine ⟨gap, { m with before, after } :: members, ?_, rfl⟩
    simp [Member.padded, Padded.chars, Member.core]

theorem exists_members_of_readObject {r : Record}
    (h : readObject (entryReader (Json.value levels)) record cs = .ok (r, rest)) :
    ∃ (gap : Blanks) (members : List Member),
      cs = gap.1 ++ ([','].intercalate (members.map fun m => m.padded.chars) ++ '\x7d' :: rest) ∧
      r = (members.map Member.entry).foldl (fun r e => r.insert e.1 e.2) record := by
  unfold readObject readItems at h
  split at h
  · exact absurd h (by simp)
  · next h_first =>
    obtain ⟨rfl, rfl⟩ := Prod.mk.inj (Except.ok.inj h)
    obtain ⟨gap, ⟨_, ⟨⟩, rfl⟩ | ⟨_, ⟨⟩, -⟩⟩ := exists_of_firstItem h_first
    exact ⟨gap, [], by simp, rfl⟩
  · next h_first =>
    obtain ⟨gap, ⟨_, ⟨⟩, -⟩ | ⟨_, ⟨⟩, rfl⟩⟩ := exists_of_firstItem h_first
    split at h
    · exact absurd h (by simp)
    · next h_run =>
      obtain ⟨m, rfl, rfl⟩ := exists_member h_run
      obtain ⟨after, members, rfl, rfl⟩ := exists_members_of_itemsFrom h
      -- the blanks before the first member have been counted as the gap already
      refine ⟨gap, { m with before := noBlanks, after } :: members, ?_, rfl⟩
      rw [intercalate_cons]
      simp [Member.padded, Padded.chars, Member.core, noBlanks]

end Reading

/-! ### Whole texts -/

/-- The first brace opens the record. -/
theorem readJson_append (front : Blanks) (cs : List Char) :
    readJson (front.1 ++ '\x7b' :: cs)
      = readObject (entryReader (Json.value (maxNesting - 1))) ∅ cs := by
  rw [readJson, skipSpace_append, skipSpace_cons (by decide)]
  exact if_pos rfl

theorem exists_of_readJson {cs rest : List Char} {record : Record}
    (h : readJson cs = .ok (record, rest)) :
    ∃ (front : Blanks) (tail : List Char), cs = front.1 ++ '\x7b' :: tail ∧
      readObject (entryReader (Json.value (maxNesting - 1))) ∅ tail = .ok (record, rest) := by
  obtain ⟨front, h_cs⟩ := exists_blanks cs
  unfold readJson at h
  split at h
  · exact absurd h (by simp)
  -- of all that may start a document only a brace is let through
  next c tail h_skip =>
    split at h
    · next h_brace => exact ⟨front, tail, by rwa [h_skip, h_brace] at h_cs, h⟩
    split at h
    · exact absurd h (by simp)
    · obtain ⟨_, -, h⟩ := exists_of_bind_eq_ok h
      exact absurd h (by simp)

theorem atEnd_blanks (gap : Blanks) : atEnd gap.1 = .ok () := by
  rw [atEnd, if_pos]
  simpa [skipSpace] using skipSpace_append gap []

theorem exists_of_atEnd {cs : List Char} (h : atEnd cs = .ok ()) : ∃ gap : Blanks, cs = gap.1 := by
  obtain ⟨gap, h_cs⟩ := exists_blanks cs
  unfold atEnd at h
  split at h
  · next h_skip => exact ⟨gap, by rwa [h_skip, List.append_nil] at h_cs⟩
  · exact absurd h (by simp)

/-- An object is read as the fold over what is in it. -/
theorem ofJson_object {ι : Type} {items : List ι} {text : ι → Padded}
    {step : Record → ι → Except Fault Record} {cs : String}
    (h_text : ∀ i ∈ items, StartsItem '\x7d' (text i).core)
    (h_item : ∀ i ∈ items, ∀ state more, EndsNumber more →
      ((entryReader (Json.value (maxNesting - 1))).reader state).run ((text i).core ++ more)
        = (step state i).map (·, more))
    {front gap back : Blanks}
    (h : cs.toList = front.1 ++ '\x7b' ::
      (gap.1 ++ ([','].intercalate (items.map fun i => (text i).chars) ++ '\x7d' :: back.1))) :
    ofJson cs = items.foldlM step ∅ := by
  have h_read : readJson cs.toList = (items.foldlM step ∅).map (·, back.1) := by
    rw [h, readJson_append]
    exact view_readItems (by decide) (by decide) endsNumber_brace .full h_text h_item ∅ gap back.1
  rw [ofJson, h_read]
  -- behind the object there are blanks only, so nothing is left over
  cases items.foldlM step ∅ with
  | error fault => rfl
  | ok record =>
    rw [map_ok, ok_bind]
    simp only
    rw [atEnd_blanks]
    rfl

/-- **Objects with members are read.** -/
theorem ofJson_of_isObject {members : List Member} {text : String}
    (h : IsObject members text.toList) :
    ofJson text = .ok (Directory.ofList (members.map Member.entry)) := by
  obtain ⟨front, gap, back, h_text⟩ := h
  have h_fold := foldlM_enter (members.map Member.entry) ∅
  have h_finite : ∀ e ∈ members.map Member.entry, e.2.isFinite := by
    intro e he
    obtain ⟨m, -, rfl⟩ := List.mem_map.mp he
    exact m.hasText.isFinite
  rw [if_pos h_finite, List.foldlM_map] at h_fold
  have h_start : ∀ m ∈ members, StartsItem '\x7d' m.padded.core := fun m _ =>
    ⟨'"', _, rfl, by decide, by decide⟩
  rw [ofJson_object h_start (fun m _ => run_member m) h_text]
  exact h_fold

/-- **Nothing else is read** as a record. -/
theorem exists_members {text : String} {record : Record} (h : ofJson text = .ok record) :
    ∃ members, IsObject members text.toList ∧
      record = Directory.ofList (members.map Member.entry) := by
  obtain ⟨⟨r, rest⟩, h_read, h⟩ := exists_of_bind_eq_ok h
  obtain ⟨_, h_end, h⟩ := exists_of_bind_eq_ok h
  obtain rfl := Except.ok.inj h
  obtain ⟨front, tail, h_text, h_object⟩ := exists_of_readJson h_read
  obtain ⟨gap, members, rfl, rfl⟩ := exists_members_of_readObject h_object
  obtain ⟨back, rfl⟩ := exists_of_atEnd h_end
  exact ⟨members, ⟨front, gap, back, h_text⟩, rfl⟩

/-! ### Written records -/

/-- An entry as it is written is a member without blanks. -/
def writtenMember (e : String × Value) (h : e.2.HasText e.2.writeJson) : Member where
  key := e.1
  value := e.2
  literal := e.1.toList.flatMap writeChar
  text := e.2.writeJson
  spells := spells_flatMap_writeChar e.1.toList
  hasText := h
  before := noBlanks
  between := noBlanks
  ahead := noBlanks
  after := noBlanks

theorem writeEntry_eq (e : String × Value) :
    writeEntry e = '"' :: (e.1.toList.flatMap writeChar ++ '"' :: ':' :: e.2.writeJson) :=
  writeString_append e.1 (':' :: e.2.writeJson)

/-- **A written entry is taken in**, if its value is read back whenever it is finite. -/
theorem run_writeEntry {e : String × Value} (h : e.2.isFinite → e.2.reread? = some e.2)
    {levels : ℕ} (record : Record) (more : List Char) (h_more : EndsNumber more) :
    ((entryReader (Json.value levels)).reader record).run (writeEntry e ++ more)
      = (enter record e).map (·, more) := by
  by_cases h_finite : e.2.isFinite
  · -- an entry that is read back is written as some member that stands for it
    have h_core : (writtenMember e (Value.hasText_writeJson (h h_finite))).core = writeEntry e := by
      rw [writeEntry_eq]
      rfl
    rw [← h_core]
    exact run_member _ record more h_more
  · -- what is written for a double that is not finite is a word
    have h_null : e.2.writeJson = "null".toList := by
      cases h_value : e.2 with
      | int n => exact absurd (by rw [h_value]; rfl) h_finite
      | float x =>
        rw [h_value] at h_finite
        exact if_neg h_finite
      | text s => exact absurd (by rw [h_value]; rfl) h_finite
    obtain ⟨inner, h_inner⟩ := Value.exists_inner levels
    have h_run : (Json.value levels).run ("null".toList ++ more) = .ok (.null, more) := by
      rw [h_inner]
      rfl
    have h_entry := run_entry record (Json.value levels)
      (spells_flatMap_writeChar e.1.toList) noBlanks ("null".toList ++ more)
    rw [run_filterMap_none h_run rfl] at h_entry
    rw [writeEntry_eq, h_null, enter, if_neg h_finite, map_error, ← h_entry]
    simp [noBlanks]

/-- Written entries are read one after the other. -/
theorem ofJson_writeEntries_eq {record : Record} {es : List (String × Value)}
    (h_mem : ∀ e ∈ es, e ∈ record.entries)
    (h : ∀ x ∈ record.floats, x.isFinite → x.ReadsBack) :
    ofJson (writeEntries es) = es.foldlM enter ∅ := by
  -- only the doubles need the assumption, and they are those of the record
  have h_value : ∀ e ∈ es, e.2.isFinite → e.2.reread? = some e.2 := by
    intro e he h_finite
    cases h_value : e.2 with
    | int n => exact Value.reread?_int n
    | float x =>
      rw [h_value] at h_finite
      exact h x (mem_floats_iff.mpr ⟨e, h_mem e he, h_value⟩) h_finite
    | text s => exact Value.reread?_text s
  have h_start : ∀ e ∈ es,
      StartsItem '\x7d' (Padded.bare (writeEntry e)).core := fun e _ =>
    ⟨'"', _, writeEntry_eq e, by decide, by decide⟩
  have h_text : (writeEntries es).toList = noBlanks.1 ++ '\x7b' :: (noBlanks.1 ++
      ([','].intercalate (es.map fun e => (Padded.bare (writeEntry e)).chars)
        ++ '\x7d' :: noBlanks.1)) := by
    simp only [writeEntries, String.toList_ofList, Padded.chars_bare]
    rfl
  exact ofJson_object h_start (fun e he => run_writeEntry (h_value e he)) h_text

/-- **Written and read again**, a record is the same or not read at all. The order in which its
entries are written is of no account. -/
theorem ofJson_writeEntries_of_floats {record : Record} {es : List (String × Value)}
    (h_perm : es.Perm record.entries) (h : ∀ x ∈ record.floats, x.isFinite → x.ReadsBack) :
    ofJson (writeEntries es)
      = if ∀ x ∈ record.floats, x.isFinite then .ok record else .error .mismatched := by
  have h_finite : (∀ e ∈ es, e.2.isFinite) ↔ ∀ x ∈ record.floats, x.isFinite := by
    simp only [h_perm.mem_iff, forall_isFinite_iff]
  rw [ofJson_writeEntries_eq (fun e he => h_perm.mem_iff.mp he) h, foldlM_enter]
  refine if_congr h_finite ?_ rfl
  exact congrArg Except.ok (Directory.ofList_of_perm h_perm)

/-- What was read from a text has finite doubles only. -/
theorem isFinite_of_ofJson {text : String} {record : Record} (h : ofJson text = .ok record) :
    ∀ x ∈ record.floats, x.isFinite := by
  obtain ⟨members, -, rfl⟩ := exists_members h
  refine forall_isFinite_iff.mp fun e he => ?_
  -- the entry is the last of its key
  have h_get := Directory.mem_entries_iff.mp (show (e.1, e.2) ∈ _ from he)
  rw [get?_ofList_members, lastValue?] at h_get
  obtain ⟨m, -, h_value⟩ := Option.map_eq_some_iff.mp h_get
  rw [← h_value]
  exact m.hasText.isFinite

/-- **Records through JSON and back.** If the text of every finite double of a record is read as that
double, then what is written for the record, with its entries in any order, is read as the record
exactly if its doubles are finite, and otherwise it is JSON of the wrong shape. The texts that are
read as a record are those of objects with members, of which the last of a key holds; a member is an
integer if it is written as one, and any other number is a finite double. And whatever was read is
read again from what is written for it, in any order. `toJson` writes in the order of the names.

Nothing is said of records with a finite double that is not read back. There are such doubles among
those whose digits make a number from `2 ^ 53` on, or whose exponent is beyond 22, and
`9007199254740991.0` is one. All others are covered (`Binary64.readsBack_of_short`). -/
theorem ofJson_by_members :
    (∀ (record : Record) (es : List (String × Value)), es.Perm record.entries →
      (∀ x ∈ record.floats, x.isFinite → x.ReadsBack) →
      (ofJson (writeEntries es) = .ok record ↔ ∀ x ∈ record.floats, x.isFinite) ∧
      ((∃ x ∈ record.floats, ¬x.isFinite) → ofJson (writeEntries es) = .error .mismatched)) ∧
    (∀ (text : String) (record : Record), ofJson text = .ok record ↔
      ∃ members, IsObject members text.toList ∧
        ∀ key, record.get? key = lastValue? members key) ∧
    ∀ (text : String) (record : Record), ofJson text = .ok record →
      (∀ x ∈ record.floats, x.isFinite) ∧
      ((∀ x ∈ record.floats, x.isFinite → x.ReadsBack) →
        ∀ es : List (String × Value), es.Perm record.entries →
          ofJson (writeEntries es) = .ok record) := by
  refine ⟨fun record es h_perm h => ⟨?_, ?_⟩, fun text record => ⟨?_, ?_⟩,
    fun text record h_read => ?_⟩
  · rw [ofJson_writeEntries_of_floats h_perm h]
    split
    · next h_finite => exact iff_of_true rfl h_finite
    · next h_finite => exact iff_of_false (by simp) h_finite
  · rintro ⟨x, hx, h_infinite⟩
    rw [ofJson_writeEntries_of_floats h_perm h, if_neg fun h_finite => h_infinite (h_finite x hx)]
  · intro h_read
    -- the text is an object, and the last member of each key counts
    obtain ⟨members, h_object, rfl⟩ := exists_members h_read
    exact ⟨members, h_object, get?_ofList_members members⟩
  · rintro ⟨members, h_object, h_last⟩
    rw [ofJson_of_isObject h_object]
    exact congrArg Except.ok (Directory.ext_get? fun key => by
      rw [get?_ofList_members, h_last])
  · -- no infinite double is ever read, so the first part applies to what is written
    have h_finite := isFinite_of_ofJson h_read
    refine ⟨h_finite, fun h es h_perm => ?_⟩
    rw [ofJson_writeEntries_of_floats h_perm h, if_pos h_finite]

/-- A name that is there twice, with blanks and with a letter told by its number: the later member
holds, and minus zero is a double. What was read is written and read again, in the order of the names
or against it. A record with an infinite double is written as well, but it is not read from what is
written. -/
theorem ofJson_by_members_repeated :
    let text := " \x7b \"a\" : 1 ,\"a\":-0, \"\\u0041\":0.1\x7d"
    let tenth : Binary64 := ⟨0x3FB999999999999A⟩
    let minusZero : Binary64 := ⟨0x8000000000000000⟩
    let infinity : Binary64 := ⟨0x7FF0000000000000⟩
    let record : Record := Directory.ofList [("a", .float minusZero), ("A", .float tenth)]
    let infinite : Record := Directory.ofList [("a", .int 1), ("b", .float infinity)]
    (∀ x ∈ record.floats, x.isFinite → x.ReadsBack) ∧ ofJson text = .ok record ∧
      ofJson record.toJson = .ok record ∧
      ofJson (writeEntries record.entries.reverse) = .ok record ∧
      (∀ x ∈ infinite.floats, x.isFinite → x.ReadsBack) ∧
      ¬ofJson infinite.toJson = .ok infinite ∧ (∃ x ∈ infinite.floats, ¬x.isFinite) ∧
      ofJson infinite.toJson = .error .mismatched := by
  intro text tenth minusZero infinity record infinite
  obtain ⟨h_write, h_members, h_again⟩ := ofJson_by_members
  have h_tenth : tenth.ReadsBack := by
    have h_text : Decimal.read? (writeFloat tenth) = some ⟨false, 1, -1⟩ := by decide +kernel
    exact Binary64.readsBack_of_short (by decide) h_text (by decide) (by decide)
  have h_minusZero : minusZero.ReadsBack := by
    have h_text : Decimal.read? (writeFloat minusZero) = some ⟨true, 0, -1⟩ := by decide +kernel
    exact Binary64.readsBack_of_short (by decide) h_text (by decide) (by decide)
  have h_floats : record.floats = [tenth, minusZero] := by decide +kernel
  have h_infinite : infinite.floats = [infinity] := by decide +kernel
  have h_back : ∀ x ∈ record.floats, x.isFinite → x.ReadsBack := by
    rw [h_floats]
    intro x hx _
    rcases List.mem_pair.mp hx with rfl | rfl
    · exact h_tenth
    · exact h_minusZero
  have h_back' : ∀ x ∈ infinite.floats, x.isFinite → x.ReadsBack := by
    rw [h_infinite]
    intro x hx h_finite
    obtain rfl := List.mem_singleton.mp hx
    exact absurd h_finite (by decide)
  have h_beyond : ∃ x ∈ infinite.floats, ¬x.isFinite :=
    ⟨infinity, h_infinite ▸ List.mem_singleton_self _, by decide⟩
  -- the three members of the text
  have h_one : (Value.int 1).HasText ['1'] := by
    have h := Value.hasText_integer 1
    rwa [show Layout.integer (1 : Int64).toInt = ['1'] by decide +kernel] at h
  have h_zero : (Value.float minusZero).HasText ['-', '0'] := by
    let p : NumberParts :=
      ⟨['0'], none, none, by decide, List.forall_mem_singleton.mpr rfl, .inl rfl, by simp⟩
    have h_number : (p.number true).toOption.bind Value.ofJson? = some (.float minusZero) := by
      decide +kernel
    exact .float p.isText_text (fun h => h.ne_zero rfl rfl) (by decide) h_number
  have h_text : (Value.float tenth).HasText ['0', '.', '1'] := by
    have h := Value.hasText_writeFloat h_tenth
    rwa [show writeFloat tenth = ['0', '.', '1'] by decide +kernel] at h
  have h_plain : Spells ['a'] "a".toList := .plain (by decide) (by decide) (by decide) .nil
  have h_numbered : Spells ['\\', 'u', '0', '0', '4', '1'] "A".toList :=
    have h_value : hexValue? ['0', '0', '4', '1'] = some 0x41 := by decide
    .escape (.numbered h_value (by decide) (by decide)) .nil
  let blank : Blanks := ⟨[' '], List.forall_mem_singleton.mpr rfl⟩
  let first : Member := ⟨"a", .int 1, ['a'], ['1'], h_plain, h_one, blank, blank, blank, blank⟩
  let second : Member :=
    ⟨"a", _, ['a'], _, h_plain, h_zero, noBlanks, noBlanks, noBlanks, noBlanks⟩
  let third : Member := ⟨"A", _, _, _, h_numbered, h_text, blank, noBlanks, noBlanks, noBlanks⟩
  have h_chars : text.toList = [' ', '\x7b', ' ', '"', 'a', '"', ' ', ':', ' ', '1', ' ', ',', '"',
      'a', '"', ':', '-', '0', ',', ' ', '"', '\\', 'u', '0', '0', '4', '1', '"', ':', '0', '.', '1',
      '\x7d'] := by decide +kernel
  have h_object : IsObject [first, second, third] text.toList :=
    ⟨blank, noBlanks, noBlanks, h_chars⟩
  have h_read : ofJson text = .ok record := by
    refine (h_members text record).mpr ⟨_, h_object, fun key => ?_⟩
    rw [Directory.get?_ofList, lastValue?]
    by_cases h : "A" = key
    · subst h
      rfl
    · by_cases h' : "a" = key
      · subst h'
        rfl
      · simp [first, second, third, h, h']
  have h_written := (h_again text record h_read).2 h_back
  obtain ⟨h_iff, h_refused⟩ := h_write infinite infinite.entries (.refl _) h_back'
  refine ⟨h_back, h_read, h_written _ (.refl _), h_written _ (List.reverse_perm _), h_back',
    fun h => ?_, h_beyond, h_refused h_beyond⟩
  obtain ⟨x, hx, h_not⟩ := h_beyond
  exact h_not (h_iff.mp h x hx)

end Record

end Eligibility
