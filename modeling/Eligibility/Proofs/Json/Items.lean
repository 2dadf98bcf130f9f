import Eligibility.Proofs.Json.Number
import Eligibility.Proofs.Json.Text

/-!
# The items of arrays and objects

JSON allows blanks in front of every item and behind it (`Json.Padded`). The fold over the items of an
array or an object does not see them (`Json.view_readItems`), and where it finds an item or the
bracket, blanks are all that it has passed over (`Json.exists_of_firstItem`,
`Json.exists_of_nextItem`).

The outcome of the fold may be looked at in full, or only for what was found, whatever the fault was
otherwise. What is known of the items is known in the one way or in the other, so the fold is told for
any view of outcomes that goes along with sequences of steps (`Json.View`).
-/

namespace Eligibility.Json

/-! ### Blanks -/

/-- A run of blanks. -/
abbrev Blanks := { cs : List Char // ∀ c ∈ cs, isSpace c }

theorem skipSpace_append (gap : Blanks) (cs : List Char) :
    skipSpace (gap.1 ++ cs) = skipSpace cs := List.dropWhile_append_of_pos gap.2

theorem exists_blanks (cs : List Char) : ∃ gap : Blanks, cs = gap.1 ++ skipSpace cs :=
  ⟨⟨cs.takeWhile isSpace, List.all_eq_true.mp List.all_takeWhile⟩,
    List.takeWhile_append_dropWhile.symm⟩

theorem endsNumber_blanks {more : List Char} (h : EndsNumber more) (gap : Blanks) :
    EndsNumber (gap.1 ++ more) := by
  obtain ⟨gap, h_gap⟩ := gap
  cases gap with
  | nil => exact h
  | cons c gap =>
    intro d hd
    obtain rfl := Option.some.inj hd
    -- a blank is one of four characters, none of which goes on a number
    have h_space := h_gap c List.mem_cons_self
    simp only [isSpace, Bool.or_eq_true, beq_iff_eq] at h_space
    rcases h_space with ((rfl | rfl) | rfl) | rfl
    all_goals decide

def noBlanks : Blanks := ⟨[], fun _ h => absurd h List.not_mem_nil⟩

/-- A text with blanks around it. -/
structure Padded where
  before : Blanks
  core : List Char
  after : Blanks

namespace Padded

/-- The text with its blanks. -/
def chars (t : Padded) : List Char := t.before.1 ++ (t.core ++ t.after.1)

def bare (cs : List Char) : Padded := ⟨noBlanks, cs, noBlanks⟩

theorem chars_bare (cs : List Char) : (bare cs).chars = cs := by
  simp [chars, bare, noBlanks]

end Padded

/-! ### The steps of a fold -/

theorem endsNumber_comma (cs : List Char) : EndsNumber (',' :: cs) := by
  intro c hc
  obtain rfl := Option.some.inj hc
  decide

theorem endsNumber_brace (cs : List Char) : EndsNumber ('\x7d' :: cs) := by
  intro c hc
  obtain rfl := Option.some.inj hc
  decide

section Items

variable {σ ι : Type} {close : Char} {item : σ → Reader σ} {cs rest : List Char}

/-- The bracket ends the items. -/
theorem nextItem_close (h_space : isSpace close = false) (rest : List Char) :
    nextItem close (close :: rest) = .ok (.closed rest) := by
  rw [nextItem, skipSpace_cons h_space]
  exact if_pos rfl

theorem firstItem_close (h_space : isSpace close = false) (rest : List Char) :
    firstItem close (close :: rest) = .ok (.closed rest) := by
  rw [firstItem, skipSpace_cons h_space]
  exact congrArg Except.ok (if_pos rfl)

theorem intercalate_cons {text : ι → List Char} (i : ι) (items : List ι) :
    [','].intercalate ((i :: items).map text) = text i ++ items.flatMap fun i => ',' :: text i := by
  induction items generalizing i with
  | nil => simp
  | cons j items ih =>
    rw [List.map_cons, List.map_cons, List.intercalate_cons_cons, ← List.map_cons, ih,
      List.flatMap_cons, List.append_assoc, List.singleton_append, List.cons_append]

/-- How an item begins. -/
def StartsItem (close : Char) (cs : List Char) : Prop :=
  ∃ c tail, cs = c :: tail ∧ isSpace c = false ∧ c ≠ close

theorem firstItem_more {cs : List Char} (h : StartsItem close cs) :
    firstItem close cs = .ok (.more cs) := by
  obtain ⟨c, tail, rfl, h_space, h_close⟩ := h
  rw [firstItem, skipSpace_cons h_space]
  exact congrArg Except.ok (if_neg h_close)

theorem nextItem_more (h_comma : close ≠ ',') {cs : List Char} (h : StartsItem close cs) :
    nextItem close (',' :: cs) = .ok (.more cs) := by
  obtain ⟨c, tail, rfl, h_space, h_close⟩ := h
  -- a blank may follow the comma, but none is written
  rw [nextItem, skipSpace_cons (by decide)]
  simp only
  rw [if_neg h_comma.symm, skipSpace_cons h_space]
  simp only [if_true]
  exact if_neg h_close

theorem StartsItem.append {cs : List Char} (h : StartsItem close cs) (more : List Char) :
    StartsItem close (cs ++ more) := by
  obtain ⟨c, tail, rfl, h⟩ := h
  exact ⟨c, tail ++ more, rfl, h⟩

theorem itemsFrom_closed {state : σ} {cs rest : List Char}
    (h : nextItem close cs = .ok (.closed rest)) :
    itemsFrom close item state cs = .ok (state, rest) := by
  rw [itemsFrom.eq_def]
  split
  · next h_next =>
    rw [h] at h_next
    cases h_next
  · next h_next =>
    rw [h] at h_next
    cases h_next
    rfl
  · next h_next =>
    rw [h] at h_next
    cases h_next

theorem itemsFrom_more {state : σ} {cs rest : List Char}
    (h : nextItem close cs = .ok (.more rest)) :
    itemsFrom close item state cs
      = (item state).run rest >>= fun p => itemsFrom close item p.1 p.2 := by
  rw [itemsFrom.eq_def]
  split
  · next h_next =>
    rw [h] at h_next
    cases h_next
  · next h_next =>
    rw [h] at h_next
    cases h_next
  · next h_next =>
    rw [h] at h_next
    cases h_next
    split
    · -- a fault of the item is the fault of the whole
      next h_run => rw [h_run, error_bind]
    · next h_run => rw [h_run, ok_bind]

theorem readItems_closed {start : σ} {cs rest : List Char}
    (h : firstItem close cs = .ok (.closed rest)) :
    readItems close item start cs = .ok (start, rest) := by
  rw [readItems, h]

theorem readItems_more {start : σ} {cs rest : List Char}
    (h : firstItem close cs = .ok (.more rest)) :
    readItems close item start cs
      = (item start).run rest >>= fun p => itemsFrom close item p.1 p.2 := by
  rw [readItems, h]
  simp only
  split
  · next h_run => rw [h_run, error_bind]
  · next h_run => rw [h_run, ok_bind]

/-- Behind an item there is a comma or the bracket. -/
theorem endsNumber_items {text : ι → List Char} (h_close : ∀ rest, EndsNumber (close :: rest))
    (items : List ι) (rest : List Char) :
    EndsNumber ((items.flatMap fun i => ',' :: text i) ++ close :: rest) := by
  cases items with
  | nil => exact h_close rest
  | cons i items => exact endsNumber_comma _

/-! ### Blanks between the items -/

theorem firstItem_append (gap : Blanks) (cs : List Char) :
    firstItem close (gap.1 ++ cs) = firstItem close cs := by
  unfold firstItem
  rw [skipSpace_append]

theorem nextItem_append (gap : Blanks) (cs : List Char) :
    nextItem close (gap.1 ++ cs) = nextItem close cs := by
  unfold nextItem
  rw [skipSpace_append]

theorem nextItem_comma (h_comma : close ≠ ',') (gap : Blanks) (cs : List Char) :
    nextItem close (',' :: (gap.1 ++ cs)) = nextItem close (',' :: cs) := by
  rw [nextItem, nextItem, skipSpace_cons (by decide), skipSpace_cons (by decide)]
  simp only
  rw [if_neg h_comma.symm, if_neg h_comma.symm, skipSpace_append]

theorem exists_of_firstItem {next : Next} (h : firstItem close cs = .ok next) :
    ∃ gap : Blanks, (∃ rest, next = .closed rest ∧ cs = gap.1 ++ close :: rest) ∨
      ∃ rest, next = .more rest ∧ cs = gap.1 ++ rest := by
  obtain ⟨gap, h_cs⟩ := exists_blanks cs
  refine ⟨gap, ?_⟩
  unfold firstItem at h
  split at h
  · exact absurd h (by simp)
  next c tail h_skip =>
    rw [h_skip] at h_cs
    obtain rfl := Except.ok.inj h
    split
    · next h_close => exact .inl ⟨tail, rfl, h_close ▸ h_cs⟩
    · exact .inr ⟨c :: tail, rfl, h_cs⟩

theorem exists_of_nextItem {next : Next} (h : nextItem close cs = .ok next) :
    ∃ gap : Blanks, (∃ rest, next = .closed rest ∧ cs = gap.1 ++ close :: rest) ∨
      ∃ (before : Blanks) (rest : List Char), next = .more rest ∧
        cs = gap.1 ++ ',' :: (before.1 ++ rest) := by
  obtain ⟨gap, h_cs⟩ := exists_blanks cs
  refine ⟨gap, ?_⟩
  unfold nextItem at h
  split at h
  · exact absurd h (by simp)
  -- behind the blanks there is the closing character or a comma, and behind the comma an item
  next c tail h_skip =>
    rw [h_skip] at h_cs
    split at h
    · next h_close =>
      obtain rfl := Except.ok.inj h
      exact .inl ⟨tail, rfl, h_close ▸ h_cs⟩
    split at h
    · next h_comma =>
      obtain ⟨before, h_tail⟩ := exists_blanks tail
      split at h
      · exact absurd h (by simp)
      next d ds h_skip' =>
        split at h
        · exact absurd h (by simp)
        · obtain rfl := Except.ok.inj h
          rw [h_skip'] at h_tail
          exact .inr ⟨before, d :: ds, rfl, by rw [h_cs, h_comma, ← h_tail]⟩
    · exact absurd h (by simp)

/-! ### The fold -/

/-- A view of outcomes that goes along with sequences of steps. -/
structure View (m : Type → Type) [Monad m] where
  of {α : Type} : Except Fault α → m α
  of_ok {α : Type} (a : α) : of (.ok a) = pure a
  of_bind {α β : Type} (x : Except Fault α) (f : α → Except Fault β) :
    of (x >>= f) = of x >>= fun a => of (f a)

/-- The outcome itself. -/
def View.full : View (Except Fault) := ⟨id, fun _ => rfl, fun _ _ => rfl⟩

/-- What was found, if anything was. -/
def View.found : View Option := ⟨Except.toOption, fun _ => rfl, toOption_bind⟩

variable {m : Type → Type} [Monad m] [LawfulMonad m] {text : ι → Padded} {step : σ → ι → m σ}
  (h_space : isSpace close = false) (h_comma : close ≠ ',')
  (h_close : ∀ rest, EndsNumber (close :: rest)) (view : View m)

include h_space h_comma h_close

/-- Behind an item, the rest of the items is folded over. -/
theorem view_itemsFrom {items : List ι} (h_text : ∀ i ∈ items, StartsItem close (text i).core)
    (h_item : ∀ i ∈ items, ∀ state more, EndsNumber more →
      view.of ((item state).run ((text i).core ++ more)) = (·, more) <$> step state i)
    (state : σ) (gap : Blanks) (rest : List Char) :
    view.of (itemsFrom close item state
        (gap.1 ++ ((items.flatMap fun i => ',' :: (text i).chars) ++ close :: rest)))
      = (·, rest) <$> items.foldlM step state := by
  induction items generalizing state gap with
  | nil =>
    rw [List.flatMap_nil, List.nil_append,
      itemsFrom_closed ((nextItem_append gap _).trans (nextItem_close h_space rest)), view.of_ok,
      List.foldlM_nil, map_pure]
  | cons i items ih =>
    obtain ⟨h_start, h_text⟩ := List.forall_mem_cons.mp h_text
    obtain ⟨h_run, h_item⟩ := List.forall_mem_cons.mp h_item
    let behind := (items.flatMap fun i => ',' :: (text i).chars) ++ close :: rest
    have h_ends : EndsNumber ((text i).after.1 ++ behind) :=
      endsNumber_blanks (endsNumber_items h_close items rest) _
    have h_chars : ((i :: items).flatMap fun i => ',' :: (text i).chars) ++ close :: rest
        = ',' :: ((text i).before.1 ++ ((text i).core ++ ((text i).after.1 ++ behind))) := by
      simp [Padded.chars, behind]
    have h_next : nextItem close (gap.1 ++
        (((i :: items).flatMap fun i => ',' :: (text i).chars) ++ close :: rest))
        = .ok (.more ((text i).core ++ ((text i).after.1 ++ behind))) := by
      rw [h_chars, nextItem_append, nextItem_comma h_comma]
      exact nextItem_more h_comma (h_start.append _)
    -- the item is read up to the blanks behind it, and the others from there
    rw [itemsFrom_more h_next, view.of_bind, h_run state _ h_ends, bind_map_left, List.foldlM_cons,
      map_bind]
    exact bind_congr fun state' => ih h_text h_item state' (text i).after

/-- **The items are folded over**, and the blanks are passed over. -/
theorem view_readItems {items : List ι} (h_text : ∀ i ∈ items, StartsItem close (text i).core)
    (h_item : ∀ i ∈ items, ∀ state more, EndsNumber more →
      view.of ((item state).run ((text i).core ++ more)) = (·, more) <$> step state i)
    (start : σ) (gap : Blanks) (rest : List Char) :
    view.of (readItems close item start
        (gap.1 ++ ([','].intercalate (items.map fun i => (text i).chars) ++ close :: rest)))
      = (·, rest) <$> items.foldlM step start := by
  cases items with
  | nil =>
    rw [List.map_nil, List.intercalate_nil, List.nil_append,
      readItems_closed ((firstItem_append gap _).trans (firstItem_close h_space rest)), view.of_ok,
      List.foldlM_nil, map_pure]
  -- the first item is read in front of the loop, and the loop reads all that have a comma before
  -- them
  | cons i items =>
    obtain ⟨h_start, h_text⟩ := List.forall_mem_cons.mp h_text
    obtain ⟨h_run, h_item⟩ := List.forall_mem_cons.mp h_item
    let behind := (items.flatMap fun i => ',' :: (text i).chars) ++ close :: rest
    -- a comma or the closing character follows the first item, and either ends a number
    have h_ends : EndsNumber ((text i).after.1 ++ behind) :=
      endsNumber_blanks (endsNumber_items h_close items rest) _
    have h_chars : [','].intercalate ((i :: items).map fun i => (text i).chars) ++ close :: rest
        = (text i).before.1 ++ ((text i).core ++ ((text i).after.1 ++ behind)) := by
      rw [intercalate_cons]
      simp [Padded.chars, behind]
    have h_first : firstItem close (gap.1 ++
        ([','].intercalate ((i :: items).map fun i => (text i).chars) ++ close :: rest))
        = .ok (.more ((text i).core ++ ((text i).after.1 ++ behind))) := by
      rw [h_chars, firstItem_append, firstItem_append]
      exact firstItem_more (h_start.append _)
    rw [readItems_more h_first, view.of_bind, h_run start _ h_ends, bind_map_left,
      List.foldlM_cons, map_bind]
    exact bind_congr fun state =>
      view_itemsFrom h_space h_comma h_close view h_text h_item state (text i).after rest

end Items

end Eligibility.Json
