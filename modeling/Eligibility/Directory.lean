/-!
# Directories

Finite maps from names to things, as lists sorted by name. Names are ordered by code point, which
is also the order of their UTF-8 bytes. A map has one such list, so two directories with the same
entries are equal (`Directory.ext_get?`).
-/

namespace Eligibility

/-- A finite map from names, sorted by name. -/
structure Directory (α : Type) where
  entries : List (String × α)
  sorted : entries.Pairwise (·.1 < ·.1)

namespace Directory

variable {α : Type}

instance : EmptyCollection (Directory α) := ⟨⟨[], .nil⟩⟩

instance : Inhabited (Directory α) := ⟨∅⟩

def size (d : Directory α) : Nat := d.entries.length

def isEmpty (d : Directory α) : Bool := d.entries.isEmpty

def names (d : Directory α) : List String := d.entries.map (·.1)

/-- The entry of a name in a list of entries. -/
def find? (name : String) : List (String × α) → Option α
  | [] => none
  | (n, a) :: es => if n = name then some a else find? name es

def get? (d : Directory α) (name : String) : Option α := find? name d.entries

/-- Puts an entry in its place, over an earlier one of the same name. -/
def place (name : String) (a : α) : List (String × α) → List (String × α)
  | [] => [(name, a)]
  | (n, b) :: es =>
    if name < n then (name, a) :: (n, b) :: es
    else if name = n then (name, a) :: es
    else (n, b) :: place name a es

theorem mem_place {name : String} {a : α} {e : String × α} {es : List (String × α)}
    (h : e ∈ place name a es) : e = (name, a) ∨ e ∈ es := by
  induction es with
  | nil => simpa [place] using h
  | cons hd tl ih =>
    obtain ⟨n, b⟩ := hd
    rw [place] at h
    split at h
    · simpa using h
    · split at h
      · rcases List.mem_cons.mp h with h | h
        · exact .inl h
        · exact .inr (List.mem_cons_of_mem _ h)
      · rcases List.mem_cons.mp h with h | h
        · exact .inr (h ▸ List.mem_cons_self)
        · exact (ih h).imp id (List.mem_cons_of_mem _)

theorem sorted_place (name : String) (a : α) {es : List (String × α)}
    (h : es.Pairwise (·.1 < ·.1)) : (place name a es).Pairwise (·.1 < ·.1) := by
  induction es with
  | nil => simp [place]
  | cons hd tl ih =>
    obtain ⟨n, b⟩ := hd
    obtain ⟨hhd, htl⟩ := List.pairwise_cons.mp h
    rw [place]
    split
    · next hlt =>
      refine List.pairwise_cons.mpr ⟨fun e he => ?_, h⟩
      rcases List.mem_cons.mp he with rfl | he
      · exact hlt
      · exact String.lt_trans hlt (hhd e he)
    · split
      · next heq => exact List.pairwise_cons.mpr ⟨fun e he => heq ▸ hhd e he, htl⟩
      · next hnlt hne =>
        refine List.pairwise_cons.mpr ⟨fun e he => ?_, ih htl⟩
        rcases mem_place he with rfl | he
        · exact Std.lt_of_le_of_ne (Std.not_lt.mp hnlt) (Ne.symm hne)
        · exact hhd e he

/-- Adds an entry, over an earlier one of the same name. -/
def insert (d : Directory α) (name : String) (a : α) : Directory α :=
  ⟨place name a d.entries, sorted_place name a d.sorted⟩

/-- The directory of a list of entries, of which a later one overrides an earlier one. -/
def ofList (es : List (String × α)) : Directory α :=
  es.foldl (fun d e => d.insert e.1 e.2) ∅

/-! ### Look-up -/

theorem find?_place (name other : String) (a : α) (es : List (String × α)) :
    find? other (place name a es) = if name = other then some a else find? other es := by
  induction es with
  | nil => simp [place, find?]
  | cons hd tl ih =>
    obtain ⟨n, b⟩ := hd
    rw [place]
    split
    · simp [find?]
    · split
      · next heq =>
        subst heq
        by_cases h : name = other <;> simp [find?, h]
      · next hne =>
        by_cases h : n = other
        · have hno : name ≠ other := fun hn => hne (hn.trans h.symm)
          simp [find?, h, hno]
        · simp [find?, h, ih]

/-- An added entry is found, and nothing else changes. -/
theorem get?_insert (d : Directory α) (name other : String) (a : α) :
    (d.insert name a).get? other = if name = other then some a else d.get? other :=
  find?_place name other a d.entries

@[simp] theorem get?_empty (name : String) : (∅ : Directory α).get? name = none := rfl

/-- **The last entry of a name is found.** -/
theorem get?_foldl_insert (es : List (String × α)) (d : Directory α) (name : String) :
    (es.foldl (fun d e => d.insert e.1 e.2) d).get? name
      = ((es.reverse.find? fun e => e.1 = name).map (·.2)).or (d.get? name) := by
  induction es generalizing d with
  | nil => rfl
  | cons e es ih =>
    rw [List.foldl_cons, ih, get?_insert, List.reverse_cons, List.find?_append, Option.map_or,
      Option.or_assoc]
    -- the first entry counts if none behind it has the name
    congr 1
    by_cases h : e.1 = name <;> simp [h]

theorem get?_ofList (es : List (String × α)) (name : String) :
    (ofList es).get? name = (es.reverse.find? fun e => e.1 = name).map (·.2) := by
  rw [ofList, get?_foldl_insert, get?_empty, Option.or_none]

/-- Only a name of the list is found. -/
theorem mem_of_find? {name : String} {a : α} {es : List (String × α)} (h : find? name es = some a) :
    (name, a) ∈ es := by
  induction es with
  | nil => simp [find?] at h
  | cons hd tl ih =>
    obtain ⟨n, b⟩ := hd
    rw [find?] at h
    split at h
    · next heq =>
      cases h
      exact heq ▸ List.mem_cons_self
    · exact List.mem_cons_of_mem _ (ih h)

/-- In a sorted list every entry is found under its name. -/
theorem find?_of_mem {name : String} {a : α} {es : List (String × α)}
    (hs : es.Pairwise (·.1 < ·.1)) (h : (name, a) ∈ es) : find? name es = some a := by
  induction es with
  | nil => simp at h
  | cons hd tl ih =>
    obtain ⟨n, b⟩ := hd
    obtain ⟨hhd, htl⟩ := List.pairwise_cons.mp hs
    rcases List.mem_cons.mp h with heq | h
    · cases heq
      simp [find?]
    · have hne : n ≠ name := fun heq => String.lt_irrefl name (heq ▸ hhd _ h)
      simp [find?, hne, ih htl h]

/-- Sorted lists with the same entries are the same list. -/
theorem eq_of_mem_iff {es fs : List (String × α)} (he : es.Pairwise (·.1 < ·.1))
    (hf : fs.Pairwise (·.1 < ·.1)) (h : ∀ e, e ∈ es ↔ e ∈ fs) : es = fs := by
  induction es generalizing fs with
  | nil =>
    cases fs with
    | nil => rfl
    | cons f fs => exact absurd ((h f).mpr List.mem_cons_self) (by simp)
  | cons e es ih =>
    cases fs with
    | nil => exact absurd ((h e).mp List.mem_cons_self) (by simp)
    | cons f fs =>
      obtain ⟨hehd, hetl⟩ := List.pairwise_cons.mp he
      obtain ⟨hfhd, hftl⟩ := List.pairwise_cons.mp hf
      -- each head is the least entry of both lists
      have hhd : e = f := by
        rcases List.mem_cons.mp ((h e).mp List.mem_cons_self) with heq | hef
        · exact heq
        · rcases List.mem_cons.mp ((h f).mpr List.mem_cons_self) with heq | hfe
          · exact heq.symm
          · exact absurd (String.lt_trans (hehd f hfe) (hfhd e hef)) (String.lt_irrefl _)
      subst hhd
      refine congrArg (e :: ·) (ih hetl hftl fun x => ?_)
      constructor
      · intro hx
        rcases List.mem_cons.mp ((h x).mp (List.mem_cons_of_mem _ hx)) with rfl | hx'
        · exact absurd (hehd _ hx) (String.lt_irrefl _)
        · exact hx'
      · intro hx
        rcases List.mem_cons.mp ((h x).mpr (List.mem_cons_of_mem _ hx)) with rfl | hx'
        · exact absurd (hfhd _ hx) (String.lt_irrefl _)
        · exact hx'

theorem mem_entries_iff {d : Directory α} {name : String} {a : α} :
    (name, a) ∈ d.entries ↔ d.get? name = some a :=
  ⟨find?_of_mem d.sorted, mem_of_find?⟩

/-- **Extensionality.** Directories that find the same under every name are equal. -/
theorem ext_get? {d e : Directory α} (h : ∀ name, d.get? name = e.get? name) : d = e := by
  have hl : d.entries = e.entries :=
    eq_of_mem_iff d.sorted e.sorted fun x => by
      obtain ⟨name, a⟩ := x
      rw [mem_entries_iff, mem_entries_iff, h]
  cases d
  cases e
  cases hl
  rfl

/-- **The entries of a directory make it up**, in whatever order they are put in. -/
theorem ofList_of_perm {es : List (String × α)} {d : Directory α} (h : es.Perm d.entries) :
    ofList es = d := by
  refine ext_get? fun name => ?_
  rw [get?_ofList]
  cases h_find : es.reverse.find? fun e => e.1 = name with
  | none =>
    cases h_get : d.get? name with
    | none => rfl
    | some a =>
      -- an entry of the directory would have been met
      have h_mem := List.mem_reverse.mpr (h.mem_iff.mpr (mem_entries_iff.mpr h_get))
      exact absurd rfl
        (of_decide_eq_false (eq_false_of_ne_true (List.find?_eq_none.mp h_find _ h_mem)))
  | some e =>
    have h_name : e.1 = name := by simpa using List.find?_some h_find
    have h_mem := h.mem_iff.mp (List.mem_reverse.mp (List.mem_of_find?_eq_some h_find))
    rw [← h_name, mem_entries_iff.mp (show (e.1, e.2) ∈ d.entries from h_mem)]
    rfl

end Directory

end Eligibility
