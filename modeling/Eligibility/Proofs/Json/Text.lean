import Eligibility.Json.Text

/-!
# JSON strings and their literals

The grammar of string literals (`Json.Spells`): a character stands for itself or behind a backslash,
in a short escape, as its number, or as the numbers of a surrogate pair. The reader takes a literal
whatever follows its closing quote (`Json.readString_append`), and it takes nothing else
(`Json.exists_of_readString`). The closing quote cannot be mistaken, since quotes inside a literal are
escaped.

Writing uses a few of these forms only. That a written string is read back is therefore a matter of
the grammar alone (`Json.readString_writeString`).
-/

namespace Eligibility.Json

/-! ### The grammar -/

/-- What may stand behind a backslash, for a character. -/
inductive Escape : List Char → Char → Prop
  | short {e c : Char} (h : shortEscape? e = some c) : Escape [e] c
  | numbered {ds : List Char} {n : Nat} (h : hexValue? ds = some n)
      (h_low : isLowSurrogate n = false) (h_high : isHighSurrogate n = false) :
      Escape ('u' :: ds) (Char.ofNat n)
  | pair {ds es : List Char} {n m : Nat} (hn : hexValue? ds = some n) (hm : hexValue? es = some m)
      (h_high : isHighSurrogate n) (h_low : isLowSurrogate m) :
      Escape ('u' :: (ds ++ '\\' :: 'u' :: es))
        (Char.ofNat ((n - 0xD800) * 0x400 + (m - 0xDC00) + 0x10000))

/-- What may stand between the quotes of a literal, for these characters. -/
inductive Spells : List Char → List Char → Prop
  | nil : Spells [] []
  | plain {c : Char} {cs s : List Char} (h_quote : c ≠ '"') (h_backslash : c ≠ '\\')
      (h_control : ¬c.toNat < 0x20) (h : Spells cs s) : Spells (c :: cs) (c :: s)
  | escape {e : List Char} {c : Char} {cs s : List Char} (h_escape : Escape e c) (h : Spells cs s) :
      Spells ('\\' :: (e ++ cs)) (c :: s)

/-! ### Escapes -/

section Escapes

variable {cs ds e rest : List Char} {c : Char} {n : Nat}

theorem length_of_hexValue? (h : hexValue? ds = some n) : ds.length = 4 := by
  unfold hexValue? at h
  split at h
  · rfl
  · exact absurd h (by simp)

theorem readHex_append (h : hexValue? ds = some n) (rest : List Char) :
    readHex (ds ++ rest) = .ok (n, rest) := by
  have h_length := length_of_hexValue? h
  rw [readHex, List.take_left' h_length, List.drop_left' h_length, h]

theorem exists_of_readHex (h : readHex cs = .ok (n, rest)) :
    ∃ ds, hexValue? ds = some n ∧ cs = ds ++ rest := by
  unfold readHex at h
  split at h
  · next h_value =>
    obtain ⟨rfl, rfl⟩ := Prod.mk.inj (Except.ok.inj h)
    exact ⟨_, h_value, (List.take_append_drop 4 cs).symm⟩
  · exact absurd h (by simp)

theorem expect_self (c : Char) (cs : List Char) : expect c (c :: cs) = .ok cs := by
  rw [expect, if_pos rfl]

theorem eq_cons_of_expect (h : expect c cs = .ok rest) : cs = c :: rest := by
  cases cs with
  | nil => exact absurd h (by simp [expect])
  | cons d cs =>
    rw [expect] at h
    split at h
    · next h_char => rw [h_char, Except.ok.inj h]
    · exact absurd h (by simp)

/-- No half of a surrogate pair is both halves. -/
theorem isLowSurrogate_of_isHighSurrogate (h : isHighSurrogate n) : isLowSurrogate n = false := by
  simp only [isHighSurrogate, isLowSurrogate, Bool.and_eq_true, decide_eq_true_eq,
    Bool.and_eq_false_iff, decide_eq_false_iff_not] at h ⊢
  omega

theorem readEscape_append (h : Escape e c) (rest : List Char) :
    readEscape (e ++ rest) = .ok (c, rest) := by
  cases h with
  | short h => simp only [List.singleton_append, readEscape, h]
  | numbered h h_low h_high =>
    -- the letter of a number is no short escape
    rw [List.cons_append, readEscape, show shortEscape? 'u' = none from rfl]
    simp only [if_true]
    rw [readNumbered, readHex_append h, ok_bind]
    simp only [h_low, h_high, Bool.false_eq_true, if_false]
    rfl
  | pair hn hm h_high h_low =>
    rw [List.cons_append, readEscape, show shortEscape? 'u' = none from rfl]
    simp only [if_true]
    rw [List.append_assoc, List.cons_append, List.cons_append, readNumbered, readHex_append hn,
      ok_bind]
    simp only [isLowSurrogate_of_isHighSurrogate h_high, h_high, Bool.false_eq_true, if_false,
      if_true]
    rw [expect_self, ok_bind, expect_self, ok_bind, readHex_append hm, ok_bind]
    simp only [h_low, if_true]
    rfl

theorem exists_of_readNumbered (h : readNumbered cs = .ok (c, rest)) :
    ∃ e, Escape ('u' :: e) c ∧ cs = e ++ rest := by
  obtain ⟨⟨n, cs₁⟩, h_first, h⟩ := exists_of_bind_eq_ok h
  obtain ⟨ds, hn, h_cs⟩ := exists_of_readHex h_first
  simp only at h
  split at h
  · exact absurd h (by simp)
  split at h
  · next h_high =>
    -- the second half follows as an escape of its own
    obtain ⟨cs₂, h_backslash, h⟩ := exists_of_bind_eq_ok h
    obtain ⟨cs₃, h_letter, h⟩ := exists_of_bind_eq_ok h
    obtain ⟨⟨m, cs₄⟩, h_second, h⟩ := exists_of_bind_eq_ok h
    obtain ⟨es, hm, h_cs₃⟩ := exists_of_readHex h_second
    simp only at h
    split at h
    · next h_low =>
      obtain ⟨rfl, rfl⟩ := Prod.mk.inj (Except.ok.inj h)
      refine ⟨_, .pair hn hm h_high h_low, ?_⟩
      rw [h_cs, eq_cons_of_expect h_backslash, eq_cons_of_expect h_letter, h_cs₃]
      simp
    · exact absurd h (by simp)
  · next h_low h_high =>
    obtain ⟨rfl, rfl⟩ := Prod.mk.inj (Except.ok.inj h)
    exact ⟨ds, .numbered hn (eq_false_of_ne_true h_low)
      (eq_false_of_ne_true h_high), h_cs⟩

theorem exists_of_readEscape (h : readEscape cs = .ok (c, rest)) :
    ∃ e, Escape e c ∧ cs = e ++ rest := by
  cases cs with
  | nil => exact absurd h (by simp [readEscape])
  | cons d cs =>
    rw [readEscape] at h
    split at h
    · -- one character that stands for another, or a code by its number
      next h_short =>
      obtain ⟨rfl, rfl⟩ := Prod.mk.inj (Except.ok.inj h)
      exact ⟨[d], .short h_short, rfl⟩
    · split at h
      · next h_letter =>
        obtain ⟨e, h_escape, rfl⟩ := exists_of_readNumbered h
        exact ⟨'u' :: e, h_escape, by rw [h_letter, List.cons_append]⟩
      · exact absurd h (by simp)

end Escapes

/-! ### Literals -/

section Literals

variable {cs read read' rest s : List Char} {c d : Char}

theorem stringFrom_quote : stringFrom read ('"' :: rest) = .ok (read.reverse, rest) := by
  rw [stringFrom.eq_def]
  exact if_pos rfl

theorem stringFrom_plain (h_quote : c ≠ '"') (h_backslash : c ≠ '\\') (h_control : ¬c.toNat < 0x20) :
    stringFrom read (c :: rest) = stringFrom (c :: read) rest := by
  rw [stringFrom.eq_def]
  simp only
  rw [if_neg h_quote, if_neg h_backslash, if_neg h_control]

theorem stringFrom_escape (h : readEscape cs = .ok (d, rest)) :
    stringFrom read ('\\' :: cs) = stringFrom (d :: read) rest := by
  rw [stringFrom.eq_def]
  simp only
  rw [if_neg (by decide)]
  simp only [if_true]
  split
  · next h_fault =>
    rw [h] at h_fault
    exact absurd h_fault (by simp)
  · next h_ok =>
    rw [h] at h_ok
    obtain ⟨rfl, rfl⟩ := Prod.mk.inj (Except.ok.inj h_ok)
    rfl

theorem stringFrom_append (h : Spells cs s) (read rest : List Char) :
    stringFrom read (cs ++ '"' :: rest) = .ok (read.reverse ++ s, rest) := by
  induction h generalizing read with
  | nil => rw [List.nil_append, stringFrom_quote, List.append_nil]
  | plain h_quote h_backslash h_control _ ih =>
    rw [List.cons_append, stringFrom_plain h_quote h_backslash h_control, ih, List.reverse_cons,
      List.append_assoc, List.singleton_append]
  | escape h_escape _ ih =>
    rw [List.cons_append, List.append_assoc, stringFrom_escape (readEscape_append h_escape _), ih,
      List.reverse_cons, List.append_assoc, List.singleton_append]

theorem exists_of_stringFrom (h : stringFrom read cs = .ok (read', rest)) :
    ∃ literal s, Spells literal s ∧ cs = literal ++ '"' :: rest ∧ read' = read.reverse ++ s := by
  -- over the scan, in whose cases the spelling has a constructor each, or there is an error
  fun_induction stringFrom read cs with
  | case1 => exact absurd h (by simp)
  | case2 =>
    obtain ⟨rfl, rfl⟩ := Prod.mk.inj (Except.ok.inj h)
    exact ⟨[], [], .nil, rfl, (List.append_nil _).symm⟩
  | case3 => exact absurd h (by simp)
  | case4 read cs d rest' h_read _ ih =>
    obtain ⟨e, h_escape, rfl⟩ := exists_of_readEscape h_read
    obtain ⟨literal, s, h_spells, rfl, rfl⟩ := ih h
    exact ⟨_, d :: s, .escape h_escape h_spells, by simp, by simp⟩
  | case5 => exact absurd h (by simp)
  | case6 read c cs h_quote h_backslash h_control ih =>
    obtain ⟨literal, s, h_spells, rfl, rfl⟩ := ih h
    exact ⟨_, c :: s, .plain h_quote h_backslash h_control h_spells, by simp, by simp⟩

/-- **A literal is read**, whatever follows its closing quote. -/
theorem readString_append {s : String} (h : Spells cs s.toList) (rest : List Char) :
    readString (cs ++ '"' :: rest) = .ok (s, rest) := by
  rw [readString, stringFrom_append h]
  simp only [List.reverse_nil, List.nil_append, String.ofList_toList]

/-- **Nothing but literals is read.** -/
theorem exists_of_readString {s : String} (h : readString cs = .ok (s, rest)) :
    ∃ literal, Spells literal s.toList ∧ cs = literal ++ '"' :: rest := by
  unfold readString at h
  split at h
  · exact absurd h (by simp)
  · next h_read =>
    obtain ⟨rfl, rfl⟩ := Prod.mk.inj (Except.ok.inj h)
    obtain ⟨literal, s, h_spells, rfl, rfl⟩ := exists_of_stringFrom h_read
    exact ⟨literal, by rwa [String.toList_ofList], rfl⟩

end Literals

/-! ### Written strings -/

theorem hexDigit?_hexChar : ∀ n < 16, hexDigit? (hexChar n) = some n := by decide

/-- A control character is told by its number. -/
theorem escape_control {c : Char} (h : c.toNat < 0x20) :
    Escape ['u', '0', '0', hexChar (c.toNat / 16), hexChar (c.toNat % 16)] c := by
  have h_zero : hexDigit? '0' = some 0 := by decide
  have h_high := hexDigit?_hexChar (c.toNat / 16) (by omega)
  have h_low := hexDigit?_hexChar (c.toNat % 16) (by omega)
  have h_value : hexValue? ['0', '0', hexChar (c.toNat / 16), hexChar (c.toNat % 16)]
      = some c.toNat := by
    simp only [hexValue?, h_zero, h_high, h_low, Option.bind_eq_bind, Option.bind_some]
    congr 1
    omega
  -- control characters are far below the surrogates
  have h_surrogate : isLowSurrogate c.toNat = false ∧ isHighSurrogate c.toNat = false := by
    simp only [isLowSurrogate, isHighSurrogate, Bool.and_eq_false_iff, decide_eq_false_iff_not]
    omega
  have h_escape := Escape.numbered h_value h_surrogate.1 h_surrogate.2
  rwa [Char.ofNat_toNat] at h_escape

/-- **A written character spells itself.** -/
theorem spells_writeChar (c : Char) {cs s : List Char} (h : Spells cs s) :
    Spells (writeChar c ++ cs) (c :: s) := by
  fun_cases writeChar c with
  | case1 | case2 | case3 | case4 | case5 | case6 | case7 =>
    subst c
    exact .escape (.short rfl) h
  | case8 _ _ _ _ _ _ _ h_control => exact .escape (escape_control h_control) h
  | case9 h_quote h_backslash _ _ _ _ _ h_control => exact .plain h_quote h_backslash h_control h

theorem spells_flatMap_writeChar (cs : List Char) : Spells (cs.flatMap writeChar) cs := by
  induction cs with
  | nil => exact .nil
  | cons c cs ih =>
    rw [List.flatMap_cons]
    exact spells_writeChar c ih

/-- **Strings are read back** from behind the opening quote of their literal. -/
theorem readString_writeString (s : String) (rest : List Char) :
    readString (s.toList.flatMap writeChar ++ '"' :: rest) = .ok (s, rest) :=
  readString_append (spells_flatMap_writeChar s.toList) rest

end Eligibility.Json
