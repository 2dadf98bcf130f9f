import Eligibility.Proofs.Number.Reading
import Eligibility.Value

/-!
# Doubles are read back from their text

Every finite double is read back from the text that a layout gives it (`read?_render`), so the
literal of a finite double is read as that double (`readNumber_floatLiteral`). The text shows the
shortest decimal of the double, with the point moved (`read?_positional`, `read?_scientific`); what
is read may have more zeros, but it has the same exact value, and that value rounds to the double.

At the end stands which characters these texts have.
-/

namespace Eligibility

open Binary64

namespace Layout

/-- The text is read as an unsigned decimal with the value of `c · 10 ^ e`. -/
def Shows (cs : List Char) (c : ℕ) (e : ℤ) : Prop :=
  (∀ a ∈ cs.head?, a.isDigit) ∧
    ∃ m e', Decimal.read? cs = some ⟨false, m, e'⟩ ∧ decimalUnits m e' = decimalUnits c e

theorem isDigit_of_mem_zeros {n : ℕ} {c : Char} (h : c ∈ List.replicate n '0') : c.isDigit := by
  rw [List.eq_of_mem_replicate h]
  decide

/-! ### The positional form -/

theorem splitFraction_point {fraction : List Char} (h : ∀ c ∈ fraction, c.isDigit)
    {rest : List Char} (h_rest : ∀ c ∈ rest.head?, c.isDigit = false) :
    Decimal.splitFraction ('.' :: (fraction ++ rest)) = (fraction, rest) := by
  obtain ⟨h_take, h_drop⟩ := takeWhile_of_head? h_rest
  unfold Decimal.splitFraction
  simp only [List.takeWhile_append_of_pos h, List.dropWhile_append_of_pos h, h_take, h_drop,
    List.append_nil]

/-- Digits around a point, with what may follow them. -/
theorem shows_of_point (whole fraction : List Char) {rest : List Char} {c : ℕ} {e e' : ℤ}
    (h_ne : whole ≠ []) (h_whole : ∀ c ∈ whole, c.isDigit) (h_fraction : ∀ c ∈ fraction, c.isDigit)
    (h_rest : ∀ c ∈ rest.head?, c.isDigit = false) (h_exp : Decimal.readExponent? rest = some e')
    (h_value : decimalUnits (Digits.toNat (whole ++ fraction)) (e' - fraction.length)
      = decimalUnits c e) :
    Shows (whole ++ '.' :: (fraction ++ rest)) c e := by
  -- the point ends the whole digits
  have h_tail : ∀ c ∈ ('.' :: (fraction ++ rest)).head?, c.isDigit = false := by
    intro c hc
    obtain rfl := Option.some.inj hc
    decide
  exact ⟨isDigit_head_append h_ne h_whole _, _, _,
    Decimal.read?_of_parts h_ne h_whole h_tail (splitFraction_point h_fraction h_rest) h_exp,
    h_value⟩

theorem decimalUnits_mul_ten_pow (c n : ℕ) (e : ℤ) :
    decimalUnits (c * 10 ^ n) e = decimalUnits c (e + n) := by
  unfold decimalUnits
  congr 1
  rw [zpow_add₀ (by norm_num), zpow_natCast]
  push_cast
  ring

/-- **Digits are read back wherever the point is put.** -/
theorem shows_positional {ds : List Char} (h_ne : ds ≠ []) (h_digits : ∀ c ∈ ds, c.isDigit)
    (point : ℤ) : Shows (positional ds point) (Digits.toNat ds) (point - ds.length) := by
  have h_exp : Decimal.readExponent? [] = some 0 := rfl
  have h_zero : ∀ c ∈ ['0'], c.isDigit := fun c hc => isDigit_of_mem_zeros (n := 1) hc
  have h_rest : ∀ c ∈ ([] : List Char).head?, c.isDigit = false := fun c hc => absurd hc (by simp)
  unfold positional
  by_cases h_front : point ≤ 0
  · -- the point stands before the digits
    have h_zeros : ∀ c ∈ List.replicate (-point).toNat '0' ++ ds, c.isDigit := fun c hc =>
      (List.mem_append.mp hc).elim isDigit_of_mem_zeros (h_digits c)
    have h_shows := shows_of_point ['0'] _ (c := Digits.toNat ds) (e := point - ds.length)
      (List.cons_ne_nil _ _) h_zero h_zeros h_rest h_exp ?_
    · rw [if_pos h_front]
      rw [List.append_nil] at h_shows
      exact h_shows
    · -- zeros in front are worth nothing
      have h_nat : Digits.toNat (['0'] ++ (List.replicate (-point).toNat '0' ++ ds))
          = Digits.toNat ds := by
        rw [← Digits.toNat_zeros_append ds (-point).toNat]
        exact Digits.toNat_zeros_append _ 1
      rw [h_nat, List.length_append, List.length_replicate]
      congr 1
      omega
  rw [if_neg h_front]
  by_cases h_back : ds.length ≤ point.toNat
  · -- the point stands behind the digits
    have h_zeros : ∀ c ∈ ds ++ List.replicate (point.toNat - ds.length) '0', c.isDigit :=
      fun c hc => (List.mem_append.mp hc).elim (h_digits c) isDigit_of_mem_zeros
    have h_shows := shows_of_point _ ['0'] (c := Digits.toNat ds) (e := point - ds.length)
      (List.append_ne_nil_of_left_ne_nil h_ne _) h_zeros h_zero h_rest h_exp ?_
    · rw [if_pos h_back]
      exact h_shows
    · -- zeros behind are powers of ten, which the exponent has already
      have h_nat := Digits.toNat_append_zeros
        (ds ++ List.replicate (point.toNat - ds.length) '0') 1
      rw [List.replicate_one] at h_nat
      rw [h_nat, Digits.toNat_append_zeros, Nat.mul_assoc, ← Nat.pow_add, decimalUnits_mul_ten_pow,
        List.length_singleton]
      congr 1
      omega
  · -- the point stands among the digits
    rw [if_neg h_back]
    have h_take : ds.take point.toNat ≠ [] := by
      rw [ne_eq, List.take_eq_nil_iff, not_or]
      exact ⟨by omega, h_ne⟩
    have h_shows := shows_of_point (ds.take point.toNat) (ds.drop point.toNat)
      (c := Digits.toNat ds) (e := point - ds.length) h_take
      (fun c hc => h_digits c (List.mem_of_mem_take hc))
      (fun c hc => h_digits c (List.mem_of_mem_drop hc)) h_rest h_exp ?_
    · rw [List.append_nil] at h_shows
      exact h_shows
    · rw [List.take_append_drop, List.length_drop]
      congr 1
      omega

/-! ### The scientific form -/

theorem isDigit_head_exponentPart (layout : Layout) (e : ℤ) :
    ∀ c ∈ (layout.exponentPart e).head?, c.isDigit = false := by
  intro c hc
  obtain rfl := Option.some.inj hc
  decide

/-- **Digits are read back with the exponent of their first one.** -/
theorem shows_scientific {layout : Layout} (h_plus : layout.plus = [] ∨ layout.plus = ['+'])
    {ds : List Char} (h_ne : ds ≠ []) (h_digits : ∀ c ∈ ds, c.isDigit) {e : ℤ}
    (h_exp : e.natAbs < 2 ^ 16) :
    Shows (layout.scientific ds e) (Digits.toNat ds) (e + 1 - ds.length) := by
  have h_read := Decimal.readExponent?_exponentPart h_exp h_plus
  have h_rest := isDigit_head_exponentPart layout e
  have h_take : ds.take 1 ≠ [] := by
    rw [ne_eq, List.take_eq_nil_iff, not_or]
    exact ⟨Nat.one_ne_zero, h_ne⟩
  have h_whole : ∀ c ∈ ds.take 1, c.isDigit := fun c hc => h_digits c (List.mem_of_mem_take hc)
  have h_length : 0 < ds.length := List.length_pos_of_ne_nil h_ne
  unfold scientific
  by_cases h_one : ds.length ≤ 1
  · -- a single digit has no point
    have h_all : ds.take 1 = ds := List.take_of_length_le h_one
    have h_split : Decimal.splitFraction (layout.exponentPart e)
        = ([], layout.exponentPart e) := rfl
    rw [if_pos h_one, List.append_nil]
    refine ⟨isDigit_head_append h_take h_whole _, _, _,
      Decimal.read?_of_parts h_take h_whole h_rest h_split h_read, ?_⟩
    rw [h_all, List.append_nil, List.length_nil]
    congr 1
    omega
  · rw [if_neg h_one, List.append_assoc, List.cons_append]
    have h_tail : ∀ c ∈ ds.drop 1, c.isDigit := fun c hc => h_digits c (List.mem_of_mem_drop hc)
    refine shows_of_point _ _ h_take h_whole h_tail h_rest h_read ?_
    rw [List.take_append_drop, List.length_drop]
    congr 1
    omega

/-! ### The text of a double -/

/-- The exponent of the first digit of a double is in reach of the reader. -/
theorem natAbs_leading_lt {k c : ℕ} {e : ℤ} (hk : 0 < k) (hk' : k < infinite)
    (h_around : Around k (decimalUnits c e)) :
    (e + (Digits.ofNat c).length - 1).natAbs < 2 ^ 16 := by
  have hc : 0 < c := Nat.pos_of_ne_zero (ne_zero_of_around hk h_around)
  rw [Digits.length_ofNat hc]
  have h_lt := (h_around.exponent_bounds hk hk').2 (lt_ten_pow_digitCount c).le
  have h_ten := ten_pow_digitCount_le hc
  -- a number of `n + 1` digits is at least `10 ^ n`
  obtain ⟨n, hn⟩ : ∃ n, digitCount c = n + 1 := by
    rw [digitCount, dif_neg hc.ne']
    exact ⟨_, rfl⟩
  rw [hn, Nat.pow_succ] at h_ten
  have h_le := (h_around.exponent_bounds (j := n) hk hk').1 (by omega)
  rw [hn] at h_lt ⊢
  omega

/-- The text of a magnitude shows its shortest decimal. -/
theorem shows_magnitude (layout : Layout) (h_plus : layout.plus = [] ∨ layout.plus = ['+']) {k : ℕ}
    (hk : 0 < k) (hk' : k < infinite) :
    Shows (layout.magnitude k) (shortest layout.tie k).1 (shortest layout.tie k).2 := by
  have h_around := around_shortest layout.tie hk
  unfold magnitude
  generalize shortest layout.tie k = decimal at h_around ⊢
  obtain ⟨c, e⟩ := decimal
  -- the shortest decimal is in the range of the doubles, so its exponent is small enough to be read
  have h_leading := natAbs_leading_lt hk hk' (c := c) (e := e) h_around
  have h_ne := Digits.ofNat_ne_nil c
  have h_digits := Digits.isDigit_of_mem_ofNat c
  simp only
  split
  · have h_shows := shows_positional h_ne h_digits (e + (Digits.ofNat c).length - 1 + 1)
    rw [Digits.toNat_ofNat] at h_shows
    convert h_shows using 1
    omega
  · have h_shows := shows_scientific h_plus h_ne h_digits h_leading
    rw [Digits.toNat_ofNat] at h_shows
    convert h_shows using 1
    omega

theorem magnitude_zero (layout : Layout) : layout.magnitude 0 = ['0', '.', '0'] := by
  have h_digits : Digits.ofNat 0 = ['0'] := by
    rw [Digits.ofNat, if_pos (by decide)]
    rfl
  unfold magnitude shortest
  rw [if_pos rfl]
  simp only
  rw [if_pos (.inl trivial), h_digits]
  rfl

/-- What is read from the text of a finite magnitude rounds to the magnitude. -/
theorem exists_read?_magnitude (layout : Layout)
    (h_plus : layout.plus = [] ∨ layout.plus = ['+']) {k : ℕ} (hk : k < infinite) :
    (∀ a ∈ (layout.magnitude k).head?, a.isDigit) ∧
      ∃ m e, Decimal.read? (layout.magnitude k) = some ⟨false, m, e⟩ ∧
        ∀ negative, ofDecimal negative m e = ofParts negative k := by
  rcases Nat.eq_zero_or_pos k with rfl | h_pos
  · rw [magnitude_zero]
    -- the zero is written out and has a shortcut in the reader
    refine ⟨fun a ha => ?_, 0, -1, rfl, fun negative => if_pos rfl⟩
    obtain rfl := Option.some.inj ha
    decide
  · -- the text may show other digits than the shortest ones, but it shows the same value
    obtain ⟨h_head, m, e, h_read, h_value⟩ := shows_magnitude layout h_plus h_pos hk
    have h_around := around_shortest layout.tie h_pos
    rw [← h_value] at h_around
    exact ⟨h_head, m, e, h_read, fun negative => ofDecimal_of_around negative h_pos hk h_around⟩

end Layout

/-- A double is made up of its sign and its magnitude. -/
theorem Binary64.ofParts_eq (x : Binary64) : ofParts x.negative x.magnitude = x := by
  obtain ⟨bits⟩ := x
  have h_bits : (if 2 ^ 63 ≤ bits.toNat then 2 ^ 63 + bits.toNat % 2 ^ 63
      else bits.toNat % 2 ^ 63) = bits.toNat := by
    have h_lt := bits.toNat_lt
    split <;> omega
  unfold ofParts negative magnitude
  simp only [decide_eq_true_eq]
  rw [h_bits, UInt64.ofNat_toNat]

/-- **The text of a finite double is read as that double.** -/
theorem read?_render (layout : Layout) (h_plus : layout.plus = [] ∨ layout.plus = ['+'])
    {x : Binary64} (h : x.isFinite) :
    ∃ d, Decimal.read? (layout.render x) = some d ∧ d.toBinary64 = x := by
  have hk : x.magnitude < infinite := of_decide_eq_true h
  obtain ⟨h_head, m, e, h_read, h_value⟩ := layout.exists_read?_magnitude h_plus hk
  have h_parts := x.ofParts_eq
  unfold Layout.render
  -- the sign is written in front, and read apart from the magnitude
  cases h_sign : x.negative with
  | false =>
    rw [h_sign] at h_parts
    exact ⟨_, h_read, (h_value false).trans h_parts⟩
  | true =>
    rw [h_sign] at h_parts
    exact ⟨_, Decimal.read?_minus h_head h_read, (h_value true).trans h_parts⟩

/-! ### The characters of number texts -/

/-- The characters of the texts of numbers in rule text. -/
def IsNumberChar (c : Char) : Prop := c.isDigit ∨ c = '-' ∨ c = '.' ∨ c = 'e'

theorem isNumberChar_integer (i : ℤ) : ∀ c ∈ Layout.integer i, IsNumberChar c := by
  intro c hc
  unfold Layout.integer at hc
  split at hc
  · rcases List.mem_cons.mp hc with rfl | hc
    · exact .inr (.inl rfl)
    · exact .inl (Digits.isDigit_of_mem_ofNat _ c hc)
  · exact .inl (Digits.isDigit_of_mem_ofNat _ c hc)

theorem isNumberChar_positional {ds : List Char} (h : ∀ c ∈ ds, c.isDigit) (point : ℤ) :
    '.' ∈ Layout.positional ds point ∧
      ∀ c ∈ Layout.positional ds point, IsNumberChar c := by
  have h_point : IsNumberChar '.' := .inr (.inr (.inl rfl))
  have h_zero : IsNumberChar '0' := .inl (by decide)
  have h_zeros {n : ℕ} : ∀ c ∈ List.replicate n '0', IsNumberChar c := fun c hc =>
    .inl (Layout.isDigit_of_mem_zeros hc)
  have h_digits : ∀ c ∈ ds, IsNumberChar c := fun c hc => .inl (h c hc)
  -- the point stands before, behind or among the digits, and zeros fill the gap
  unfold Layout.positional
  split
  · refine ⟨by simp, ?_⟩
    simp only [List.forall_mem_cons, List.forall_mem_append]
    exact ⟨h_zero, h_point, h_zeros, h_digits⟩
  · split
    · refine ⟨by simp, ?_⟩
      simp only [List.forall_mem_cons, List.forall_mem_append]
      exact ⟨⟨h_digits, h_zeros⟩, h_point, h_zero, fun c hc => absurd hc (by simp)⟩
    · refine ⟨by simp, ?_⟩
      simp only [List.forall_mem_cons, List.forall_mem_append]
      exact ⟨fun c hc => h_digits c (List.mem_of_mem_take hc), h_point,
        fun c hc => h_digits c (List.mem_of_mem_drop hc)⟩

theorem isNumberChar_scientific {layout : Layout} (h_plus : layout.plus = []) {ds : List Char}
    (h : ∀ c ∈ ds, c.isDigit) (e : ℤ) :
    'e' ∈ layout.scientific ds e ∧ ∀ c ∈ layout.scientific ds e, IsNumberChar c := by
  have h_point : IsNumberChar '.' := .inr (.inr (.inl rfl))
  -- the exponent has no plus sign here
  have h_exp : ∀ c ∈ layout.exponentPart e, IsNumberChar c := by
    unfold Layout.exponentPart
    rw [h_plus, ite_self, List.nil_append]
    exact List.forall_mem_cons.mpr ⟨.inr (.inr (.inr rfl)), isNumberChar_integer e⟩
  unfold Layout.scientific
  refine ⟨List.mem_append_right _ List.mem_cons_self, ?_⟩
  simp only [List.forall_mem_append]
  refine ⟨⟨fun c hc => .inl (h c (List.mem_of_mem_take hc)), ?_⟩, h_exp⟩
  split
  · exact fun c hc => absurd hc (by simp)
  · exact List.forall_mem_cons.mpr ⟨h_point, fun c hc => .inl (h c (List.mem_of_mem_drop hc))⟩

/-- The text of a double is not that of an integer, and it is made of number characters. -/
theorem isNumberChar_render (layout : Layout) (h_plus : layout.plus = []) (x : Binary64) :
    ('.' ∈ layout.render x ∨ 'e' ∈ layout.render x) ∧
      ∀ c ∈ layout.render x, IsNumberChar c := by
  -- a point in the one form, and an exponent in the other
  have h_magnitude : ('.' ∈ layout.magnitude x.magnitude ∨ 'e' ∈ layout.magnitude x.magnitude) ∧
      ∀ c ∈ layout.magnitude x.magnitude, IsNumberChar c := by
    unfold Layout.magnitude
    simp only
    split
    · exact (isNumberChar_positional (Digits.isDigit_of_mem_ofNat _) _).imp_left .inl
    · exact (isNumberChar_scientific h_plus (Digits.isDigit_of_mem_ofNat _) _).imp_left .inr
  unfold Layout.render
  split
  · exact ⟨h_magnitude.1.imp (List.mem_cons_of_mem _) (List.mem_cons_of_mem _),
      List.forall_mem_cons.mpr ⟨.inr (.inl rfl), h_magnitude.2⟩⟩
  · exact h_magnitude

theorem floatLiteral_eq {x : Binary64} (h : x.isFinite) :
    Value.floatLiteral x = Value.floatLayout.render x := if_pos h

theorem isNumberChar_floatLiteral {x : Binary64} (h : x.isFinite) :
    ∀ c ∈ Value.floatLiteral x, IsNumberChar c := by
  rw [floatLiteral_eq h]
  exact (isNumberChar_render _ rfl x).2

/-- **The literal of a finite double is read as that double.** -/
theorem readNumber_floatLiteral {x : Binary64} (h : x.isFinite) :
    readNumber (Value.floatLiteral x) = .number (.float x) := by
  obtain ⟨d, h_read, h_value⟩ := read?_render Value.floatLayout (.inl rfl) h
  -- the point or the exponent keeps the text from being read as an integer
  have h_int : readInt64? (Value.floatLayout.render x) = none := by
    rcases (isNumberChar_render Value.floatLayout rfl x).1 with h_mem | h_mem
    · exact readInt64?_eq_none h_mem (by decide) (by decide)
    · exact readInt64?_eq_none h_mem (by decide) (by decide)
  rw [floatLiteral_eq h, readNumber, h_int, h_read]
  simp only
  rw [h_value, if_pos h]

end Eligibility
