import Eligibility.Proofs.Json.Number
import Eligibility.Proofs.Number.Integer

/-!
# What is read is finite

No double beyond the finite ones comes out of a JSON text (`Json.isFinite_of_readDocument`): a number
that is too large is refused. The significand of a number has at most 64 bits, and scaling it down
only makes it smaller, even though each step is rounded (`Json.units_div_lt`); what scaling up makes
is checked.
-/

namespace Eligibility

open Binary64

namespace Json

/-! ### Scaling -/

/-- A power of ten from ten up is at least eight. -/
theorem le_units_tenTo {e : ℕ} (h_pos : 0 < e) (h_le : e ≤ 308) :
    2 ^ (52 + 1025) ≤ (tenTo e).units := by
  have h_ratio : tenTo e = ofRatio false (10 ^ e) 1 := by
    rw [tenTo, ofDecimal, if_neg (by decide), if_neg (by omega), if_neg (by omega),
      if_pos (by omega), Nat.one_mul, Int.toNat_natCast]
  have h_ten : 2 ^ 3 ≤ 10 ^ e :=
    calc 2 ^ 3 ≤ 10 ^ 1 := by decide
      _ ≤ 10 ^ e := Nat.pow_le_pow_right (by decide) h_pos
  have h_value : 2 ^ (1025 + 52) ≤ 10 ^ e * unitsPerOne / 1 := by
    rw [Nat.div_one, show 1025 + 52 = 3 + 1074 from rfl, pow_add, unitsPerOne_eq]
    exact Nat.mul_le_mul_right _ h_ten
  rw [h_ratio, units, ofRatio, magnitude_ofParts _ (nearest_lt _ _), pow_add]
  exact le_unitsOf (le_nearest h_value (by decide))

/-- **Scaling down keeps a double small**, rounding included. -/
theorem units_div_lt {x y : Binary64} (hx : x.units < 2 ^ (53 + 1086))
    (hy : 2 ^ (52 + 1025) ≤ y.units) : (x.div y).units < 2 ^ (53 + 1086) := by
  have h_pos : 0 < y.units := Nat.lt_of_lt_of_le (Nat.two_pow_pos _) hy
  have h_quotient : x.units * unitsPerOne / y.units < 2 ^ (53 + 1083) := by
    -- the divisor is at least `2 ^ 3`, which the quotient loses
    rw [Nat.div_lt_iff_lt_mul h_pos]
    calc x.units * unitsPerOne < 2 ^ (53 + 1086) * unitsPerOne :=
          Nat.mul_lt_mul_of_pos_right hx unitsPerOne_pos
      _ = 2 ^ (53 + 1083) * 2 ^ (52 + 1025) := by
          rw [unitsPerOne_eq, ← pow_add, ← pow_add]
      _ ≤ 2 ^ (53 + 1083) * y.units := Nat.mul_le_mul_left _ hy
  -- rounding does not go beyond a power of two, as this is a double itself
  have h_nearest := nearest_le h_quotient (s := 1083) (Nat.le_of_eq (Nat.add_comm _ _))
  rw [units, div, magnitude_ofParts _ (nearest_lt _ _), pow_add]
  exact unitsOf_lt (Nat.le_trans h_nearest (by decide))

/-- **What scaling gives is finite.** -/
theorem isFinite_of_scale {x y : Binary64} {e : ℤ} (hx : x.units < 2 ^ (53 + 1086))
    (h : scale x e = some y) : y.isFinite := by
  -- the double that is scaled stays below `2 ^ 65`, which is far from infinite
  have h_finite {z : Binary64} (hz : z.units < 2 ^ (53 + 1086)) : z.isFinite :=
    isFinite_of_units_lt (hz.trans_le (pow_le_pow_right₀ one_le_two (by decide)))
  fun_induction scale x e with
  | case1 => exact Option.some.inj h ▸ h_finite hx
  | case2 => exact absurd h (by simp)
  -- only scaling up may reach infinity, and it is checked for there
  | case3 => exact (Option.filter_eq_some_iff.mp h).2
  | case4 x e h_huge h_pos h_low =>
    have h_div := units_div_lt hx (le_units_tenTo (e := (-e).toNat) (by omega) (by omega))
    exact Option.some.inj h ▸ h_finite h_div
  | case5 => exact Option.some.inj h ▸ h_finite hx
  -- the huge negative exponents are brought nearer by steps, each of them a division
  | case6 x e h_huge h_pos h_low h_zero ih =>
    exact ih (units_div_lt hx (le_units_tenTo (by decide) (by decide))) h

/-! ### Numbers -/

/-- The doubles of the document are finite, and its whole numbers have at most 64 bits. -/
inductive IsFinite : Json → Prop
  | null : IsFinite .null
  | bool (b : Bool) : IsFinite (.bool b)
  | whole {i : ℤ} (h : i < 2 ^ 64) : IsFinite (.whole i)
  | float {x : Binary64} (h : x.isFinite) : IsFinite (.float x)
  | str (s : String) : IsFinite (.str s)
  | arr {items : List Json} (h : ∀ x ∈ items, IsFinite x) : IsFinite (.arr items)
  | obj {fields : List (String × Json)} (h : ∀ f ∈ fields, IsFinite f.2) : IsFinite (.obj fields)

theorem isFinite_withSign {x : Binary64} (h : x.isFinite) (flip : Bool) :
    (x.withSign flip).isFinite := by
  unfold withSign
  split
  · -- the sign is not in the magnitude
    rw [Binary64.isFinite, decide_eq_true_eq] at h ⊢
    rwa [magnitude_ofParts _ (Nat.lt_trans h (by decide))]
  · exact h

theorem absorb_lt {significand : ℕ} (h : significand < 2 ^ 64) (ds : List Char) :
    (absorb significand ds).1 < 2 ^ 64 := by
  fun_induction absorb significand ds with
  | case1 => exact h
  | case2 significand c ds h_fits ih => exact ih h_fits
  | case3 => exact h

theorem isFinite_wholeOf {significand : ℕ} (h : significand < 2 ^ 64) (negative : Bool) :
    (wholeOf negative significand).IsFinite := by
  unfold wholeOf
  split
  · exact .whole (by exact_mod_cast h)
  split
  · exact .whole (by omega)
  · -- a negative number beyond the integers is a double
    exact .float (isFinite_withSign (isFinite_ofInt_of_lt (by simpa using h)) true)

theorem isFinite_of_floatOf {negative : Bool} {significand : ℕ} {e : ℤ} {x : Json}
    (h_significand : significand < 2 ^ 64) (h : floatOf negative significand e = .ok x) :
    x.IsFinite := by
  unfold floatOf at h
  split at h
  · exact absurd h (by simp)
  · next h_scale =>
    obtain rfl := Except.ok.inj h
    -- the digits are below `2 ^ 64` before they are scaled
    have h_units := units_ofInt_lt (i := significand) (by simpa using h_significand)
    exact .float (isFinite_withSign (isFinite_of_scale h_units h_scale) negative)

/-- Digits give 64 bits at most, and they are scaled. -/
theorem isFinite_of_numberOf {negative : Bool} {ds : List Char} {fraction : Option (List Char)}
    {exponent : Option ℤ} {x : Json} (h : numberOf negative ds fraction exponent = .ok x) :
    x.IsFinite := by
  -- digits that do not fit into 64 bits are not absorbed
  have h_absorb := absorb_lt (by decide : 0 < 2 ^ 64) ds
  unfold numberOf at h
  simp only at h
  split at h
  · exact Except.ok.inj h ▸ isFinite_wholeOf h_absorb negative
  · exact isFinite_of_floatOf (absorb_lt h_absorb _) h

theorem isFinite_of_readNumber {negative : Bool} {cs rest : List Char} {x : Json}
    (h : readNumber negative cs = .ok (x, rest)) : x.IsFinite := by
  rw [readNumber_eq] at h
  obtain ⟨⟨ds, cs₁⟩, -, h⟩ := exists_of_bind_eq_ok h
  obtain ⟨⟨fraction, cs₂⟩, -, h⟩ := exists_of_bind_eq_ok h
  obtain ⟨⟨exponent, cs₃⟩, -, h⟩ := exists_of_bind_eq_ok h
  simp only at h
  -- however the text was taken apart, the number is made of its parts
  cases h_number : numberOf negative ds fraction exponent with
  | error fault =>
    rw [h_number] at h
    exact absurd h (by simp)
  | ok y =>
    rw [h_number] at h
    obtain ⟨rfl, -⟩ := Prod.mk.inj (Except.ok.inj h)
    exact isFinite_of_numberOf h_number

/-! ### Documents -/

/-- Whatever the reader gives has the property. -/
def Reader.Ensures {α : Type} (reader : Reader α) (P : α → Prop) : Prop :=
  ∀ ⦃cs a rest⦄, reader.run cs = .ok (a, rest) → P a

theorem Reader.Ensures.map {α β : Type} {reader : Reader α} {P : α → Prop} {Q : β → Prop}
    (h : reader.Ensures P) {f : α → β} (hf : ∀ a, P a → Q (f a)) : (reader.map f).Ensures Q := by
  intro cs b rest h_run
  simp only [Reader.map, Reader.filterMap] at h_run
  split at h_run
  · exact absurd h_run (by simp)
  · next h_inner =>
    obtain ⟨rfl, -⟩ := Prod.mk.inj (Except.ok.inj h_run)
    exact hf _ (h h_inner)

section Items

variable {σ : Type} {P : σ → Prop} {close : Char} {item : σ → Reader σ}

theorem ensures_itemsFrom (h_item : ∀ state, P state → (item state).Ensures P) {state state' : σ}
    {cs rest : List Char} (h_state : P state)
    (h : itemsFrom close item state cs = .ok (state', rest)) : P state' := by
  fun_induction itemsFrom close item state cs with
  | case1 => exact absurd h (by simp)
  | case2 => exact (Prod.mk.inj (Except.ok.inj h)).1 ▸ h_state
  | case3 => exact absurd h (by simp)
  -- another item: the state behind it has the property again
  | case4 state cs rest' _ state₁ rest₁ h_run ih => exact ih (h_item state h_state h_run) h

/-- **A fold over items keeps what each item keeps.** -/
theorem ensures_readItems (h_item : ∀ state, P state → (item state).Ensures P) {start state : σ}
    {cs rest : List Char} (h_start : P start)
    (h : readItems close item start cs = .ok (state, rest)) : P state := by
  unfold readItems at h
  split at h
  · exact absurd h (by simp)
  · exact (Prod.mk.inj (Except.ok.inj h)).1 ▸ h_start
  split at h
  · exact absurd h (by simp)
  · -- the first item is read in front of the loop, as no comma precedes it
    next h_run => exact ensures_itemsFrom h_item (h_item start h_start h_run) h

/-- An entry keeps what its reader keeps, whatever its key. -/
theorem ensures_entry {entries : Entries σ} {state : σ}
    (h : ∀ key, (entries.entry state key).Ensures P) : (entries.reader state).Ensures P := by
  intro cs a rest h_run
  simp only [Entries.reader] at h_run
  split at h_run
  · exact absurd h_run (by simp)
  · exact h _ h_run

end Items

theorem readWord_eq {x y : Json} {expected cs rest : List Char}
    (h : readWord x expected cs = .ok (y, rest)) : y = x := by
  fun_induction readWord x expected cs with
  | case1 => exact (Prod.mk.inj (Except.ok.inj h)).1.symm
  | case2 => exact absurd h (by simp)
  | case3 c expected cs ih => exact ih h
  | case4 => exact absurd h (by simp)

theorem isFinite_of_readScalar {c : Char} {cs rest : List Char} {x : Json}
    (h : readScalar c cs = .ok (x, rest)) : x.IsFinite := by
  unfold readScalar at h
  split at h
  · exact readWord_eq h ▸ .null
  split at h
  · exact readWord_eq h ▸ .bool true
  split at h
  · exact readWord_eq h ▸ .bool false
  split at h
  · split at h
    · exact absurd h (by simp)
    · exact (Prod.mk.inj (Except.ok.inj h)).1 ▸ .str _
  split at h
  · exact isFinite_of_readNumber h
  · exact isFinite_of_readNumber h

/-- A document is finite if what its arrays and objects hold is. -/
theorem isFinite_of_readDocument (inner : Option (Reader Json))
    (h_inner : ∀ reader ∈ inner, reader.Ensures IsFinite) {cs rest : List Char} {x : Json}
    (h : readDocument inner cs = .ok (x, rest)) : x.IsFinite := by
  unfold readDocument at h
  split at h
  · exact absurd h (by simp)
  split at h
  · split at h
    · exact absurd h (by simp)
    · -- an array within the levels: the invariant is that all items so far are finite
      next inner =>
      obtain ⟨⟨items, cs'⟩, h_items, h⟩ := exists_of_bind_eq_ok h
      obtain ⟨rfl, -⟩ := Prod.mk.inj (Except.ok.inj h)
      have h_collect : ∀ items : List Json, (∀ x ∈ items, x.IsFinite) →
          (collectItems inner items).Ensures fun items => ∀ x ∈ items, x.IsFinite :=
        fun items h_items => (h_inner inner rfl).map fun x hx => List.forall_mem_cons.mpr ⟨hx, h_items⟩
      have h_all := ensures_readItems h_collect (by simp) h_items
      exact .arr fun x hx => h_all x (List.mem_reverse.mp hx)
  split at h
  · split at h
    · exact absurd h (by simp)
    · -- an object: the same of its entries
      next inner =>
      obtain ⟨⟨fields, cs'⟩, h_fields, h⟩ := exists_of_bind_eq_ok h
      obtain ⟨rfl, -⟩ := Prod.mk.inj (Except.ok.inj h)
      have h_collect : ∀ fields : List (String × Json), (∀ f ∈ fields, f.2.IsFinite) →
          ((collectEntries inner).reader fields).Ensures fun fields => ∀ f ∈ fields, f.2.IsFinite :=
        fun fields h_fields => ensures_entry fun key =>
          (h_inner inner rfl).map fun x hx => List.forall_mem_cons.mpr ⟨hx, h_fields⟩
      have h_all := ensures_readItems h_collect (by simp) h_fields
      exact .obj fun f hf => h_all f (List.mem_reverse.mp hf)
  · exact isFinite_of_readScalar h

/-- **Whatever is read from a JSON text is finite.** -/
theorem ensures_value (levels : ℕ) : (value levels).Ensures IsFinite := by
  -- on the levels: arrays and objects hold documents of one level less
  induction levels with
  | zero => exact fun cs x rest h => isFinite_of_readDocument none (by simp) h
  | succ levels ih =>
    refine fun cs x rest h =>
      isFinite_of_readDocument (some (value levels)) (fun reader h_reader => ?_) h
    exact Option.some.inj h_reader ▸ ih

end Json

end Eligibility
