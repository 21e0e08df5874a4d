/-
A number is read back from its text. Rounding leaves a magnitude as it is
(`nearest_units`), so the shortest numeral reads back, on whatever grid it is
found (`magnitude_shortest`); and a numeral is read off its digits, those
before the point and those after it (`ofDigits_whole_fraction`).
-/
import Lox.Number.Shortest
import Mathlib.Algebra.Group.Nat.Defs

namespace Lox

/-! ## Magnitudes -/

namespace Magnitude

theorem ext_word {m m' : Magnitude} (h : m.word = m'.word) : m = m' := by
  cases m
  cases m'
  cases h
  rfl

theorem word_nearest (n d : Nat) : (nearest n d).word =
    min ((Nat.log2 (n / d) - 52) * Nat.pow 2 52 +
      roundDiv n (d * Nat.pow 2 (Nat.log2 (n / d) - 52))) (2047 * Nat.pow 2 52) := rfl

theorem roundDiv_mul (a : Nat) {b : Nat} (hb : 0 < b) : roundDiv (a * b) b = a := by
  simp [roundDiv, Nat.mul_div_cancel a hb, hb]

/-- What the word holds besides the scale: the significand. -/
def significand (m : Magnitude) : Nat := m.word - m.scale * Nat.pow 2 52

theorem units_eq (m : Magnitude) : m.units = m.significand * 2 ^ m.scale := rfl

theorem scale_mul_add_significand (m : Magnitude) :
    m.scale * Nat.pow 2 52 + m.significand = m.word := by
  have hscale : m.scale = m.word / 2 ^ 52 - 1 := rfl
  have hsignificand : m.significand = m.word - m.scale * 2 ^ 52 := rfl
  show m.scale * 2 ^ 52 + m.significand = m.word
  omega

/-- A significand has 53 bits, and fewer only without a scale. -/
theorem significand_cases (m : Magnitude) :
    m.scale = 0 ∧ m.significand < 2 ^ 53 ∨
      2 ^ 52 ≤ m.significand ∧ m.significand < 2 ^ 53 := by
  have hscale : m.scale = m.word / 2 ^ 52 - 1 := rfl
  have hsignificand : m.significand = m.word - m.scale * 2 ^ 52 := rfl
  omega

/-- The scale is told by the number of units. -/
theorem log2_units (m : Magnitude) : Nat.log2 m.units - 52 = m.scale := by
  rw [units_eq]
  rcases m.significand_cases with ⟨hscale, hlt⟩ | ⟨hle, hlt⟩
  · rw [hscale, Nat.pow_zero, Nat.mul_one]
    by_cases hzero : m.significand = 0
    · rw [hzero]
      rfl
    · have hlog := (Nat.log2_lt hzero).2 hlt
      omega
  · have hpos : 0 < 2 ^ m.scale := Nat.two_pow_pos m.scale
    have hne : m.significand * 2 ^ m.scale ≠ 0 := by
      have hunits := Nat.mul_pos (show 0 < m.significand by omega) hpos
      omega
    have hlog : Nat.log2 (m.significand * 2 ^ m.scale) = 52 + m.scale := by
      rw [Nat.log2_eq_iff hne, Nat.pow_add]
      refine ⟨Nat.mul_le_mul_right _ hle, ?_⟩
      calc m.significand * 2 ^ m.scale
        _ < 2 ^ 53 * 2 ^ m.scale := Nat.mul_lt_mul_of_pos_right hlt hpos
        _ = 2 ^ (52 + m.scale + 1) := by rw [← Nat.pow_add, Nat.add_right_comm]
    omega

/-- **What is representable is not rounded**, however the quotient is
written. -/
theorem nearest_units (m : Magnitude) {d : Nat} (hd : 0 < d) : nearest (m.units * d) d = m := by
  have hscale : Nat.log2 (m.units * d / d) - 52 = m.scale := by
    rw [Nat.mul_div_cancel _ hd, log2_units]
  have hsplit : m.units * d = m.significand * (d * Nat.pow 2 m.scale) := by
    rw [units_eq, Nat.pow_eq, Nat.mul_assoc, Nat.mul_comm d]
  have hround : roundDiv (m.units * d) (d * Nat.pow 2 m.scale) = m.significand := by
    rw [hsplit]
    exact roundDiv_mul _ (Nat.mul_pos hd (Nat.two_pow_pos m.scale))
  have hword : (nearest (m.units * d) d).word = m.word := by
    rw [word_nearest, hscale, hround, scale_mul_add_significand]
    exact Nat.min_eq_left m.word_le
  exact ext_word hword

theorem magnitude_of_onGrid? {m : Magnitude} {step : Int} {d : Decimal}
    (h : m.onGrid? step = some d) : d.magnitude = m := by
  unfold onGrid? at h
  -- The neighbours are numerals of any length: only what they read as counts.
  extract_lets n denominator lower upper at h
  clear_value lower upper n denominator
  by_cases hlower : lower.magnitude = m
  · rw [if_pos hlower] at h
    obtain rfl := Option.some.inj h
    split
    · next hupper => exact hupper.1
    · exact hlower
  · rw [if_neg hlower] at h
    split at h
    · next hupper => exact Option.some.inj h ▸ hupper
    · cases h

/-- Written out in full, a magnitude reads back: its numeral is its units by
tens. -/
theorem magnitude_expansion (m : Magnitude) : m.expansion.magnitude = m := by
  unfold Decimal.magnitude expansion one
  generalize 1074 = k
  have htens : m.units * Nat.pow 5 k * Nat.pow 2 k = m.units * Nat.pow 10 k := by
    rw [Nat.mul_assoc, Nat.pow_eq, Nat.pow_eq, Nat.pow_eq, ← Nat.mul_pow]
  rw [htens]
  exact nearest_units m (Nat.pow_pos (by decide))

/-- The shortest numeral reads back. -/
theorem magnitude_shortest (m : Magnitude) : m.shortest.magnitude = m := by
  rw [shortest]
  cases h : m.grids.findSome? m.onGrid? with
  | none => exact m.magnitude_expansion
  | some d =>
    obtain ⟨step, -, hgrid⟩ := List.exists_of_findSome?_eq_some h
    exact magnitude_of_onGrid? hgrid

end Magnitude

/-! ## Numerals -/

namespace Decimal

/-- The digits before the point. -/
def whole (d : Decimal) : List Char := Nat.toDigits 10 (d.digits / Nat.pow 10 d.places)

/-- The digits after the point, if there is one. -/
def fraction (d : Decimal) : List Char :=
  if d.places = 0 then [] else padded d.places (d.digits % Nat.pow 10 d.places)

theorem length_padded {width n : Nat} (hwidth : 0 < width) (hn : n < 10 ^ width) :
    (padded width n).length = width := by
  have hle := (Nat.length_toDigits_le_iff (b := 10) (by decide) hwidth).2 hn
  rw [padded, List.length_append, List.length_replicate]
  omega

theorem ofDigitChars_padded (width n : Nat) : Nat.ofDigitChars 10 (padded width n) 0 = n := by
  rw [padded, Nat.ofDigitChars_append, Nat.ofDigitChars_replicate_zero, Nat.mul_zero,
    Nat.ofDigitChars_ten_toDigits]

theorem isDigit_of_mem_padded {width n : Nat} {c : Char} (h : c ∈ padded width n) :
    c.isDigit = true := by
  rw [padded, List.mem_append, List.mem_replicate] at h
  rcases h with ⟨-, rfl⟩ | h
  · rfl
  · exact Nat.isDigit_of_mem_toDigits (by decide) (by decide) h

theorem isDigit_of_mem_whole {d : Decimal} {c : Char} (h : c ∈ d.whole) : c.isDigit = true :=
  Nat.isDigit_of_mem_toDigits (by decide) (by decide) h

theorem isDigit_of_mem_fraction {d : Decimal} {c : Char} (h : c ∈ d.fraction) :
    c.isDigit = true := by
  rw [fraction] at h
  split at h
  · cases h
  · exact isDigit_of_mem_padded h

theorem length_fraction (d : Decimal) : d.fraction.length = d.places := by
  rw [fraction]
  split
  · next h => rw [h, List.length_nil]
  · next h => exact length_padded (Nat.pos_of_ne_zero h) (Nat.mod_lt _ (Nat.pow_pos (by decide)))

theorem ofDigitChars_fraction (d : Decimal) :
    Nat.ofDigitChars 10 d.fraction 0 = d.digits % 10 ^ d.places := by
  rw [fraction]
  split
  · next h => rw [h, Nat.ofDigitChars_nil, Nat.pow_zero, Nat.mod_one]
  · exact ofDigitChars_padded _ _

/-- A numeral is read off its digits. -/
theorem ofDigits_whole_fraction (d : Decimal) : ofDigits d.whole d.fraction = d := by
  have hdigits : Nat.ofDigitChars 10 (d.whole ++ d.fraction) 0 = d.digits := by
    rw [Nat.ofDigitChars_append, whole, Nat.ofDigitChars_ten_toDigits,
      Nat.ofDigitChars_eq_ofDigitChars_zero, length_fraction, ofDigitChars_fraction]
    exact Nat.div_add_mod d.digits (10 ^ d.places)
  rw [ofDigits, hdigits, length_fraction]

/-- What stands after the digits before the point. -/
def tail (d : Decimal) : List Char := if d.places = 0 then [] else '.' :: d.fraction

theorem chars_eq (d : Decimal) : d.chars = d.whole ++ d.tail := by
  rw [chars, whole, tail, fraction]
  split
  · next h => rw [h, Nat.pow_eq, Nat.pow_zero, Nat.div_one, List.append_nil]
  · rfl

/-- The characters of a numeral are digits, with at most a point. -/
theorem isDigit_or_point_of_mem_chars {d : Decimal} {c : Char} (h : c ∈ d.chars) :
    c.isDigit = true ∨ c = '.' := by
  rw [chars_eq, List.mem_append] at h
  rcases h with h | h
  · exact .inl (isDigit_of_mem_whole h)
  · rw [tail] at h
    split at h
    · cases h
    · rcases List.mem_cons.1 h with rfl | h
      · exact .inr rfl
      · exact .inl (isDigit_of_mem_fraction h)

end Decimal

end Lox
