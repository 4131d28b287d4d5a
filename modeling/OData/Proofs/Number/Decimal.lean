import OData.Number.Decimal
import OData.Proofs.Http.Message
import OData.Proofs.Number.Numeral
import OData.Proofs.Number.Rounded

/-!
Decimals as text and as doubles. The text is exact. The way to a double goes through several roundings,
none of which can overflow; for a decimal of at most 15 digits and 22 places the last one alone changes
the number.
-/

namespace OData.Number

/-- What stands before the point of a decimal, which has a zero there if nothing else. -/
theorem isWhole_padded (n places : Nat) : Json.IsWhole ((Text.paddedDecimal (places + 1) n).take
    ((Text.paddedDecimal (places + 1) n).length - places)) := by
  have hlength := length_decimal_pos n
  rcases Nat.lt_or_ge places (Text.decimal n).length with hlong | hshort
  · have hpadded : Text.paddedDecimal (places + 1) n = Text.decimal n := by
      rw [Text.paddedDecimal, Nat.sub_eq_zero_of_le hlong]
      rfl
    rw [hpadded]
    rcases Nat.eq_zero_or_pos n with rfl | hn
    · obtain rfl : places = 0 := Nat.lt_one_iff.1 hlong
      exact isWhole_zero
    · exact isWhole_take hn (Nat.sub_pos_of_lt hlong)
  · have hpadded : Text.paddedDecimal (places + 1) n =
        '0' :: (List.replicate (places - (Text.decimal n).length) '0' ++ Text.decimal n) := by
      rw [Text.paddedDecimal, Nat.sub_add_comm hshort]
      rfl
    rw [hpadded, List.length_cons, List.length_append, List.length_replicate,
      show places - (Text.decimal n).length + (Text.decimal n).length + 1 - places = 1 by omega]
    exact isWhole_zero

namespace Decimal

/-- The number without its sign. -/
def magnitude (d : Decimal) : Rat :=
  d.significand / (10 ^ d.scale : Nat)

theorem toRat_eq (d : Decimal) : d.toRat = if d.negative then -d.magnitude else d.magnitude := by
  have hunit : ((Nat.pow 10 d.scale : Nat) : Rat) = (10 ^ d.scale : Nat) := rfl
  rw [toRat, hunit, unscaled, magnitude]
  split
  · rw [Int.cast_neg, Int.cast_natCast, neg_div]
  · rw [Int.cast_natCast]

theorem magnitude_eq_zpow (d : Decimal) : d.magnitude = d.significand * 10 ^ (-d.scale : Int) := by
  rw [magnitude, zpow_neg, zpow_natCast, Nat.cast_pow, Nat.cast_ofNat, div_eq_mul_inv]

/-- A decimal's text stands for the decimal. -/
theorem denoted?_chars (d : Decimal) : denoted? d.chars = some d.toRat := by
  have hwhole := isWhole_padded d.significand d.scale
  have hvalue := Text.digitsValue_paddedDecimal (d.scale + 1) d.significand
  have hd (c : Char) (hc : c ∈ Text.paddedDecimal (d.scale + 1) d.significand) : c.isDigit :=
    Text.isDigit_of_mem_paddedDecimal hc
  have hlength : d.scale ≤ (Text.paddedDecimal (d.scale + 1) d.significand).length := by
    rw [Text.paddedDecimal, List.length_append, List.length_replicate]
    omega
  rw [toRat_eq, magnitude_eq_zpow]
  simp only [chars]
  generalize Text.paddedDecimal (d.scale + 1) d.significand = padded at *
  generalize hcut : padded.length - d.scale = cut at *
  by_cases hscale : d.scale = 0
  · obtain rfl : cut = padded.length := by omega
    rw [List.take_length] at hwhole ⊢
    apply denoted?_of_eq_chars (.of_none hwhole d.negative none)
    · simp [hscale, Json.Numeral.chars]
    · apply magnitude_eq
      · rw [Option.getD_none, List.append_nil, hvalue]
      · rw [hscale]
        rfl
  · have hne : padded.drop cut ≠ [] := by
      rw [Ne, List.drop_eq_nil_iff]
      omega
    have hplaces : ∀ c ∈ padded.drop cut, c.isDigit := fun c hc ↦ hd c (List.mem_of_mem_drop hc)
    apply denoted?_of_eq_chars (.of_some hwhole hne hplaces d.negative none)
    · simp [hscale, Json.Numeral.chars]
    · apply magnitude_eq
      · rw [Option.getD_some, List.take_append_drop, hvalue]
      · rw [Option.getD_some, Option.getD_none, List.length_drop]
        omega

end Decimal

namespace Decimal

variable {d : Decimal}

def unitDouble (d : Decimal) : Rat :=
  rounded (10 ^ d.scale : Nat)

def wholeDouble (d : Decimal) : Rat :=
  rounded (d.significand / 10 ^ d.scale : Nat)

def fractionDouble (d : Decimal) : Rat :=
  rounded (rounded (d.significand % 10 ^ d.scale : Nat) / d.unitDouble)

def sumDouble (d : Decimal) : Rat :=
  rounded (d.wholeDouble + d.fractionDouble)

/-- The sum of both parts, with the point moved behind the last digit. -/
def shiftedDouble (d : Decimal) : Rat :=
  rounded (d.sumDouble * d.unitDouble)

theorem toDouble_of_scale_eq (h : d.scale = 0) :
    d.toDouble = .ofRat (decide (d.unscaled < 0)) d.significand := by
  have hmagnitude : d.unscaled.natAbs = d.significand := by
    rw [unscaled]
    split <;> omega
  rw [toDouble, if_pos h, Double.ofInt, hmagnitude]

theorem toDouble_of_scale_ne (h : d.scale ≠ 0) : d.toDouble = .ofRat d.negative
    (if d.fractionDouble = 0 then d.wholeDouble
      else rounded (nearestNat .up d.shiftedDouble : Nat) / d.unitDouble) := by
  rw [toDouble, if_neg h, apply_ite (Double.ofRat d.negative)]
  rfl

section Moderate

theorem moderate_unit (d : Decimal) : Moderate 95 d.unitDouble :=
  (Moderate.natCast (pow_ten_le d.scale_le)).rounded (by decide)

theorem moderate_whole (d : Decimal) : Moderate 97 d.wholeDouble :=
  (Moderate.natCast ((Nat.div_le_self ..).trans d.significand_lt.le)).rounded (by decide)

theorem moderate_fraction (d : Decimal) : Moderate 193 d.fractionDouble := by
  have hrest : Moderate 97 (rounded (d.significand % 10 ^ d.scale : Nat)) :=
    (Moderate.natCast ((Nat.mod_le ..).trans d.significand_lt.le)).rounded (by decide)
  exact (hrest.div d.moderate_unit).rounded (by decide)

theorem moderate_parts (d : Decimal) : Moderate 194 (d.wholeDouble + d.fractionDouble) :=
  (d.moderate_whole.mono (by decide)).add d.moderate_fraction

theorem moderate_sum (d : Decimal) : Moderate 195 d.sumDouble :=
  d.moderate_parts.rounded (by decide)

theorem moderate_shifted (d : Decimal) : Moderate 291 d.shiftedDouble :=
  (d.moderate_sum.mul d.moderate_unit).rounded (by decide)

end Moderate

theorem unit_pos (d : Decimal) : (0 : Rat) < (10 ^ d.scale : Nat) :=
  Nat.cast_pos.2 (Nat.pow_pos (by decide))

/-- The parts of a decimal make up the decimal. -/
theorem whole_add_rest (d : Decimal) : ((d.significand / 10 ^ d.scale : Nat) : Rat) +
    (d.significand % 10 ^ d.scale : Nat) / (10 ^ d.scale : Nat) = d.magnitude := by
  have hparts : ((10 ^ d.scale : Nat) : Rat) * (d.significand / 10 ^ d.scale : Nat) +
      (d.significand % 10 ^ d.scale : Nat) = d.significand := by
    rw [← Nat.cast_mul, ← Nat.cast_add, Nat.div_add_mod]
  rw [magnitude, ← hparts, add_div, mul_div_cancel_left₀ _ d.unit_pos.ne']

/-- Few enough digits and places for a double. -/
structure FitsDouble (d : Decimal) : Prop where
  significand_lt : d.significand < 10 ^ 15
  scale_le : d.scale ≤ 22

namespace FitsDouble

theorem unit_eq (h : d.FitsDouble) : d.unitDouble = (10 ^ d.scale : Nat) :=
  rounded_pow h.scale_le

theorem whole_eq (h : d.FitsDouble) : d.wholeDouble = (d.significand / 10 ^ d.scale : Nat) := by
  have hlt := h.significand_lt
  apply rounded_natCast
  exact lt_of_le_of_lt (Nat.div_le_self ..) (by omega)

theorem rest_eq (h : d.FitsDouble) :
    rounded (d.significand % 10 ^ d.scale : Nat) = (d.significand % 10 ^ d.scale : Nat) := by
  have hlt := h.significand_lt
  apply rounded_natCast
  exact lt_of_le_of_lt (Nat.mod_le ..) (by omega)

theorem fraction_eq (h : d.FitsDouble) : d.fractionDouble =
    rounded ((d.significand % 10 ^ d.scale : Nat) / (10 ^ d.scale : Nat)) := by
  rw [fractionDouble, h.rest_eq, h.unit_eq]

variable (h : d.FitsDouble) (hrest : 0 < d.significand % 10 ^ d.scale)

include h hrest

theorem fraction_within : 0 < d.fractionDouble ∧ Within 1 d.fractionDouble
    ((d.significand % 10 ^ d.scale : Nat) / (10 ^ d.scale : Nat)) := by
  have hmoderate : Moderate 96 ((d.significand % 10 ^ d.scale : Nat) : Rat) :=
    Moderate.natCast ((Nat.mod_le ..).trans d.significand_lt.le)
  have hquotient : Ordinary ((d.significand % 10 ^ d.scale : Nat) / (10 ^ d.scale : Nat)) :=
    (hmoderate.div (Moderate.natCast (pow_ten_le d.scale_le))).ordinary (by decide)
      (div_pos (Nat.cast_pos.2 hrest) d.unit_pos).ne'
  rw [h.fraction_eq]
  exact ⟨hquotient.rounded_pos, hquotient.within⟩

theorem sum_within : 0 < d.sumDouble ∧ Within 2 d.sumDouble d.magnitude := by
  obtain ⟨hpos, hfraction⟩ := h.fraction_within hrest
  have hparts : Within 1 (d.wholeDouble + d.fractionDouble) d.magnitude := by
    rw [← whole_add_rest, ← h.whole_eq]
    exact hfraction.add_left d.moderate_whole.nonneg
  have hsum : Ordinary (d.wholeDouble + d.fractionDouble) :=
    d.moderate_parts.ordinary (by decide) (add_pos_of_nonneg_of_pos d.moderate_whole.nonneg hpos).ne'
  exact ⟨hsum.rounded_pos, hsum.within.trans hparts⟩

theorem shifted_within : Within 3 d.shiftedDouble d.significand := by
  obtain ⟨hpos, hsum⟩ := h.sum_within hrest
  have hunit : 0 < d.unitDouble := h.unit_eq ▸ d.unit_pos
  have hscaled : d.magnitude * d.unitDouble = d.significand := by
    rw [h.unit_eq, magnitude, div_mul_cancel₀ _ d.unit_pos.ne']
  have hproduct : Within 2 (d.sumDouble * d.unitDouble) d.significand :=
    hscaled ▸ hsum.mul_right hunit.le
  have hshifted : Ordinary (d.sumDouble * d.unitDouble) :=
    (d.moderate_sum.mul d.moderate_unit).ordinary (by decide) (mul_pos hpos hunit).ne'
  exact hshifted.within.trans hproduct

omit hrest

/-- Of a decimal that fits, the digits come through, and the last rounding starts from the decimal. -/
theorem toDouble_eq :
    (if d.fractionDouble = 0 then d.wholeDouble
      else rounded (nearestNat .up d.shiftedDouble : Nat) / d.unitDouble) = d.magnitude := by
  rcases Nat.eq_zero_or_pos (d.significand % 10 ^ d.scale) with hrest | hrest
  · have hparts := whole_add_rest d
    rw [hrest, Nat.cast_zero, zero_div, add_zero] at hparts
    rw [h.fraction_eq, hrest, Nat.cast_zero, zero_div, rounded_zero, if_pos rfl, h.whole_eq, hparts]
  · have hnearest : nearestNat .up d.shiftedDouble = d.significand :=
      nearestNat_eq .up d.moderate_shifted.nonneg ((h.shifted_within hrest).sub_lt h.significand_lt)
    have hlt := h.significand_lt
    rw [if_neg (h.fraction_within hrest).1.ne', hnearest, rounded_natCast (by omega), h.unit_eq, magnitude]

end FitsDouble

/-- No decimal is too large or too small for a double, and one that fits is rounded to its own. -/
theorem exists_toDouble (d : Decimal) : ∃ negative x, d.toDouble = .ofRat negative x ∧
    Moderate 1022 x ∧
    (d.FitsDouble → x = d.magnitude ∧ d.toRat = if negative then -d.magnitude else d.magnitude) := by
  by_cases h : d.scale = 0
  · have hmagnitude : d.magnitude = d.significand := by
      rw [magnitude, h, pow_zero, Nat.cast_one, div_one]
    refine ⟨_, _, toDouble_of_scale_eq h, (Moderate.natCast d.significand_lt.le).mono (by decide),
      fun _ ↦ ⟨hmagnitude.symm, ?_⟩⟩
    rw [d.toRat_eq, hmagnitude, unscaled]
    cases d.negative
    · simp
    · -- A zero without places loses its sign on the way, which makes no difference to the number.
      rcases Nat.eq_zero_or_pos d.significand with hzero | hpos
      · simp [hzero]
      · simp [hpos]
  · refine ⟨_, _, toDouble_of_scale_ne h, ?_, fun hfits ↦ ⟨hfits.toDouble_eq, d.toRat_eq⟩⟩
    split
    · exact d.moderate_whole.mono (by decide)
    · have hnearest := (d.moderate_shifted.nearestNat .up).rounded (by decide)
      exact (hnearest.div d.moderate_unit).mono (by decide)

end Decimal

end OData.Number
