import OData.Number.Shortest
import Mathlib.Algebra.Order.Field.Power
import Mathlib.Algebra.Order.AbsoluteValue.Basic
import Mathlib.Data.Rat.Cast.Order
import Mathlib.Tactic.FieldSimp
import Mathlib.Tactic.Linarith
import Mathlib.Tactic.NormNum
import Mathlib.Tactic.Positivity
import Mathlib.Tactic.Ring
import Mathlib.Tactic.SplitIfs

/-!
Rounding to the nearest double, for numbers that neither overflow nor fall among the subnormal ones:
how far the result is off, when it is not off at all, and that the number lies in the rounding
interval of the result.
-/

namespace OData.Number

theorem ite_pow_eq_zpow (b : Nat) (e : Int) :
    (if 0 ≤ e then (Nat.pow b e.toNat : Rat) else 1 / (Nat.pow b (-e).toNat : Rat)) = (b : Rat) ^ e := by
  split
  · obtain ⟨n, rfl⟩ := Int.eq_ofNat_of_zero_le ‹0 ≤ e›
    simp
  · obtain ⟨n, hn⟩ := Int.eq_ofNat_of_zero_le (show 0 ≤ -e by omega)
    obtain rfl : e = -(n : Int) := by omega
    simp

theorem powTwo_eq (e : Int) : powTwo e = 2 ^ e :=
  ite_pow_eq_zpow 2 e

theorem powTen_eq (e : Int) : powTen e = 10 ^ e :=
  ite_pow_eq_zpow 10 e

theorem eq_of_abs_sub_lt_one {a b : Nat} (h : |(a : Rat) - b| < 1) : a = b := by
  have hint : |(a : Int) - b| < 1 := by exact_mod_cast h
  rw [Int.abs_lt_one_iff] at hint
  omega

section NearestNat

variable {x : Rat}

theorem floor_toNat_le (h : 0 ≤ x) : (x.floor.toNat : Rat) ≤ x ∧ x < x.floor.toNat + 1 := by
  have hfloor : ((x.floor.toNat : Int) : Rat) = x.floor := by
    rw [Int.toNat_of_nonneg (Rat.le_floor_iff.2 (by simpa using h))]
  have hle := Rat.floor_le x
  have hlt := Rat.lt_floor_add_one x
  push_cast at hfloor hlt
  rw [hfloor]
  exact ⟨hle, hlt⟩

theorem nearestNat_sub_le (tie : Tie) (h : 0 ≤ x) : |(nearestNat tie x : Rat) - x| ≤ 1 / 2 := by
  obtain ⟨hle, hlt⟩ := floor_toNat_le h
  rw [abs_le]
  cases tie <;> simp only [nearestNat] <;> split_ifs <;> push_cast <;> constructor <;> linarith

/-- Only a tie is as far as a half from the number, and it goes to the even neighbour. -/
theorem nearestNat_even (h : 0 ≤ x) :
    nearestNat .toEven x % 2 = 0 ∨ |(nearestNat .toEven x : Rat) - x| < 1 / 2 := by
  obtain ⟨hle, hlt⟩ := floor_toNat_le h
  rw [abs_lt]
  simp only [nearestNat]
  split_ifs with hbelow habove heven
  · right
    constructor <;> linarith
  · right
    push_cast
    constructor <;> linarith
  · exact .inl heven
  · left
    omega

theorem nearestNat_eq (tie : Tie) (h : 0 ≤ x) {n : Nat} (hn : |x - n| < 1 / 2) :
    nearestNat tie x = n := by
  have hnear := abs_le.1 (nearestNat_sub_le tie h)
  have hclose := abs_lt.1 hn
  apply eq_of_abs_sub_lt_one
  rw [abs_lt]
  constructor <;> linarith

theorem nearestNat_natCast (tie : Tie) (n : Nat) : nearestNat tie (n : Rat) = n :=
  nearestNat_eq tie (Nat.cast_nonneg n) (by simp)

end NearestNat

section Binade

theorem zpow_log2_le {n : Nat} (h : 0 < n) : (2 : Rat) ^ (n.log2 : Int) ≤ n := by
  rw [zpow_natCast]
  exact_mod_cast Nat.log2_self_le h.ne'

theorem lt_zpow_log2 (n : Nat) : (n : Rat) < 2 ^ ((n.log2 : Int) + 1) := by
  have hlt : n < 2 ^ (n.log2 + 1) := Nat.lt_log2_self
  exact_mod_cast hlt

theorem zpow_le_div {a b : Nat} (ha : 0 < a) (hb : 0 < b) :
    (2 : Rat) ^ ((a.log2 : Int) - b.log2 - 1) ≤ a / b := by
  have hpos : (0 : Rat) < b := Nat.cast_pos.2 hb
  have hsum : (a.log2 : Int) - b.log2 - 1 + (b.log2 + 1) = a.log2 := by omega
  rw [le_div_iff₀ hpos]
  calc (2 : Rat) ^ ((a.log2 : Int) - b.log2 - 1) * b
      ≤ 2 ^ ((a.log2 : Int) - b.log2 - 1) * 2 ^ ((b.log2 : Int) + 1) :=
        mul_le_mul_of_nonneg_left (lt_zpow_log2 b).le (by positivity)
    _ = 2 ^ (a.log2 : Int) := by rw [← zpow_add₀ two_ne_zero, hsum]
    _ ≤ a := zpow_log2_le ha

theorem div_lt_zpow (a : Nat) {b : Nat} (hb : 0 < b) :
    (a / b : Rat) < 2 ^ ((a.log2 : Int) - b.log2 + 1) := by
  have hpos : (0 : Rat) < b := Nat.cast_pos.2 hb
  have hsum : (a.log2 : Int) - b.log2 + 1 + b.log2 = a.log2 + 1 := by omega
  rw [div_lt_iff₀ hpos]
  calc (a : Rat) < 2 ^ ((a.log2 : Int) + 1) := lt_zpow_log2 a
    _ = 2 ^ ((a.log2 : Int) - b.log2 + 1) * 2 ^ (b.log2 : Int) := by
        rw [← zpow_add₀ two_ne_zero, hsum]
    _ ≤ 2 ^ ((a.log2 : Int) - b.log2 + 1) * b :=
        mul_le_mul_of_nonneg_left (zpow_log2_le hb) (by positivity)

theorem binade_spec {x : Rat} (h : 0 < x) :
    (2 : Rat) ^ FloatShape.binade x ≤ x ∧ x < 2 ^ (FloatShape.binade x + 1) := by
  have hnum : 0 < x.num := Rat.num_pos.2 h
  have hx : (x.num.natAbs / x.den : Rat) = x := by
    rw [Nat.cast_natAbs, abs_of_pos hnum, Rat.num_div_den]
  have hlow := zpow_le_div (Int.natAbs_pos.2 hnum.ne') x.den_pos
  have hhigh := div_lt_zpow x.num.natAbs x.den_pos
  rw [hx] at hlow hhigh
  simp only [FloatShape.binade, powTwo_eq]
  split
  · rw [Int.sub_add_cancel]
    exact ⟨hlow, ‹_›⟩
  · exact ⟨not_lt.1 ‹_›, hhigh⟩

end Binade

/-- Neither so small that a double has fewer digits for it, nor so large that it may have none. -/
structure Ordinary (x : Rat) : Prop where
  low : 2 ^ (-1022 : Int) ≤ x
  high : x < 2 ^ (1023 : Int)

/-- A significand with all its digits, and an exponent of a double. -/
structure Normal (significand : Nat) (exponent : Int) : Prop where
  low : 2 ^ 52 ≤ significand
  high : significand < 2 ^ 53
  min : -1074 ≤ exponent

theorem Ordinary.pos {x : Rat} (h : Ordinary x) : 0 < x :=
  lt_of_lt_of_le (by positivity) h.low

/-- The exponent of the last digit that is kept of a number. -/
def step (x : Rat) : Int :=
  FloatShape.binade x - 52

/-- The digits that are kept. -/
def kept (x : Rat) : Nat :=
  nearestNat .toEven (x / 2 ^ step x)

namespace Ordinary

variable {x : Rat}

theorem step_bounds (h : Ordinary x) : -1074 ≤ step x ∧ step x ≤ 970 := by
  obtain ⟨hlow, hhigh⟩ := binade_spec h.pos
  have hmin : (2 : Rat) ^ (-1022 : Int) < 2 ^ (FloatShape.binade x + 1) := h.low.trans_lt hhigh
  have hmax : (2 : Rat) ^ FloatShape.binade x < 2 ^ (1023 : Int) := hlow.trans_lt h.high
  rw [zpow_lt_zpow_iff_right₀ one_lt_two] at hmin hmax
  rw [step]
  omega

theorem scaled_bounds (h : Ordinary x) :
    (2 : Rat) ^ 52 ≤ x / 2 ^ step x ∧ x / 2 ^ step x < 2 ^ 53 := by
  obtain ⟨hlow, hhigh⟩ := binade_spec h.pos
  have hpos : (0 : Rat) < 2 ^ step x := by positivity
  have hsum : FloatShape.binade x = 52 + step x := by
    rw [step]
    omega
  rw [hsum, zpow_add₀ two_ne_zero] at hlow
  rw [show FloatShape.binade x + 1 = 53 + step x by omega, zpow_add₀ two_ne_zero] at hhigh
  exact ⟨(le_div_iff₀ hpos).2 hlow, (div_lt_iff₀ hpos).2 hhigh⟩

theorem kept_bounds (h : Ordinary x) : 2 ^ 52 ≤ kept x ∧ kept x ≤ 2 ^ 53 := by
  obtain ⟨hlow, hhigh⟩ := h.scaled_bounds
  have hnonneg : 0 ≤ x / 2 ^ step x := le_trans (by positivity) hlow
  have hnear := abs_le.1 (nearestNat_sub_le .toEven hnonneg)
  have hmin : ((2 ^ 52 : Nat) : Rat) < (kept x + 1 : Nat) := by
    push_cast [kept]
    linarith
  have hmax : (kept x : Rat) < (2 ^ 53 + 1 : Nat) := by
    push_cast [kept]
    linarith
  rw [Nat.cast_lt] at hmin hmax
  omega

theorem kept_sub_eq (x : Rat) :
    |(kept x : Rat) * 2 ^ step x - x| = |(kept x : Rat) - x / 2 ^ step x| * 2 ^ step x := by
  have hpos : (0 : Rat) < 2 ^ step x := by positivity
  rw [← abs_of_pos hpos, ← abs_mul, abs_of_pos hpos, sub_mul, div_mul_cancel₀ x hpos.ne']

/-- What is left out of a number is at most half of its last digit. -/
theorem kept_sub_le (h : Ordinary x) : |(kept x : Rat) * 2 ^ step x - x| ≤ 2 ^ (step x - 1) := by
  have hpos : (0 : Rat) < 2 ^ step x := by positivity
  have hnear : |(kept x : Rat) - x / 2 ^ step x| ≤ 1 / 2 :=
    nearestNat_sub_le .toEven (div_pos h.pos hpos).le
  rw [kept_sub_eq, zpow_sub_one₀ two_ne_zero]
  linarith [mul_le_mul_of_nonneg_right hnear hpos.le]

theorem kept_even (h : Ordinary x) :
    kept x % 2 = 0 ∨ |(kept x : Rat) * 2 ^ step x - x| < 2 ^ (step x - 1) := by
  have hpos : (0 : Rat) < 2 ^ step x := by positivity
  apply (nearestNat_even (div_pos h.pos hpos).le).imp id
  intro hnear
  rw [kept_sub_eq, zpow_sub_one₀ two_ne_zero, kept]
  linarith [mul_lt_mul_of_pos_right hnear hpos]

/-- A number whose digits fit is kept as it is. -/
theorem kept_eq (h : Ordinary x) {n : Nat} {e : Int} (hn : n < 2 ^ 53) (hx : x = n * 2 ^ e) :
    (kept x : Rat) * 2 ^ step x = x := by
  obtain ⟨hlow, -⟩ := binade_spec h.pos
  have hbound : (2 : Rat) ^ FloatShape.binade x < 2 ^ (53 + e) := by
    have hcast : (n : Rat) < 2 ^ 53 := by exact_mod_cast hn
    rw [zpow_add₀ two_ne_zero]
    exact lt_of_le_of_lt (hx ▸ hlow) (mul_lt_mul_of_pos_right hcast (by positivity))
  rw [zpow_lt_zpow_iff_right₀ one_lt_two] at hbound
  obtain ⟨k, hk⟩ := Int.eq_ofNat_of_zero_le (show 0 ≤ e - step x by rw [step]; omega)
  have hscaled : x / 2 ^ step x = (n * 2 ^ k : Nat) := by
    calc x / 2 ^ step x = n * (2 ^ e / 2 ^ step x) := by rw [← mul_div_assoc, ← hx]
      _ = n * 2 ^ (k : Int) := by rw [← zpow_sub₀ two_ne_zero, hk]
      _ = (n * 2 ^ k : Nat) := by push_cast [zpow_natCast]; rfl
  rw [kept, hscaled, nearestNat_natCast, ← hscaled, div_mul_cancel₀]
  positivity

theorem nearestBits_eq (h : Ordinary x) :
    binary64.nearestBits x = (step x + 1074).toNat * 2 ^ 52 + kept x := by
  obtain ⟨hmin, hmax⟩ := h.step_bounds
  obtain ⟨-, hkept⟩ := h.kept_bounds
  have hstep : max (FloatShape.binade x - ((binary64.precision - 1 : Nat) : Int))
      binary64.minExponent = step x := max_eq_left hmin
  have hinfinity : binary64.infinityBits = 2047 * 2 ^ 52 := rfl
  have hnormal : binary64.leastNormal = 2 ^ 52 := rfl
  have hexponent : step x - binary64.minExponent = step x + 1074 := rfl
  simp only [FloatShape.nearestBits, if_neg h.pos.ne', hstep, powTwo_eq, hinfinity, hnormal,
    hexponent]
  rw [← kept]
  omega

end Ordinary

theorem datum_eq {biased significand : Nat} (hbiased : biased < 2046) (hlow : 2 ^ 52 ≤ significand)
    (hhigh : significand < 2 ^ 53) (negative : Bool) :
    binary64.datum (biased * 2 ^ 52 + significand + if negative then binary64.signWeight else 0) =
      .finite negative significand (biased - 1074) := by
  have hweight : binary64.signWeight = 2048 * 2 ^ 52 := rfl
  have hnormal : binary64.leastNormal = 2 ^ 52 := rfl
  have hspecial : binary64.specialExponent = 2047 := rfl
  have hmin : binary64.minExponent = -1074 := rfl
  have hsign : decide (2048 * 2 ^ 52 ≤
      biased * 2 ^ 52 + significand + if negative then 2048 * 2 ^ 52 else 0) = negative := by
    cases negative
    · exact decide_eq_false (by simp only [Bool.false_eq_true, if_false]; omega)
    · exact decide_eq_true (by simp only [if_true]; omega)
  have hmagnitude : (biased * 2 ^ 52 + significand + if negative then 2048 * 2 ^ 52 else 0) %
      (2048 * 2 ^ 52) = biased * 2 ^ 52 + significand := by
    split <;> omega
  have hcarry : biased * 2 ^ 52 + significand = (biased + 1) * 2 ^ 52 + (significand - 2 ^ 52) := by
    omega
  have hrest : significand - 2 ^ 52 < 2 ^ 52 := by omega
  have hbits : (biased * 2 ^ 52 + significand) / 2 ^ 52 = biased + 1 := by omega
  have hfraction : (biased * 2 ^ 52 + significand) % 2 ^ 52 = significand - 2 ^ 52 := by
    rw [hcarry, Nat.mul_add_mod_self_right, Nat.mod_eq_of_lt hrest]
  simp only [FloatShape.datum, hweight, hnormal, hspecial, hmin, hsign, hmagnitude, hbits, hfraction]
  rw [if_neg (by omega), if_neg (by omega), Nat.add_sub_cancel' hlow, Nat.add_sub_cancel, Int.add_comm]
  rfl

/-- A carry out of the last digit makes a power of two, whose exponent is one higher. -/
theorem Ordinary.exists_datum {x : Rat} (h : Ordinary x) : ∃ n e, Normal n e ∧
    (n : Rat) * 2 ^ e = kept x * 2 ^ step x ∧
    (n = kept x ∧ e = step x ∨ n = 2 ^ 52 ∧ kept x = 2 ^ 53 ∧ e = step x + 1) ∧
    ∀ negative, binary64.datum (binary64.signedBits negative x) = .finite negative n e := by
  obtain ⟨hmin, hmax⟩ := h.step_bounds
  obtain ⟨hlow, hhigh⟩ := h.kept_bounds
  by_cases hcarry : kept x = 2 ^ 53
  · refine ⟨2 ^ 52, step x + 1, ⟨le_rfl, by decide, by omega⟩, ?_, .inr ⟨rfl, hcarry, rfl⟩, ?_⟩
    · rw [hcarry, zpow_add_one₀ two_ne_zero]
      push_cast
      ring
    · intro negative
      have hsum : (step x + 1074).toNat * 2 ^ 52 + kept x =
          ((step x + 1074).toNat + 1) * 2 ^ 52 + 2 ^ 52 := by omega
      rw [FloatShape.signedBits, h.nearestBits_eq, hsum, datum_eq (by omega) le_rfl (by decide)]
      congr 1
      omega
  · refine ⟨kept x, step x, ⟨hlow, by omega, hmin⟩, rfl, .inl ⟨rfl, rfl⟩, ?_⟩
    intro negative
    rw [FloatShape.signedBits, h.nearestBits_eq, datum_eq (by omega) hlow (by omega)]
    congr 1
    omega

theorem Ordinary.nearest?_eq {x : Rat} (h : Ordinary x) :
    binary64.nearest? x = some ((kept x : Rat) * 2 ^ step x) := by
  obtain ⟨n, e, -, hvalue, -, hdatum⟩ := h.exists_datum
  have hdatum : binary64.datum (binary64.nearestBits x) = .finite false n e := hdatum false
  rw [FloatShape.nearest?, hdatum]
  dsimp only
  rw [powTwo_eq, hvalue]

theorem RoundingInterval.contains_iff (i : RoundingInterval) (x : Rat) : i.contains x = true ↔
    i.low ≤ x ∧ x ≤ i.high ∧ (i.closed = true ∨ i.low < x ∧ x < i.high) := by
  unfold RoundingInterval.contains
  split
  · simp [*]
  · simp only [Bool.and_eq_true, decide_eq_true_iff]
    constructor
    · intro h
      exact ⟨h.1.le, h.2.le, .inr h⟩
    · intro h
      exact h.2.2.resolve_left ‹_›

/-- A number half a step or less from a datum rounds to it, except that below a power of two half a
step is half as long. -/
theorem roundingInterval_contains {n : Nat} {e : Int} {x : Rat}
    (hnear : |(n : Rat) * 2 ^ e - x| ≤ 2 ^ (e - 1))
    (heven : n % 2 = 0 ∨ |(n : Rat) * 2 ^ e - x| < 2 ^ (e - 1))
    (hbelow : n = 2 ^ 52 → (n : Rat) * 2 ^ e - 2 ^ (e - 2) ≤ x) :
    (binary64.roundingInterval n e).contains x = true := by
  have hhalf : (0 : Rat) < 2 ^ (e - 1) := by positivity
  have hnormal : binary64.leastNormal = 2 ^ 52 := rfl
  obtain ⟨hlow, hhigh⟩ := abs_le.1 hnear
  rw [RoundingInterval.contains_iff]
  simp only [FloatShape.roundingInterval, powTwo_eq, hnormal, Bool.and_eq_true, decide_eq_true_iff]
  by_cases hn : n = 2 ^ 52 ∧ binary64.minExponent < e
  · rw [if_pos hn]
    exact ⟨hbelow hn.1, by linarith, .inl (by rw [hn.1]; decide)⟩
  · rw [if_neg hn]
    refine ⟨by linarith, by linarith, heven.imp id fun hlt ↦ ?_⟩
    obtain ⟨hlow, hhigh⟩ := abs_lt.1 hlt
    constructor <;> linarith

/-- A number lies in the rounding interval of the double that it is rounded to. -/
theorem Ordinary.exists_contains {x : Rat} (h : Ordinary x) : ∃ n e, Normal n e ∧
    (binary64.roundingInterval n e).contains x = true ∧
    ∀ negative, binary64.datum (binary64.signedBits negative x) = .finite negative n e := by
  obtain ⟨n, e, hnormal, hvalue, hcases, hdatum⟩ := h.exists_datum
  obtain ⟨hmin, hmax⟩ := h.scaled_bounds
  have hpos : (0 : Rat) < 2 ^ step x := by positivity
  rw [le_div_iff₀ hpos] at hmin
  rw [div_lt_iff₀ hpos] at hmax
  refine ⟨n, e, hnormal, ?_, hdatum⟩
  have hnear := h.kept_sub_le
  have heven := h.kept_even
  rw [← hvalue] at hnear heven
  rcases hcases with ⟨rfl, rfl⟩ | ⟨rfl, hcarry, rfl⟩
  · apply roundingInterval_contains hnear heven
    intro hn
    have hquarter : (0 : Rat) < 2 ^ (step x - 2) := by positivity
    rw [hn]
    push_cast
    linarith
  · -- After a carry the number lies below a power of two, where half a step is the shorter one.
    have hhalf : (2 : Rat) ^ (step x - 1) ≤ 2 ^ (step x + 1 - 1) :=
      zpow_le_zpow_right₀ one_le_two (by omega)
    apply roundingInterval_contains (hnear.trans hhalf) (.inl (by decide))
    intro hn
    rw [show step x + 1 - 2 = step x - 1 by omega]
    linarith [(abs_le.1 hnear).2]

theorem signedBits_lt (negative : Bool) (x : Rat) : binary64.signedBits negative x < 2 ^ 64 := by
  have hinfinity : binary64.infinityBits = 2047 * 2 ^ 52 := rfl
  have hweight : binary64.signWeight = 2048 * 2 ^ 52 := rfl
  have hmagnitude : binary64.nearestBits x ≤ 2047 * 2 ^ 52 := by
    rw [FloatShape.nearestBits]
    split
    · omega
    · exact hinfinity ▸ Nat.min_le_left ..
  rw [FloatShape.signedBits, hweight]
  split <;> omega

theorem datum_ofRat (negative : Bool) (x : Rat) :
    (Double.ofRat negative x).datum = binary64.datum (binary64.signedBits negative x) := by
  rw [Double.datum, Double.ofRat, UInt64.toNat_ofNat', Nat.mod_eq_of_lt (signedBits_lt negative x)]

theorem datum_ofRat_zero (negative : Bool) :
    (Double.ofRat negative 0).datum = .finite negative 0 (-1074) := by
  rw [datum_ofRat]
  cases negative <;> decide

end OData.Number
