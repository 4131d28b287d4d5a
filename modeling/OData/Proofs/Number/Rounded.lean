import OData.Proofs.Number.Rounding

/-!
Calculations with rounded numbers: which sizes are safe from overflow, what each rounding adds to the
error, and which numbers no rounding changes.
-/

namespace OData.Number

/-- A number rounded, where the result is finite. -/
def rounded (x : Rat) : Rat :=
  (binary64.nearest? x).getD 0

theorem rounded_zero : rounded 0 = 0 := by
  have hdatum : binary64.datum (binary64.nearestBits 0) = .finite false 0 (-1074) := by decide
  rw [rounded, FloatShape.nearest?, hdatum]
  simp

section Rounded

variable {x : Rat}

theorem Ordinary.rounded_eq (h : Ordinary x) : rounded x = kept x * 2 ^ step x := by
  rw [rounded, h.nearest?_eq, Option.getD_some]

/-- Relative to the result, rounding takes away or adds at most one part in two to the 53rd. -/
theorem Ordinary.rounded_sub_le (h : Ordinary x) : |rounded x - x| ≤ rounded x / 2 ^ 53 := by
  have hcast : ((2 ^ 52 : Nat) : Rat) ≤ kept x := Nat.cast_le.2 h.kept_bounds.1
  have hpos : (0 : Rat) < 2 ^ step x := by positivity
  have hlast : (2 : Rat) ^ (step x - 1) ≤ kept x * 2 ^ step x / 2 ^ 53 := by
    rw [zpow_sub_one₀ two_ne_zero]
    push_cast at hcast
    linarith [mul_le_mul_of_nonneg_right hcast hpos.le]
  rw [h.rounded_eq]
  exact h.kept_sub_le.trans hlast

theorem Ordinary.rounded_pos (h : Ordinary x) : 0 < rounded x := by
  have hkept : 0 < kept x := lt_of_lt_of_le (by decide) h.kept_bounds.1
  rw [h.rounded_eq]
  positivity

/-- A number whose digits fit is not changed. -/
theorem Ordinary.rounded_eq_self (h : Ordinary x) {n : Nat} {e : Int} (hn : n < 2 ^ 53)
    (hx : x = n * 2 ^ e) : rounded x = x := by
  rw [h.rounded_eq, h.kept_eq hn hx]

end Rounded

/-- Zero, or between two to the minus `k` and two to the `k`. -/
def Moderate (k : Nat) (x : Rat) : Prop :=
  x = 0 ∨ 2 ^ (-k : Int) ≤ x ∧ x ≤ 2 ^ (k : Int)

namespace Moderate

variable {k l : Nat} {x y : Rat}

theorem nonneg (h : Moderate k x) : 0 ≤ x := by
  rcases h with rfl | ⟨h, -⟩
  · exact le_rfl
  · exact le_trans (by positivity) h

theorem le (h : Moderate k x) : x ≤ 2 ^ (k : Int) := by
  rcases h with rfl | ⟨-, h⟩
  · positivity
  · exact h

theorem mono (h : Moderate k x) (hkl : k ≤ l) : Moderate l x := by
  apply h.imp id
  intro h
  exact ⟨(zpow_le_zpow_right₀ one_le_two (by omega)).trans h.1,
    h.2.trans (zpow_le_zpow_right₀ one_le_two (by omega))⟩

theorem natCast {n : Nat} (h : n ≤ 2 ^ k) : Moderate k (n : Rat) := by
  rcases Nat.eq_zero_or_pos n with rfl | hn
  · exact .inl Nat.cast_zero
  · have hone : (1 : Rat) ≤ n := by exact_mod_cast hn
    have hsmall : (2 : Rat) ^ (-k : Int) ≤ 2 ^ (0 : Int) := zpow_le_zpow_right₀ one_le_two (by omega)
    refine .inr ⟨hsmall.trans (by simpa using hone), ?_⟩
    rw [zpow_natCast]
    exact_mod_cast h

theorem ordinary (h : Moderate k x) (hk : k ≤ 1022) (hx : x ≠ 0) : Ordinary x := by
  obtain ⟨hlow, hhigh⟩ := h.resolve_left hx
  exact ⟨(zpow_le_zpow_right₀ one_le_two (by omega)).trans hlow,
    hhigh.trans_lt (zpow_lt_zpow_right₀ one_lt_two (by omega))⟩

theorem add (hx : Moderate k x) (hy : Moderate k y) : Moderate (k + 1) (x + y) := by
  rcases hx with rfl | ⟨hx, hx'⟩
  · rw [zero_add]
    exact hy.mono (by omega)
  · have hlow : (2 : Rat) ^ (-(k + 1 : Nat) : Int) ≤ 2 ^ (-k : Int) :=
      zpow_le_zpow_right₀ one_le_two (by omega)
    refine .inr ⟨by linarith [hy.nonneg], ?_⟩
    rw [Nat.cast_add, Nat.cast_one, zpow_add_one₀ two_ne_zero]
    linarith [hy.le]

theorem mul (hx : Moderate k x) (hy : Moderate l y) : Moderate (k + l) (x * y) := by
  rcases hx with rfl | ⟨hx, hx'⟩
  · exact .inl (zero_mul y)
  · rcases hy with rfl | ⟨hy, hy'⟩
    · exact .inl (mul_zero x)
    · right
      rw [Nat.cast_add, neg_add, zpow_add₀ two_ne_zero, zpow_add₀ two_ne_zero]
      exact ⟨mul_le_mul hx hy (by positivity) (le_trans (by positivity) hx),
        mul_le_mul hx' hy' (le_trans (by positivity) hy) (by positivity)⟩

theorem inv (h : Moderate k x) : Moderate k x⁻¹ := by
  rcases h with rfl | ⟨hlow, hhigh⟩
  · exact .inl inv_zero
  · right
    have hpos : 0 < x := lt_of_lt_of_le (by positivity) hlow
    constructor
    · rw [zpow_neg]
      exact inv_anti₀ hpos hhigh
    · rw [← neg_neg (k : Int), zpow_neg]
      exact inv_anti₀ (by positivity) hlow

theorem div (hx : Moderate k x) (hy : Moderate l y) : Moderate (k + l) (x / y) := by
  rw [div_eq_mul_inv]
  exact hx.mul hy.inv

theorem rounded (h : Moderate k x) (hk : k ≤ 1022) : Moderate (k + 1) (rounded x) := by
  by_cases hx : x = 0
  · rw [hx]
    exact .inl rounded_zero
  · obtain ⟨hlow, hhigh⟩ := h.resolve_left hx
    have hordinary := h.ordinary hk hx
    have hpos := hordinary.rounded_pos
    obtain ⟨hdown, hup⟩ := abs_le.1 hordinary.rounded_sub_le
    right
    rw [Nat.cast_add, Nat.cast_one, neg_add, ← sub_eq_add_neg, zpow_sub_one₀ two_ne_zero,
      zpow_add_one₀ two_ne_zero]
    constructor <;> linarith

theorem nearestNat (tie : Tie) (h : Moderate k x) : Moderate (k + 1) (nearestNat tie x : Rat) := by
  apply natCast
  have hnear := abs_le.1 (nearestNat_sub_le tie h.nonneg)
  have hle := h.le
  have hone : (1 : Rat) ≤ 2 ^ k := one_le_pow₀ one_le_two
  rw [zpow_natCast] at hle
  have hcast : ((Number.nearestNat tie x : Nat) : Rat) ≤ (2 ^ (k + 1) : Nat) := by
    push_cast [pow_succ]
    linarith
  exact Nat.cast_le.1 hcast

end Moderate

/-- What is left of `x` after so many roundings. -/
def Within (roundings : Nat) (y x : Rat) : Prop :=
  (1 - 1 / 2 ^ 53) ^ roundings * y ≤ x ∧ x ≤ (1 + 1 / 2 ^ 53) ^ roundings * y

theorem Ordinary.within {x : Rat} (h : Ordinary x) : Within 1 (rounded x) x := by
  obtain ⟨hlow, hhigh⟩ := abs_le.1 h.rounded_sub_le
  rw [Within, pow_one, pow_one]
  constructor <;> linarith

namespace Within

variable {k l : Nat} {x y z : Rat}

theorem trans (hzy : Within k z y) (hyx : Within l y x) : Within (k + l) z x := by
  have hlow : (0 : Rat) ≤ (1 - 1 / 2 ^ 53) ^ l := by
    apply pow_nonneg
    norm_num
  have hhigh : (0 : Rat) ≤ (1 + 1 / 2 ^ 53) ^ l := by positivity
  rw [Within, pow_add, pow_add, mul_comm ((1 - 1 / 2 ^ 53) ^ k), mul_comm ((1 + 1 / 2 ^ 53) ^ k),
    mul_assoc, mul_assoc]
  exact ⟨(mul_le_mul_of_nonneg_left hzy.1 hlow).trans hyx.1,
    hyx.2.trans (mul_le_mul_of_nonneg_left hzy.2 hhigh)⟩

theorem add_left (h : Within k y x) (hz : 0 ≤ z) : Within k (z + y) (z + x) := by
  have hlow : (1 - 1 / 2 ^ 53 : Rat) ^ k ≤ 1 := by
    apply pow_le_one₀ <;> norm_num
  have hhigh : (1 : Rat) ≤ (1 + 1 / 2 ^ 53) ^ k := by
    apply one_le_pow₀
    norm_num
  rw [Within, mul_add, mul_add]
  constructor
  · linarith [h.1, mul_le_mul_of_nonneg_right hlow hz]
  · linarith [h.2, mul_le_mul_of_nonneg_right hhigh hz]

theorem mul_right (h : Within k y x) (hz : 0 ≤ z) : Within k (y * z) (x * z) := by
  rw [Within, ← mul_assoc, ← mul_assoc]
  exact ⟨mul_le_mul_of_nonneg_right h.1 hz, mul_le_mul_of_nonneg_right h.2 hz⟩

/-- Three roundings move a whole number of 15 digits by less than a half. -/
theorem sub_lt {n : Nat} (hn : n < 10 ^ 15) (h : Within 3 y n) : |y - n| < 1 / 2 := by
  have hcast : (n : Rat) < (10 ^ 15 : Nat) := Nat.cast_lt.2 hn
  obtain ⟨hlow, hhigh⟩ := h
  push_cast at hcast
  rw [abs_lt]
  constructor <;> linarith

end Within

theorem rounded_natCast {n : Nat} (h : n < 2 ^ 53) : rounded n = n := by
  rcases Nat.eq_zero_or_pos n with rfl | hn
  · exact rounded_zero
  · have hordinary : Ordinary (n : Rat) :=
      (Moderate.natCast h.le).ordinary (by decide) (Nat.cast_ne_zero.2 hn.ne')
    apply hordinary.rounded_eq_self h (e := 0)
    rw [zpow_zero, mul_one]

theorem pow_ten_le {scale : Nat} (h : scale ≤ 28) : 10 ^ scale ≤ 2 ^ 94 :=
  (Nat.pow_le_pow_right (by decide) h).trans (by decide)

/-- Powers of ten are doubles up to the 22nd. -/
theorem rounded_pow {scale : Nat} (h : scale ≤ 22) :
    rounded (10 ^ scale : Nat) = (10 ^ scale : Nat) := by
  have hordinary : Ordinary ((10 ^ scale : Nat) : Rat) :=
    (Moderate.natCast (pow_ten_le (by omega))).ordinary (by decide)
      (Nat.cast_ne_zero.2 (Nat.pow_pos (by decide)).ne')
  have hodd : 5 ^ scale < 2 ^ 53 := lt_of_le_of_lt (Nat.pow_le_pow_right (by decide) h) (by decide)
  apply hordinary.rounded_eq_self hodd (e := scale)
  rw [zpow_natCast]
  push_cast
  rw [← mul_pow]
  norm_num

end OData.Number
