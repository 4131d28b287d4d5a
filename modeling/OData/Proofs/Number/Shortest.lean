import OData.Proofs.Number.Rounding
import OData.Proofs.Text.Digits

/-!
The fewest digits of a double. There are never more than 17 of them, and they are those of any
number of at most 15 digits that rounds to the double.
-/

namespace OData.Number

theorem length_decimal_pos (n : Nat) : 0 < (Text.decimal n).length :=
  List.length_pos_of_ne_nil (Text.decimal_ne_nil n)

theorem pow_length_decimal {n : Nat} (h : 0 < n) :
    10 ^ ((Text.decimal n).length - 1) ≤ n ∧ n < 10 ^ (Text.decimal n).length := by
  have hlength := length_decimal_pos n
  refine ⟨?_, (Nat.length_toDigits_le_iff (by decide) hlength).1 le_rfl⟩
  rcases Nat.eq_or_lt_of_le hlength with hone | hmany
  · rw [← hone]
    exact h
  · by_contra hlt
    have hshort := (Nat.length_toDigits_le_iff (by decide) (by omega)).2 (not_le.1 hlt)
    rw [← Text.decimal] at hshort
    omega

/-- A power of ten with as many zeros as a number has digits, or one less, in the rationals. -/
theorem zpow_length_decimal {n : Nat} (h : 0 < n) :
    (10 : Rat) ^ (((Text.decimal n).length : Int) - 1) ≤ n ∧
      ((n + 1 : Nat) : Rat) ≤ 10 ^ ((Text.decimal n).length : Int) := by
  obtain ⟨hlow, hhigh⟩ := pow_length_decimal h
  have hlength := length_decimal_pos n
  have hpred : ((Text.decimal n).length : Int) - 1 = ((Text.decimal n).length - 1 : Nat) := by omega
  rw [hpred, zpow_natCast, zpow_natCast]
  exact ⟨by exact_mod_cast hlow, by exact_mod_cast hhigh⟩

theorem decade_of_floor {x : Rat} (h : 0 < x) (hwhole : x.floor.toNat ≠ 0) :
    (10 : Rat) ^ (decade x - 1) ≤ x ∧ x < 10 ^ decade x := by
  obtain ⟨hle, hlt⟩ := floor_toNat_le h.le
  obtain ⟨hmin, hmax⟩ := zpow_length_decimal (Nat.pos_of_ne_zero hwhole)
  simp only [decade, if_pos hwhole]
  push_cast at hmax
  exact ⟨hmin.trans hle, hlt.trans_le hmax⟩

theorem decade_of_lt_one {x : Rat} (h : 0 < x) (hsmall : x < 1) (hwhole : x.floor.toNat = 0) :
    (10 : Rat) ^ (decade x - 1) ≤ x ∧ x < 10 ^ decade x := by
  have hinv : 1 < x⁻¹ := (one_lt_inv₀ h).2 hsmall
  have hceil := Rat.le_ceil (x := x⁻¹)
  have hceil' := Rat.ceil_lt (x := x⁻¹)
  obtain ⟨n, hn⟩ := Int.eq_ofNat_of_zero_le (show 0 ≤ x⁻¹.ceil by
    have hpos : ((0 : Int) : Rat) < x⁻¹.ceil := by
      push_cast
      linarith
    exact (Int.cast_lt.1 hpos).le)
  rw [hn] at hceil hceil'
  push_cast at hceil hceil'
  have hone : 1 < n := by
    have hcast : ((1 : Nat) : Rat) < n := by
      push_cast
      linarith
    exact Nat.cast_lt.1 hcast
  obtain ⟨hmin, hmax⟩ := zpow_length_decimal (show 0 < n - 1 by omega)
  rw [Nat.sub_add_cancel hone.le] at hmax
  rw [Nat.cast_sub hone.le, Nat.cast_one] at hmin
  simp only [decade, if_neg (not_not.2 hwhole), hn, Int.toNat_natCast, if_neg (not_le.2 hone)]
  generalize ((Text.decimal (n - 1)).length : Int) = length at hmin hmax
  constructor
  · rw [show (1 - length - 1 : Int) = -length by omega, zpow_neg]
    exact inv_le_of_inv_le₀ h (hceil.trans hmax)
  · rw [show (1 - length : Int) = -(length - 1) by omega, zpow_neg]
    apply (lt_inv_comm₀ h (by positivity)).2
    linarith

theorem decade_spec {x : Rat} (h : 0 < x) : (10 : Rat) ^ (decade x - 1) ≤ x ∧ x < 10 ^ decade x := by
  by_cases hwhole : x.floor.toNat = 0
  · obtain ⟨-, hlt⟩ := floor_toNat_le h.le
    rw [hwhole, Nat.cast_zero, zero_add] at hlt
    exact decade_of_lt_one h hlt hwhole
  · exact decade_of_floor h hwhole

/-- The number that digits stand for. -/
def DecimalDigits.toRat (d : DecimalDigits) : Rat :=
  d.digits * 10 ^ d.exponent

/-- One of the two whole numbers around a number. -/
def Neighbour (x : Rat) (n : Nat) : Prop :=
  n = x.floor.toNat ∨ n = x.floor.toNat + 1

theorem neighbour_nearestNat (tie : Tie) (x : Rat) : Neighbour x (nearestNat tie x) := by
  unfold Neighbour
  cases tie <;> simp only [nearestNat] <;> split_ifs <;> simp

theorem neighbour_of_lt {x : Rat} (h : 0 ≤ x) {n : Nat} (hn : |(n : Rat) - x| < 1) :
    Neighbour x n := by
  obtain ⟨hle, hlt⟩ := floor_toNat_le h
  obtain ⟨hlow, hhigh⟩ := abs_lt.1 hn
  have hmin : (x.floor.toNat : Rat) < (n + 1 : Nat) := by
    push_cast
    linarith
  have hmax : (n : Rat) < (x.floor.toNat + 2 : Nat) := by
    push_cast
    linarith
  rw [Nat.cast_lt] at hmin hmax
  unfold Neighbour
  omega

/-- The neighbours of a number below a whole one are at most that. -/
theorem Neighbour.le {x : Rat} (h : 0 ≤ x) {n bound : Nat} (hn : Neighbour x n) (hx : x < bound) :
    n ≤ bound := by
  have hfloor : x.floor.toNat < bound := Nat.cast_lt.1 ((floor_toNat_le h).1.trans_lt hx)
  rcases hn with rfl | rfl <;> omega

/-- Whole multiples of a unit are not less than a unit apart. -/
theorem eq_of_mul_near {a b : Nat} {unit : Rat} (h : 0 < unit) (hnear : |a * unit - b * unit| < unit) :
    a = b := by
  rw [← sub_mul, abs_mul, abs_of_pos h, mul_lt_iff_lt_one_left h] at hnear
  exact eq_of_abs_sub_lt_one hnear

theorem neighbour_of_near {value unit : Rat} (hvalue : 0 ≤ value) (hunit : 0 < unit) {n : Nat}
    (hnear : |n * unit - value| < unit) : Neighbour (value / unit) n := by
  apply neighbour_of_lt (div_nonneg hvalue hunit.le)
  have hfactor : (n : Rat) - value / unit = (n * unit - value) / unit := by
    rw [sub_div, mul_div_cancel_right₀ _ hunit.ne']
  rw [hfactor, abs_div, abs_of_pos hunit, div_lt_one hunit]
  exact hnear

/-- Tens of a unit are fewer of a larger one. -/
theorem mul_pow_mul_zpow (n : Nat) {zeros : Nat} {place unit : Int} (h : zeros + unit = place) :
    ((n * 10 ^ zeros : Nat) : Rat) * 10 ^ unit = n * 10 ^ place := by
  rw [← h, zpow_add₀ (by norm_num), zpow_natCast, Nat.cast_mul, Nat.cast_pow, Nat.cast_ofNat, mul_assoc]

section SearchGrid

variable {tie : Tie} {value : Rat} {interval : RoundingInterval} {top : Int}

variable (tie value interval top) in
/-- On one grid a neighbour in the interval is taken, unless there is none. -/
theorem searchGrid_succ (tried left : Nat) {exponent : Int} (h : top - (tried + 1 : Nat) = exponent) :
    (∃ n, Neighbour (value / 10 ^ exponent) n ∧ interval.contains (n * 10 ^ exponent) = true ∧
      searchGrid tie value interval top tried (left + 1) = ⟨n, exponent⟩) ∨
    (∀ n, Neighbour (value / 10 ^ exponent) n → interval.contains (n * 10 ^ exponent) = false) ∧
    searchGrid tie value interval top tried (left + 1) =
      searchGrid tie value interval top (tried + 1) left := by
  have hnearest := neighbour_nearestNat tie (value / 10 ^ exponent)
  simp only [searchGrid, h, powTen_eq]
  split
  · left
    refine ⟨_, hnearest, ?_, rfl⟩
    rcases hnearest with hn | hn <;> rw [hn] <;> assumption
  · exact .inl ⟨_, .inl rfl, ‹_›, rfl⟩
  · exact .inl ⟨_, .inr rfl, ‹_›, rfl⟩
  · right
    refine ⟨?_, rfl⟩
    intro n hn
    rcases hn with rfl | rfl <;> assumption

/-- Each grid has ten times as many digits as the one before. -/
theorem digits_searchGrid_le (hvalue : 0 ≤ value) (htop : value < 10 ^ top) (tried left : Nat) :
    (searchGrid tie value interval top tried left).digits ≤ 10 ^ (tried + left) := by
  have hscaled (k : Nat) : value / 10 ^ (top - k) < (10 ^ k : Nat) := by
    rw [div_lt_iff₀ (by positivity), Nat.cast_pow, Nat.cast_ofNat, ← zpow_natCast,
      ← zpow_add₀ (by norm_num), show (k : Int) + (top - k) = top by omega]
    exact htop
  induction left generalizing tried with
  | zero =>
    rw [searchGrid, powTen_eq]
    exact (neighbour_nearestNat tie _).le (by positivity) (hscaled tried)
  | succ left ih =>
    rcases searchGrid_succ tie value interval top tried left rfl with ⟨n, hn, -, heq⟩ | ⟨-, heq⟩
    · rw [heq]
      exact (hn.le (by positivity) (hscaled (tried + 1))).trans
        (Nat.pow_le_pow_right (by decide) (by omega))
    · rw [heq, show tried + (left + 1) = tried + 1 + left by omega]
      exact ih (tried + 1)

/-- Zero is not found for a number that it is not near to. -/
theorem digits_searchGrid_pos (hvalue : 10 ^ (top - 1) ≤ value) (hzero : interval.contains 0 = false)
    (tried left : Nat) (h : 0 < tried + left) :
    0 < (searchGrid tie value interval top tried left).digits := by
  induction left generalizing tried with
  | zero =>
    have hone : 1 ≤ value / 10 ^ (top - tried) := by
      rw [le_div_iff₀ (by positivity), one_mul]
      exact (zpow_le_zpow_right₀ (by norm_num) (by omega)).trans hvalue
    have hnear := abs_le.1 (nearestNat_sub_le tie (zero_le_one.trans hone))
    rw [searchGrid, powTen_eq]
    have hpos : (0 : Rat) < nearestNat tie (value / 10 ^ (top - tried)) := by linarith
    exact Nat.cast_pos.1 hpos
  | succ left ih =>
    rcases searchGrid_succ tie value interval top tried left rfl with ⟨n, -, hcontains, heq⟩ | ⟨-, heq⟩
    · rw [heq]
      apply Nat.pos_of_ne_zero
      rintro rfl
      rw [Nat.cast_zero, zero_mul, hzero] at hcontains
      contradiction
    · rw [heq]
      exact ih (tried + 1) (by omega)

/-- A point of a grid on which the interval has no other is what the search finds, on that grid or on a
coarser one. -/
theorem toRat_searchGrid {x : Rat} {grid point : Nat} (hvalue : 0 ≤ value)
    (hx : x = point * 10 ^ (top - grid)) (hcontains : interval.contains x = true)
    (hnear : ∀ y, interval.contains y = true → |y - value| < 10 ^ (top - grid) / 2)
    (tried left : Nat) (htried : tried < grid) (hleft : grid ≤ tried + left) :
    (searchGrid tie value interval top tried left).toRat = x := by
  have hunit : (0 : Rat) < 10 ^ (top - grid) := by positivity
  obtain ⟨hlow, hhigh⟩ := abs_lt.1 (hnear x hcontains)
  induction left generalizing tried with
  | zero => omega
  | succ left ih =>
    rcases searchGrid_succ tie value interval top tried left rfl with ⟨n, -, hn, heq⟩ | ⟨hnone, heq⟩
    · -- What is found on a coarser grid is a point of this one, and only one of those is near enough.
      have hcoarse : ((n * 10 ^ (grid - (tried + 1)) : Nat) : Rat) * 10 ^ (top - grid) =
          n * 10 ^ (top - (tried + 1 : Nat)) := mul_pow_mul_zpow n (by omega)
      obtain ⟨hlow', hhigh'⟩ := abs_lt.1 (hnear _ hn)
      have hpoint : n * 10 ^ (grid - (tried + 1)) = point := by
        apply eq_of_mul_near hunit
        rw [hcoarse, ← hx, abs_lt]
        constructor <;> linarith
      rw [heq, DecimalDigits.toRat, ← hcoarse, hpoint, hx]
    · rw [heq]
      -- On its own grid the point is a neighbour of the value, so the search does not get past it.
      refine ih (tried + 1) (lt_of_le_of_ne htried ?_) (by omega)
      rintro rfl
      have hneighbour : Neighbour (value / 10 ^ (top - (tried + 1 : Nat))) point := by
        apply neighbour_of_near hvalue hunit
        rw [← hx, abs_lt]
        constructor <;> linarith
      have hmissed := hnone point hneighbour
      rw [← hx, hcontains] at hmissed
      contradiction

end SearchGrid

section Shortest

variable {n : Nat} {e : Int}

theorem Normal.value_pos (h : Normal n e) : (0 : Rat) < n * 2 ^ e := by
  have hn : 0 < n := lt_of_lt_of_le (by decide) h.low
  positivity

/-- What rounds to a double is not further from it than one part in two to the 53rd. -/
theorem Normal.abs_sub_le (h : Normal n e) {x : Rat}
    (hx : (binary64.roundingInterval n e).contains x = true) :
    |x - n * 2 ^ e| ≤ n * 2 ^ e / 2 ^ 53 := by
  have hlow : ((2 ^ 52 : Nat) : Rat) ≤ n := Nat.cast_le.2 h.low
  have hpos : (0 : Rat) < 2 ^ e := by positivity
  have hquarter : (2 : Rat) ^ (e - 2) = 2 ^ e / 4 := by
    rw [zpow_sub₀ two_ne_zero]
    norm_num
  have hhalf : (2 : Rat) ^ (e - 1) = 2 ^ e / 2 := zpow_sub_one₀ two_ne_zero e
  push_cast at hlow
  have hlast := mul_le_mul_of_nonneg_right hlow hpos.le
  obtain ⟨hmin, hmax, -⟩ := (RoundingInterval.contains_iff _ x).1 hx
  simp only [FloatShape.roundingInterval, powTwo_eq, hhalf] at hmin hmax
  rw [abs_le]
  split at hmin
  · rw [hquarter] at hmin
    constructor <;> linarith
  · rw [hhalf] at hmin
    constructor <;> linarith

/-- The digits that the search finds first; ten of them are one, a place further up. -/
def found (tie : Tie) (n : Nat) (e : Int) : DecimalDigits :=
  searchGrid tie (n * 2 ^ e) (binary64.roundingInterval n e) (decade (n * 2 ^ e)) 0 17

theorem shortest_eq (tie : Tie) (n : Nat) (e : Int) : shortest tie n e =
    if (found tie n e).digits = 10 then ⟨1, (found tie n e).exponent + 1⟩ else found tie n e := by
  rw [found, ← powTwo_eq]
  rfl

theorem toRat_shortest_eq (tie : Tie) (n : Nat) (e : Int) :
    (shortest tie n e).toRat = (found tie n e).toRat := by
  rw [shortest_eq]
  split
  · have hten : (found tie n e).digits = 10 := ‹_›
    rw [DecimalDigits.toRat, DecimalDigits.toRat, hten, zpow_add_one₀ (by norm_num)]
    push_cast
    ring
  · rfl

/-- A double has at most 17 digits. -/
theorem Normal.digits_shortest (h : Normal n e) (tie : Tie) :
    0 < (shortest tie n e).digits ∧ (shortest tie n e).digits ≤ 10 ^ 17 := by
  obtain ⟨hlow, hhigh⟩ := decade_spec h.value_pos
  have hzero : (binary64.roundingInterval n e).contains 0 = false := by
    by_contra hcontains
    have hnear := h.abs_sub_le (Bool.not_eq_false _ ▸ hcontains)
    rw [zero_sub, abs_neg, abs_of_pos h.value_pos] at hnear
    linarith [h.value_pos]
  have hpos : 0 < (found tie n e).digits := digits_searchGrid_pos hlow hzero 0 17 (by decide)
  have hle : (found tie n e).digits ≤ 10 ^ 17 := digits_searchGrid_le h.value_pos.le hhigh 0 17
  rw [shortest_eq]
  split
  · exact ⟨Nat.one_pos, Nat.pow_pos (by decide)⟩
  · exact ⟨hpos, hle⟩

/-- A number of at most 15 digits that rounds to a double is what its digits stand for. -/
theorem Normal.toRat_shortest (h : Normal n e) (tie : Tie) {point : Nat} {place : Int}
    (hpoint : point < 10 ^ 15)
    (hcontains : (binary64.roundingInterval n e).contains (point * 10 ^ place) = true) :
    (shortest tie n e).toRat = point * 10 ^ place := by
  have hpos := h.value_pos
  obtain ⟨hlow, hhigh⟩ := decade_spec hpos
  have hnear := abs_le.1 (h.abs_sub_le hcontains)
  have hplace : decade (n * 2 ^ e) - 15 ≤ place := by
    by_contra hlt
    have hunit : (0 : Rat) < 10 ^ place := by positivity
    have hlarge : (10 : Rat) ^ 15 * 10 ^ place ≤ n * 2 ^ e := by
      rw [← zpow_natCast, ← zpow_add₀ (by norm_num)]
      exact (zpow_le_zpow_right₀ (by norm_num) (by omega)).trans hlow
    have hsmall : ((point + 1 : Nat) : Rat) ≤ (10 ^ 15 : Nat) := Nat.cast_le.2 hpoint
    push_cast at hsmall
    linarith [mul_le_mul_of_nonneg_right hsmall hunit.le]
  obtain ⟨k, hk⟩ := Int.eq_ofNat_of_zero_le (show 0 ≤ place - (decade (n * 2 ^ e) - 15) by omega)
  have hgrid : ((point * 10 ^ k : Nat) : Rat) * 10 ^ (decade (n * 2 ^ e) - (15 : Nat)) =
      point * 10 ^ place := mul_pow_mul_zpow point (by omega)
  have hvalue : (n : Rat) * 2 ^ e < 10 ^ 15 * 10 ^ (decade (n * 2 ^ e) - (15 : Nat)) := by
    rw [← zpow_natCast, ← zpow_add₀ (by norm_num), add_sub_cancel]
    exact hhigh
  rw [toRat_shortest_eq]
  refine toRat_searchGrid hpos.le hgrid.symm hcontains ?_ 0 17 (by decide) (by decide)
  intro y hy
  apply (h.abs_sub_le hy).trans_lt
  generalize (10 : Rat) ^ (decade (n * 2 ^ e) - (15 : Nat)) = unit at hvalue ⊢
  linarith

end Shortest

end OData.Number
