import Mathlib.Logic.Function.Iterate
import Mathlib.Tactic.IntervalCases
import OData.Calendar.Date

/-!
Numbers of days are a count: the first of January 1970 has the number zero, and each day the number behind
that of the day before it. Every number is that of just one day of the calendar.
-/

namespace OData.Calendar.Date

/-- A day of the calendar, in any year. -/
structure Exists (d : Date) : Prop where
  month_pos : 1 ≤ d.month
  month_le : d.month ≤ 12
  day_pos : 1 ≤ d.day
  day_le : d.day ≤ daysInMonth d.year d.month

/-- The day after a day. -/
def next (d : Date) : Date :=
  if d.day < daysInMonth d.year d.month then ⟨d.year, d.month, d.day + 1⟩
  else if d.month < 12 then ⟨d.year, d.month + 1, 1⟩
  else ⟨d.year + 1, 1, 1⟩

def epoch : Date := ⟨1970, 1, 1⟩

/-- A day some days behind the first of January 1970, or before it. As many days on from each of the two is
the same day. -/
def IsDay (d : Date) (n : Int) : Prop :=
  ∃ i j : Nat, n = i - j ∧ next^[i] epoch = next^[j] d

variable {d e : Date} {year : Int} {month : Nat}

theorem dayNumber_eq (d : Date) : d.dayNumber = dayNumber ⟨d.year, d.month, 1⟩ + d.day - 1 := by
  simp only [dayNumber]
  omega

theorem daysInMonth_february (year : Int) : (daysInMonth year 2 : Int) =
    28 + (year / 4 - (year - 1) / 4) - (year / 100 - (year - 1) / 100) +
      (year / 400 - (year - 1) / 400) := by
  simp only [daysInMonth, isLeapYear, Bool.and_eq_true, Bool.or_eq_true, decide_eq_true_eq]
  split <;> omega

/-- A month begins where the one before it ends. -/
theorem dayNumber_month (year : Int) (hpos : 1 ≤ month) (hlt : month < 12) :
    dayNumber ⟨year, month + 1, 1⟩ = dayNumber ⟨year, month, 1⟩ + daysInMonth year month := by
  by_cases hfebruary : month = 2
  · subst hfebruary
    rw [daysInMonth_february]
    simp [dayNumber]
    omega
  · interval_cases month
    case «2» => contradiction
    all_goals simp [dayNumber, daysInMonth]
    all_goals omega

theorem dayNumber_year (year : Int) :
    dayNumber ⟨year + 1, 1, 1⟩ = dayNumber ⟨year, 12, 1⟩ + daysInMonth year 12 := by
  simp [dayNumber, daysInMonth]
  omega

theorem dayNumber_next (h : d.Exists) : d.next.dayNumber = d.dayNumber + 1 := by
  have hday := dayNumber_eq d
  have hfirst := h.day_le
  unfold next
  split
  · rw [dayNumber_eq]
    dsimp only
    omega
  · split
    · rename_i hlast hmonth
      rw [dayNumber_month _ h.month_pos hmonth]
      omega
    · rename_i hlast hmonth
      obtain hmonth : d.month = 12 := by
        have := h.month_le
        omega
      rw [hmonth] at hday hlast hfirst
      rw [dayNumber_year]
      omega

theorem one_le_daysInMonth (year : Int) (month : Nat) : 1 ≤ daysInMonth year month := by
  unfold daysInMonth
  split
  · split <;> decide
  all_goals decide

theorem exists_next (h : d.Exists) : d.next.Exists := by
  unfold next
  split
  · rename_i hday
    exact ⟨h.month_pos, h.month_le, Nat.le_add_left 1 d.day, hday⟩
  · split
    · rename_i hmonth
      exact ⟨Nat.le_add_left 1 d.month, hmonth, Nat.le_refl 1, one_le_daysInMonth _ _⟩
    · exact ⟨Nat.le_refl 1, Nat.le_add_left 1 11, Nat.le_refl 1, one_le_daysInMonth _ _⟩

/-! ### Days in order -/

theorem dayNumber_month_mono (year : Int) {later : Nat} (hpos : 1 ≤ month) (h : month ≤ later)
    (hle : later ≤ 12) :
    dayNumber ⟨year, month, 1⟩ ≤ dayNumber ⟨year, later, 1⟩ := by
  induction later, h using Nat.le_induction with
  | base => exact Int.le_refl _
  | succ later hlater ih =>
    have hstep := dayNumber_month year (Nat.le_trans hpos hlater) hle
    have hbefore := ih (by omega)
    omega

/-- A day is in its month. -/
theorem dayNumber_bounds (h : d.Exists) : dayNumber ⟨d.year, d.month, 1⟩ ≤ d.dayNumber ∧
    d.dayNumber < dayNumber ⟨d.year, d.month, 1⟩ + daysInMonth d.year d.month := by
  have hnumber := dayNumber_eq d
  have hpos := h.day_pos
  have hle := h.day_le
  omega

/-- A day is in its year. -/
theorem dayNumber_year_bounds (h : d.Exists) : dayNumber ⟨d.year, 1, 1⟩ ≤ d.dayNumber ∧
    d.dayNumber < dayNumber ⟨d.year + 1, 1, 1⟩ := by
  obtain ⟨hlow, hhigh⟩ := dayNumber_bounds h
  have hfirst := dayNumber_month_mono d.year (Nat.le_refl 1) h.month_pos h.month_le
  have hlast := dayNumber_month_mono d.year h.month_pos h.month_le (Nat.le_refl 12)
  refine ⟨Int.le_trans hfirst hlow, ?_⟩
  rw [dayNumber_year]
  by_cases hmonth : d.month < 12
  · have hnext := dayNumber_month_mono d.year (Nat.le_add_left 1 d.month) hmonth
      (Nat.le_refl 12)
    rw [dayNumber_month _ h.month_pos hmonth] at hnext
    omega
  · obtain hmonth : d.month = 12 := by
      have := h.month_le
      omega
    rwa [hmonth] at hhigh

theorem dayNumber_year_mono {later : Int} (h : year ≤ later) :
    dayNumber ⟨year, 1, 1⟩ ≤ dayNumber ⟨later, 1, 1⟩ := by
  simp only [dayNumber]
  omega

/-- The days of a year, and of those behind it, have numbers from that of its first day on. -/
theorem le_year_iff (h : d.Exists) : year ≤ d.year ↔ dayNumber ⟨year, 1, 1⟩ ≤ d.dayNumber := by
  obtain ⟨hlow, hhigh⟩ := dayNumber_year_bounds h
  constructor
  · intro hyear
    exact Int.le_trans (dayNumber_year_mono hyear) hlow
  · intro hnumber
    by_contra hyear
    have hnext := dayNumber_year_mono (show d.year + 1 ≤ year by omega)
    omega

theorem dayNumber_lt_of_month_lt (hd : d.Exists) (he : e.Exists) (hyear : d.year = e.year)
    (h : d.month < e.month) : d.dayNumber < e.dayNumber := by
  have hend := (dayNumber_bounds hd).2
  have hbegin := (dayNumber_bounds he).1
  have hmono := dayNumber_month_mono d.year (Nat.le_add_left 1 d.month) h he.month_le
  rw [dayNumber_month _ hd.month_pos (Nat.lt_of_lt_of_le h he.month_le)] at hmono
  rw [← hyear] at hbegin
  omega

/-- Days are told apart by their numbers. -/
theorem eq_of_dayNumber_eq (hd : d.Exists) (he : e.Exists) (h : d.dayNumber = e.dayNumber) : d = e := by
  have hyear : d.year = e.year := by
    refine Int.le_antisymm ((le_year_iff he).2 ?_) ((le_year_iff hd).2 ?_)
    · exact h ▸ (dayNumber_year_bounds hd).1
    · exact h ▸ (dayNumber_year_bounds he).1
  have hmonth : d.month = e.month := by
    rcases Nat.lt_trichotomy d.month e.month with hlt | heq | hgt
    · exact absurd h (Int.ne_of_lt (dayNumber_lt_of_month_lt hd he hyear hlt))
    · exact heq
    · exact absurd h.symm (Int.ne_of_lt (dayNumber_lt_of_month_lt he hd hyear.symm hgt))
  have hday : d.day = e.day := by
    have hnumber := dayNumber_eq d
    have hnumber' := dayNumber_eq e
    rw [hyear, hmonth] at hnumber
    omega
  cases d
  cases e
  simp only [mk.injEq]
  exact ⟨hyear, hmonth, hday⟩

theorem iterate_next (h : d.Exists) (n : Nat) :
    (next^[n] d).Exists ∧ (next^[n] d).dayNumber = d.dayNumber + n := by
  induction n with
  | zero => exact ⟨h, (Int.add_zero _).symm⟩
  | succ n ih =>
    obtain ⟨hexists, hnumber⟩ := ih
    rw [Function.iterate_succ_apply', dayNumber_next hexists, hnumber]
    exact ⟨exists_next hexists, by omega⟩

theorem exists_epoch : epoch.Exists := ⟨by decide, by decide, by decide, by decide⟩

/-- The number of a day tells how many days it is from the first of January 1970. -/
theorem isDay_iff (h : d.Exists) {n : Int} : d.IsDay n ↔ d.dayNumber = n := by
  have hzero : epoch.dayNumber = 0 := rfl
  constructor
  · rintro ⟨i, j, rfl, hsame⟩
    have hi := (iterate_next exists_epoch i).2
    have hj := (iterate_next h j).2
    rw [hsame, hj] at hi
    omega
  · rintro rfl
    obtain ⟨hi, hnumber⟩ := iterate_next exists_epoch d.dayNumber.toNat
    obtain ⟨hj, hnumber'⟩ := iterate_next h (-d.dayNumber).toNat
    exact ⟨d.dayNumber.toNat, (-d.dayNumber).toNat, by omega, eq_of_dayNumber_eq hi hj (by omega)⟩

/-! ### The day of a number -/

/-- The year that a day of a cycle is in, with years that begin in March. -/
def yearOfCycle (r : Int) : Int :=
  (r - r / 1460 + r / 36524 - r / 146096) / 365

theorem century_yearOfCycle {r : Int} (hpos : 0 ≤ r) (hlt : r < 146096) :
    r / 146096 = 0 ∧ yearOfCycle r / 100 = r / 36524 ∧ 0 ≤ yearOfCycle r ∧ yearOfCycle r ≤ 399 := by
  unfold yearOfCycle
  have hlast : r / 146096 = 0 := by omega
  obtain h | h | h | h : r / 36524 = 0 ∨ r / 36524 = 1 ∨ r / 36524 = 2 ∨ r / 36524 = 3 := by omega
  all_goals omega

/-- A day of a cycle has one of 366 places in its year, the last one in leap years only. -/
theorem yearOfCycle_bounds {r y : Int} (hpos : 0 ≤ r) (hlt : r < 146097) (hy : yearOfCycle r = y) :
    0 ≤ y ∧ y ≤ 399 ∧ 365 * y + y / 4 - y / 100 ≤ r ∧ r ≤ 365 * y + y / 4 - y / 100 + 365 ∧
      (r = 365 * y + y / 4 - y / 100 + 365 → (y + 1) % 4 = 0 ∧ ((y + 1) % 100 ≠ 0 ∨ y = 399)) := by
  by_cases hlast : r = 146096
  · subst hlast hy
    decide
  obtain ⟨hcycle, hcentury, hlow, hhigh⟩ := century_yearOfCycle hpos (by omega)
  rw [hy] at hcentury hlow hhigh
  have hdiv : y = (r - r / 1460 + r / 36524 - r / 146096) / 365 := hy.symm
  refine ⟨hlow, hhigh, by omega, by omega, fun hr ↦ ?_⟩
  have hquad : y / 4 + 1 ≤ r / 1460 := by omega
  have hmod : y % 4 = 3 := by omega
  omega

/-- A day by its place in a year that begins in March. -/
def ofMarchYear (year day : Int) : Date :=
  let month := (5 * day + 2) / 153
  let calendarMonth := if month < 10 then month + 3 else month - 9
  ⟨year + if calendarMonth ≤ 2 then 1 else 0, calendarMonth.toNat,
    (day - (153 * month + 2) / 5 + 1).toNat⟩

theorem ofMarchYear_spec {day : Int} (hpos : 0 ≤ day) (hle : day ≤ 365)
    (hleap : day = 365 → isLeapYear (year + 1)) : (ofMarchYear year day).Exists ∧
      (ofMarchYear year day).dayNumber =
        year * 365 + year / 4 - year / 100 + year / 400 + day - 719468 := by
  have hlow : 0 ≤ (5 * day + 2) / 153 := by omega
  have hhigh : (5 * day + 2) / 153 ≤ 11 := by omega
  obtain ⟨month, hmonth⟩ : ∃ month, (5 * day + 2) / 153 = month := ⟨_, rfl⟩
  rw [ofMarchYear, hmonth]
  rw [hmonth] at hlow hhigh
  interval_cases month
  case «11» =>
    have hfebruary : day - 337 + 1 ≤ if isLeapYear (year + 1) then 29 else 28 := by
      split <;> grind
    refine ⟨⟨?_, ?_, ?_, ?_⟩, ?_⟩
    all_goals simp [dayNumber, daysInMonth]
    all_goals omega
  all_goals refine ⟨⟨?_, ?_, ?_, ?_⟩, ?_⟩
  all_goals simp [dayNumber, daysInMonth]
  all_goals omega

theorem ofDayNumber_spec (n : Int) : (ofDayNumber n).Exists ∧ (ofDayNumber n).dayNumber = n := by
  obtain ⟨cycle, hcycle⟩ : ∃ cycle, (n + 719468) / 146097 = cycle := ⟨_, rfl⟩
  obtain ⟨r, hr⟩ : ∃ r, (n + 719468) % 146097 = r := ⟨_, rfl⟩
  obtain ⟨y, hy⟩ : ∃ y, yearOfCycle r = y := ⟨_, rfl⟩
  obtain ⟨hlow, hhigh, hbegin, hend, hleap⟩ := yearOfCycle_bounds (r := r) (by omega) (by omega) hy
  have hdate : ofDayNumber n =
      ofMarchYear (cycle * 400 + y) (r - (365 * y + y / 4 - y / 100)) := by
    rw [ofDayNumber, ofMarchYear]
    simp only [hcycle, hr]
    unfold yearOfCycle at hy
    simp only [hy]
  have hleap' : r - (365 * y + y / 4 - y / 100) = 365 → isLeapYear (cycle * 400 + y + 1) := by
    intro hday
    have hyear := hleap (by omega)
    simp only [isLeapYear, Bool.and_eq_true, Bool.or_eq_true, decide_eq_true_eq]
    omega
  have hpos : 0 ≤ r - (365 * y + y / 4 - y / 100) := by omega
  have hle : r - (365 * y + y / 4 - y / 100) ≤ 365 := by omega
  obtain ⟨hexists, hnumber⟩ := ofMarchYear_spec hpos hle hleap'
  rw [hdate]
  refine ⟨hexists, hnumber.trans ?_⟩
  have hquads : (cycle * 400 + y) / 4 = cycle * 100 + y / 4 := by omega
  have hcenturies : (cycle * 400 + y) / 100 = cycle * 4 + y / 100 := by omega
  have hcycles : (cycle * 400 + y) / 400 = cycle := by omega
  rw [hquads, hcenturies, hcycles]
  omega

end OData.Calendar.Date
