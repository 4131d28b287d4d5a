import OData.Calendar.Time
import OData.Proofs.Calendar.DayNumber

/-!
Moments as days and times of day. A moment that is found from a number of milliseconds is that number of
milliseconds from the start of 1970, and it is the only one; it is found for the years that dates are kept
for.
-/

namespace OData.Calendar

/-- A time of day outside of leap seconds. -/
structure Time.Exists (t : Time) : Prop where
  hour_lt : t.hour < 24
  minute_lt : t.minute < 60
  second_lt : t.second < 60
  nanosecond_lt : t.nanosecond < 1000000000

namespace Time

variable {s t : Time}

theorem secondOfDay_lt (h : t.Exists) : t.secondOfDay < 86400 := by
  have h₁ := h.hour_lt
  have h₂ := h.minute_lt
  have h₃ := h.second_lt
  rw [secondOfDay]
  omega

theorem eq_of_secondOfDay_eq (hs : s.Exists) (ht : t.Exists) (h : s.secondOfDay = t.secondOfDay)
    (hns : s.nanosecond = t.nanosecond) : s = t := by
  obtain ⟨hour, minute, second, nanosecond⟩ := s
  obtain ⟨hour', minute', second', nanosecond'⟩ := t
  have h₁ := hs.minute_lt
  have h₂ := hs.second_lt
  have h₃ := ht.minute_lt
  have h₄ := ht.second_lt
  simp only [secondOfDay] at h h₁ h₂ h₃ h₄ hns
  simp only [mk.injEq]
  omega

end Time

namespace DateTime

/-- What calendar and clock show some milliseconds from the start of 1970. -/
structure IsAt (d : DateTime) (millis : Int) : Prop where
  date : d.date.Exists
  time : d.time.Exists
  elapsed : ∃ day, d.date.IsDay day ∧
    (day * 86400 + d.time.secondOfDay) * 1000000000 + d.time.nanosecond = millis * 1000000

/-- The first and the last millisecond of the years that dates are kept for. -/
def firstMillis : Int := -8334601228800000

def lastMillis : Int := 8210266876799999

variable {d e : DateTime} {millis : Int}

theorem isAt_iff (hdate : d.date.Exists) (htime : d.time.Exists) : d.IsAt millis ↔
    d.secondNumber * 1000000000 + d.time.nanosecond = millis * 1000000 := by
  constructor
  · rintro ⟨-, -, day, hday, helapsed⟩
    rw [Date.isDay_iff hdate] at hday
    rw [secondNumber, hday, helapsed]
  · intro helapsed
    exact ⟨hdate, htime, _, (Date.isDay_iff hdate).2 rfl, helapsed⟩

theorem IsAt.secondNumber_eq (h : d.IsAt millis) :
    d.secondNumber = millis / 1000 ∧ d.time.nanosecond = millis % 1000 * 1000000 := by
  have helapsed := (isAt_iff h.date h.time).1 h
  have hns := h.time.nanosecond_lt
  omega

/-- There is one moment a number of milliseconds. -/
theorem IsAt.eq (hd : d.IsAt millis) (he : e.IsAt millis) : d = e := by
  obtain ⟨hsecond, hns⟩ := hd.secondNumber_eq
  obtain ⟨hsecond', hns'⟩ := he.secondNumber_eq
  have hlt := Time.secondOfDay_lt hd.time
  have hlt' := Time.secondOfDay_lt he.time
  rw [secondNumber] at hsecond hsecond'
  have hdate : d.date = e.date := Date.eq_of_dayNumber_eq hd.date he.date (by omega)
  have htime : d.time = e.time := Time.eq_of_secondOfDay_eq hd.time he.time (by omega) (by omega)
  cases d
  cases e
  simp only [mk.injEq]
  exact ⟨hdate, htime⟩

theorem isAt_ofSecondNumber {second : Int} {nanosecond : Nat} (hlt : nanosecond < 1000000000)
    (h : second * 1000000000 + nanosecond = millis * 1000000) :
    (ofSecondNumber second nanosecond).IsAt millis := by
  obtain ⟨hexists, hnumber⟩ := Date.ofDayNumber_spec (second / 86400)
  have htime : (Time.ofSecondOfDay (second % 86400).toNat nanosecond).Exists := by
    constructor <;> simp only [Time.ofSecondOfDay] <;> omega
  rw [isAt_iff hexists htime, secondNumber, ofSecondNumber, hnumber]
  simp only [Time.secondOfDay, Time.ofSecondOfDay]
  omega

theorem isAt_ofUnixMillis (millis : Int) :
    (ofSecondNumber (millis / 1000) ((millis % 1000).toNat * 1000000)).IsAt millis :=
  isAt_ofSecondNumber (by omega) (by omega)

theorem IsAt.kept_iff (h : d.IsAt millis) :
    (Date.firstYear ≤ d.date.year ∧ d.date.year ≤ Date.lastYear) ↔
      firstMillis ≤ millis ∧ millis ≤ lastMillis := by
  have hfirst : Date.dayNumber ⟨Date.firstYear, 1, 1⟩ * 86400000 = firstMillis := by decide
  have hlast : Date.dayNumber ⟨Date.lastYear + 1, 1, 1⟩ * 86400000 = lastMillis + 1 := by decide
  have hkept : d.date.year ≤ Date.lastYear ↔ ¬ Date.lastYear + 1 ≤ d.date.year := by omega
  have hsecond := h.secondNumber_eq.1
  have hlt := Time.secondOfDay_lt h.time
  rw [secondNumber] at hsecond
  rw [hkept, Date.le_year_iff h.date, Date.le_year_iff h.date]
  omega

/-- A number of milliseconds has a moment if its year is one that dates are kept for. -/
theorem ofUnixMillis?_eq_some_iff :
    ofUnixMillis? millis = some d ↔ d.IsAt millis ∧ firstMillis ≤ millis ∧ millis ≤ lastMillis := by
  have hat := isAt_ofUnixMillis millis
  rw [ofUnixMillis?, if_congr hat.kept_iff rfl rfl]
  constructor
  · intro h
    split at h
    · obtain rfl := Option.some.inj h
      exact ⟨hat, ‹_›⟩
    · contradiction
  · rintro ⟨hd, hkept⟩
    rw [if_pos hkept, hat.eq hd]

end DateTime

/-- The local time at a moment and an offset from universal time. -/
structure OffsetDateTime.IsAt (d : OffsetDateTime) (millis : Int) : Prop where
  isAt : (DateTime.mk d.date d.time).IsAt (millis + d.offset * 1000)

theorem DateTime.IsAt.toOffset {d : DateTime} {millis : Int} (h : d.IsAt millis) (offset : Int) :
    (d.toOffset offset).offset = offset ∧ (d.toOffset offset).IsAt millis := by
  obtain ⟨hsecond, hns⟩ := h.secondNumber_eq
  refine ⟨rfl, ⟨?_⟩⟩
  have helapsed : (d.secondNumber + offset) * 1000000000 + d.time.nanosecond =
      (millis + offset * 1000) * 1000000 := by omega
  exact DateTime.isAt_ofSecondNumber h.time.nanosecond_lt helapsed

end OData.Calendar
