import OData.Text.Digits

/-!
Days of the proleptic Gregorian calendar, and their numbers counted from the first of January 1970.
-/

namespace OData.Calendar

structure Date where
  year : Int
  month : Nat
  day : Nat
  deriving DecidableEq, Repr

def isLeapYear (year : Int) : Bool :=
  year % 4 = 0 && (year % 100 ≠ 0 || year % 400 = 0)

def daysInMonth (year : Int) : (month : Nat) → Nat
  | 2 => if isLeapYear year then 29 else 28
  | 4 | 6 | 9 | 11 => 30
  | _ => 31

namespace Date

/-- The years that dates are kept for. -/
def firstYear : Int := -262143

def lastYear : Int := 262142

/-- A day that exists, in a year that dates are kept for. -/
def Valid (d : Date) : Prop :=
  firstYear ≤ d.year ∧ d.year ≤ lastYear ∧ 1 ≤ d.month ∧ d.month ≤ 12 ∧ 1 ≤ d.day ∧
    d.day ≤ daysInMonth d.year d.month

instance (d : Date) : Decidable d.Valid :=
  inferInstanceAs (Decidable (_ ∧ _))

/-- The number of days from the first of January 1970. Years are counted from March, so that the
leap day is the last of its year. -/
def dayNumber (d : Date) : Int :=
  let year := if d.month ≤ 2 then d.year - 1 else d.year
  let month : Int := ((d.month + 9) % 12 : Nat)
  let dayOfYear := (153 * month + 2) / 5 + (d.day : Int) - 1
  year * 365 + year / 4 - year / 100 + year / 400 + dayOfYear - 719468

/-- The day with a given number, found through its place in a cycle of four hundred years. -/
def ofDayNumber (n : Int) : Date :=
  let shifted := n + 719468
  let cycle := shifted / 146097
  let dayOfCycle := shifted % 146097
  let yearOfCycle :=
    (dayOfCycle - dayOfCycle / 1460 + dayOfCycle / 36524 - dayOfCycle / 146096) / 365
  let dayOfYear := dayOfCycle - (365 * yearOfCycle + yearOfCycle / 4 - yearOfCycle / 100)
  let month := (5 * dayOfYear + 2) / 153
  let day := dayOfYear - (153 * month + 2) / 5 + 1
  let calendarMonth := if month < 10 then month + 3 else month - 9
  let year := cycle * 400 + yearOfCycle + if calendarMonth ≤ 2 then 1 else 0
  ⟨year, calendarMonth.toNat, day.toNat⟩

/-- Four digits of year; a year outside 0 to 9999 has a sign. -/
def yearChars (year : Int) : List Char :=
  let digits := Text.paddedDecimal 4 year.natAbs
  if year < 0 then '-' :: digits
  else if 9999 < year then '+' :: digits
  else digits

def chars (d : Date) : List Char :=
  yearChars d.year ++ '-' :: Text.paddedDecimal 2 d.month ++ '-' :: Text.paddedDecimal 2 d.day

end Date
end OData.Calendar
