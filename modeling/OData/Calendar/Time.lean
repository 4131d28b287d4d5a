import OData.Calendar.Date

/-!
Times of day, moments with and without an offset from universal time, and how they are written.

A leap second is second 59 with a full second or more of nanoseconds; it is written as second 60.
-/

namespace OData.Calendar

structure Time where
  hour : Nat
  minute : Nat
  second : Nat
  nanosecond : Nat
  deriving DecidableEq, Repr

/-- A date and a time of day, without an offset. -/
structure DateTime where
  date : Date
  time : Time
  deriving DecidableEq, Repr

/-- A local date and time, with the seconds that it is ahead of universal time. -/
structure OffsetDateTime where
  date : Date
  time : Time
  offset : Int
  deriving DecidableEq, Repr

/-- A fraction of a second by thousandths, millionths or billionths, as many as it needs; none for a
whole second. -/
def fractionChars (nanosecond : Nat) : List Char :=
  if nanosecond = 0 then []
  else if nanosecond % 1000000 = 0 then '.' :: Text.paddedDecimal 3 (nanosecond / 1000000)
  else if nanosecond % 1000 = 0 then '.' :: Text.paddedDecimal 6 (nanosecond / 1000)
  else '.' :: Text.paddedDecimal 9 nanosecond

namespace Time

def secondOfDay (t : Time) : Nat :=
  (t.hour * 60 + t.minute) * 60 + t.second

def ofSecondOfDay (second nanosecond : Nat) : Time :=
  ⟨second / 3600, second / 60 % 60, second % 60, nanosecond⟩

def chars (t : Time) : List Char :=
  Text.paddedDecimal 2 t.hour ++ ':' :: Text.paddedDecimal 2 t.minute ++
    ':' :: Text.paddedDecimal 2 (t.second + t.nanosecond / 1000000000) ++
    fractionChars (t.nanosecond % 1000000000)

end Time

namespace DateTime

def chars (d : DateTime) : List Char :=
  d.date.chars ++ 'T' :: d.time.chars

/-- Seconds from the start of 1970 to the second that `d` lies in. -/
def secondNumber (d : DateTime) : Int :=
  d.date.dayNumber * 86400 + (d.time.secondOfDay : Int)

/-- The moment some seconds and nanoseconds from the start of 1970. -/
def ofSecondNumber (second : Int) (nanosecond : Nat) : DateTime :=
  ⟨Date.ofDayNumber (second / 86400), Time.ofSecondOfDay (second % 86400).toNat nanosecond⟩

/-- The moment some milliseconds from the start of 1970, if dates are kept for its year. -/
def ofUnixMillis? (millis : Int) : Option DateTime :=
  let d := ofSecondNumber (millis / 1000) ((millis % 1000).toNat * 1000000)
  if Date.firstYear ≤ d.date.year ∧ d.date.year ≤ Date.lastYear then some d else none

/-- The local time at an offset, where `d` is universal time. -/
def toOffset (d : DateTime) (offset : Int) : OffsetDateTime :=
  let shifted := ofSecondNumber (d.secondNumber + offset) d.time.nanosecond
  ⟨shifted.date, shifted.time, offset⟩

end DateTime

/-- An offset from universal time in hours and minutes, to the nearest minute. -/
def offsetChars (offset : Int) : List Char :=
  let minutes := (offset.natAbs + 30) / 60
  (if offset < 0 then '-' else '+') :: Text.paddedDecimal 2 (minutes / 60) ++
    ':' :: Text.paddedDecimal 2 (minutes % 60)

def OffsetDateTime.chars (d : OffsetDateTime) : List Char :=
  (DateTime.mk d.date d.time).chars ++ offsetChars d.offset

end OData.Calendar
