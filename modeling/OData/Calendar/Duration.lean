import OData.Text.Digits

/-!
Spans of time, exact to the nanosecond, and their text by days, hours, minutes and seconds.
-/

namespace OData.Calendar

structure Duration where
  nanoseconds : Int
  deriving DecidableEq, Repr

namespace Duration

def ofSeconds (seconds : Int) (nanoseconds : Nat) : Duration :=
  ⟨seconds * 1000000000 + nanoseconds⟩

/-- One component of the text, left out where it is zero. -/
def part (n : Nat) (unit : Char) : List Char :=
  if n = 0 then [] else Text.decimal n ++ [unit]

/-- The digits of a fraction of a second without zeros at the end. -/
def fractionDigits (nanosecond : Nat) : List Char :=
  ((Text.paddedDecimal 9 nanosecond).reverse.dropWhile (· = '0')).reverse

/-- The seconds of a text whose hours and minutes are given; they are written where they are not
zero, or where nothing else is. -/
def secondsPart (seconds nanosecond : Nat) (onlyPart : Bool) : List Char :=
  if nanosecond ≠ 0 then Text.decimal seconds ++ '.' :: fractionDigits nanosecond ++ ['S']
  else if seconds ≠ 0 || onlyPart then Text.decimal seconds ++ ['S']
  else []

def chars (d : Duration) : List Char :=
  let total := d.nanoseconds.natAbs
  let nanosecond := total % 1000000000
  let wholeSeconds := total / 1000000000
  let days := wholeSeconds / 86400
  let hours := wholeSeconds / 3600 % 24
  let minutes := wholeSeconds / 60 % 60
  let seconds := wholeSeconds % 60
  let hasTime := hours ≠ 0 || minutes ≠ 0 || seconds ≠ 0 || nanosecond ≠ 0
  (if d.nanoseconds < 0 then ['-'] else []) ++ 'P' :: part days 'D' ++
    if hasTime || days = 0 then
      'T' :: part hours 'H' ++ part minutes 'M' ++ secondsPart seconds nanosecond (!hasTime)
    else []

def text (d : Duration) : String :=
  String.ofList d.chars

end Duration
end OData.Calendar
