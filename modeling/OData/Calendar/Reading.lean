import OData.Calendar.Time
import OData.Text.Blank
import OData.Text.Search

/-!
Reading dates and times from text. Dates and times without an offset are read field by field with
blanks allowed before each number; a moment with an offset has fields of fixed width.
-/

namespace OData.Calendar

/-- Reads at least `least` and at most `most` ASCII digits. -/
def readNumber? (least most : Nat) (cs : List Char) : Option (Nat × List Char) :=
  let digits := (cs.take most).takeWhile Char.isDigit
  if digits.length < least then none
  else some (Text.digitsValue digits, cs.drop digits.length)

/-- Reads one or two digits with blanks before them, up to a greatest value. -/
def readField? (low high : Nat) (cs : List Char) : Option (Nat × List Char) := do
  let (n, rest) ← readNumber? 1 2 (Text.trimLeftWhile Text.isBlank cs)
  guard (low ≤ n ∧ n ≤ high)
  return (n, rest)

/-- Reads a year with blanks before it: at most four digits, or any number of them behind a sign. -/
def readYear? (cs : List Char) : Option (Int × List Char) :=
  match Text.trimLeftWhile Text.isBlank cs with
  | '-' :: rest => (readNumber? 1 rest.length rest).map fun (n, rest) ↦ (-(n : Int), rest)
  | '+' :: rest => (readNumber? 1 rest.length rest).map fun (n, rest) ↦ ((n : Int), rest)
  | rest => (readNumber? 1 4 rest).map fun (n, rest) ↦ ((n : Int), rest)

def readChar? (c : Char) : List Char → Option (List Char)
  | [] => none
  | d :: rest => if d = c then some rest else none

/-- Reads digits behind a point as nanoseconds; digits beyond the ninth do not count. Without a
point there is no fraction. -/
def readFraction? : List Char → Option (Nat × List Char)
  | '.' :: cs =>
    let (digits, rest) := Text.spanDigits cs
    if digits = [] then none
    else
      let kept := digits.take 9
      some (Text.digitsValue kept * Nat.pow 10 (9 - kept.length), rest)
  | cs => some (0, cs)

/-- Second 60 is a leap second. -/
def timeOf (hour minute second nanosecond : Nat) : Time :=
  if second = 60 then ⟨hour, minute, 59, nanosecond + 1000000000⟩
  else ⟨hour, minute, second, nanosecond⟩

def readDate? (cs : List Char) : Option (Date × List Char) := do
  let (year, cs) ← readYear? cs
  let cs ← readChar? '-' cs
  let (month, cs) ← readField? 1 12 cs
  let cs ← readChar? '-' cs
  let (day, cs) ← readField? 1 31 cs
  let date : Date := ⟨year, month, day⟩
  guard date.Valid
  return (date, cs)

def readHourMinute? (cs : List Char) : Option ((Nat × Nat) × List Char) := do
  let (hour, cs) ← readField? 0 23 cs
  let cs ← readChar? ':' cs
  let (minute, cs) ← readField? 0 59 cs
  return ((hour, minute), cs)

/-- Reads hour, minute and second, with an optional fraction. -/
def readTime? (cs : List Char) : Option (Time × List Char) := do
  let ((hour, minute), cs) ← readHourMinute? cs
  let cs ← readChar? ':' cs
  let (second, cs) ← readField? 0 60 cs
  let (nanosecond, cs) ← readFraction? cs
  return (timeOf hour minute second nanosecond, cs)

/-- What was read, if nothing is left. -/
def whole? {α : Type} : Option (α × List Char) → Option α
  | some (a, []) => some a
  | _ => none

def Date.ofChars? (cs : List Char) : Option Date :=
  whole? (readDate? cs)

def Time.ofChars? (cs : List Char) : Option Time :=
  whole? (readTime? cs)

/-- Reads a date and a time; the seconds may be left out. -/
def DateTime.ofChars? (cs : List Char) : Option DateTime :=
  let full : Option (DateTime × List Char) := do
    let (date, cs) ← readDate? cs
    let cs ← readChar? 'T' cs
    let (time, cs) ← readTime? cs
    return (⟨date, time⟩, cs)
  let short : Option (DateTime × List Char) := do
    let (date, cs) ← readDate? cs
    let cs ← readChar? 'T' cs
    let ((hour, minute), cs) ← readHourMinute? cs
    return (⟨date, ⟨hour, minute, 0, 0⟩⟩, cs)
  whole? full <|> whole? short

/-- Reads a number of fixed width up to a greatest value. -/
def readFixed? (width low high : Nat) (cs : List Char) : Option (Nat × List Char) := do
  let (n, rest) ← readNumber? width width cs
  guard (low ≤ n ∧ n ≤ high)
  return (n, rest)

/-- Reads an offset from universal time: a `Z`, or a sign with hours and minutes. -/
def readOffset? : List Char → Option (Int × List Char)
  | [] => none
  | c :: cs =>
    if c = 'Z' ∨ c = 'z' then some (0, cs)
    else do
      let sign : Int ←
        if c = '+' then some 1
        else if c = '-' ∨ c = '\u2212' then some (-1)
        else none
      let (hours, cs) ← readFixed? 2 0 23 cs
      let cs ← readChar? ':' cs
      let (minutes, cs) ← readFixed? 2 0 59 cs
      return (sign * ((hours * 3600 + minutes * 60 : Nat) : Int), cs)

/-- Reads a moment with an offset; a `T` or a blank stands between date and time. -/
def OffsetDateTime.ofChars? (cs : List Char) : Option OffsetDateTime :=
  whole? do
    let (year, cs) ← readFixed? 4 0 9999 cs
    let cs ← readChar? '-' cs
    let (month, cs) ← readFixed? 2 1 12 cs
    let cs ← readChar? '-' cs
    let (day, cs) ← readFixed? 2 1 31 cs
    let date : Date := ⟨year, month, day⟩
    guard date.Valid
    let cs ← readChar? 'T' cs <|> readChar? 't' cs <|> readChar? ' ' cs
    let (hour, cs) ← readFixed? 2 0 23 cs
    let cs ← readChar? ':' cs
    let (minute, cs) ← readFixed? 2 0 59 cs
    let cs ← readChar? ':' cs
    let (second, cs) ← readFixed? 2 0 60 cs
    let (nanosecond, cs) ← readFraction? cs
    let (offset, cs) ← readOffset? cs
    return (⟨date, timeOf hour minute second nanosecond, offset⟩, cs)

end OData.Calendar
