import OData.Calendar.Time
import OData.Json.Basic
import OData.Text.Search
import OData.Value.Json

/-!
Dates in verbose JSON: a string `/Date(ms)/` counts milliseconds from the start of 1970, and may
give an offset from universal time in minutes, as in `/Date(0+0060)/`.
-/

namespace OData.VerboseDate

/-- Reads a sign with four digits of minutes; there are fewer than a day's. -/
def readMinutes? (cs : List Char) : Option (Int × List Char) :=
  match cs with
  | sign :: a :: b :: c :: d :: rest =>
    let minutes := Text.digitsValue [a, b, c, d]
    if (sign = '+' ∨ sign = '-') ∧ [a, b, c, d].all Char.isDigit ∧ minutes < 1440 then
      some (if sign = '-' then -(minutes : Int) else minutes, rest)
    else none
  | _ => none

/-- Reads milliseconds with an optional minus sign. -/
def readMillis? (cs : List Char) : Option (Int × List Char) :=
  let (negative, digits) :=
    match cs with
    | '-' :: rest => (true, rest)
    | _ => (false, cs)
  match Text.spanDigits digits with
  | ([], _) => none
  | (ds, rest) =>
    let n : Int := Text.digitsValue ds
    some (if negative then -n else n, rest)

/-- The moment that a string denotes, if it is of that form. -/
def ofString? (s : String) : Option Value := do
  let rest ← Text.afterPrefix? "/Date(".toList s.toList
  let (millis, rest) ← readMillis? rest
  let moment ← Calendar.DateTime.ofUnixMillis? millis
  if rest = ")/".toList then
    return .dateTime moment
  else
    let (minutes, rest) ← readMinutes? rest
    guard (rest = ")/".toList)
    return .dateTimeOffset (moment.toOffset (minutes * 60))

mutual

/-- The value of a field: strings of the date form are moments, also within arrays. -/
def ofField : Json → Value
  | .string s => (ofString? s).getD (.string s)
  | .array items => .collection (ofItems items)
  | other => .ofJson other

def ofItems : List Json → List Value
  | [] => []
  | item :: rest => ofField item :: ofItems rest

end

theorem ofItems_eq_map (items : List Json) : ofItems items = items.map ofField := by
  induction items with
  | nil => rfl
  | cons item rest ih => rw [ofItems, List.map_cons, ih]

end OData.VerboseDate
