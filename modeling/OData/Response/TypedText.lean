import OData.Calendar.Reading
import OData.Number.Reading
import OData.Response.Error
import OData.Text.Base64
import OData.Value

/-!
Texts of typed properties as values. Types that are not listed here stay text.
-/

namespace OData.TypedText

/-- A double; infinities and what is no number have names of their own. -/
def double? (text : String) : Option Number.Double :=
  match text with
  | "INF" => some (.infinity false)
  | "-INF" => some (.infinity true)
  | "NaN" => some .nan
  | _ => Number.readDouble? text.toList

/-- A moment without an offset; the mark of universal time at its end does not count. -/
def dateTime? (text : String) : Option Calendar.DateTime :=
  Calendar.DateTime.ofChars? (Text.trimRightWhile (· = 'Z') text.toList)

/-- The value that a text denotes in a type; without a type it is a string. -/
def value (typeName : Option String) (text : String) : Except ResponseFault Value :=
  let cs := text.toList
  let typeName := typeName.getD "Edm.String"
  let required {α : Type} (detail : Option String) (read : Option α) (make : α → Value) :
      Except ResponseFault Value :=
    match read with
    | some a => .ok (make a)
    | none => .error (.invalidValue typeName text detail)
  let integer (low high : Int) (make : Int → Value) : Except ResponseFault Value :=
    match Number.readInteger low high cs with
    | .ok n => .ok (make n)
    | .error fault => .error (.invalidValue typeName text (some fault.message))
  match typeName with
  | "Edm.Int32" | "Edm.Int16" | "Edm.Byte" | "Edm.SByte" =>
    integer Int32.minValue.toInt Int32.maxValue.toInt fun n ↦ .int32 (Int32.ofInt n)
  | "Edm.Int64" =>
    integer Int64.minValue.toInt Int64.maxValue.toInt fun n ↦ .int64 (Int64.ofInt n)
  | "Edm.Decimal" => required none (Number.Decimal.ofChars? cs) .decimal
  | "Edm.Double" => required (some "not a number") (double? text) .double
  | "Edm.Single" => required (some "not a number") (double? text) fun x ↦ .single (.ofDouble x)
  | "Edm.Boolean" => .ok (.boolean (Text.sameIgnoringCase text "true" || text = "1"))
  | "Edm.Guid" => required none (Guid.ofChars? cs) .guid
  | "Edm.DateTime" => required (some "not a date") (dateTime? text) .dateTime
  | "Edm.DateTimeOffset" =>
    required none (Calendar.OffsetDateTime.ofChars? cs) .dateTimeOffset
  | "Edm.Date" => required none (Calendar.Date.ofChars? cs) .date
  | "Edm.TimeOfDay" => required none (Calendar.Time.ofChars? cs) .timeOfDay
  | "Edm.Binary" => required none (Text.Base64.decode? .standard (Text.trim cs)) .binary
  | _ => .ok (.string text)

end OData.TypedText
