import OData.Response.Builder
import OData.Response.OfAtom
import OData.Response.OfJson
import OData.Text.AsciiCase

/-!
The notations that responses come in, and how a body in one of them is read.
-/

namespace OData

inductive PayloadFormat
  | json
  | atom
  deriving DecidableEq, Repr, Inhabited

namespace PayloadFormat

def name : PayloadFormat → String
  | json => "json"
  | atom => "atom"

def mediaType : PayloadFormat → String
  | json => "application/json"
  | atom => "application/atom+xml"

/-- The notation that a content type speaks of. -/
def ofContentType? (contentType : String) : Option PayloadFormat :=
  let lower := Text.lower contentType.toList
  if Text.occursIn "json".toList lower then some json
  else if Text.occursIn "xml".toList lower then some atom
  else none

/-- The notation of a name in any letter case. -/
def ofText (name : String) : Except ReadError PayloadFormat :=
  let lower := String.ofList (Text.lower name.toList)
  if lower = "json" then .ok json
  else if lower = "atom" ∨ lower = "xml" then .ok atom
  else .error (.malformed (.unknownFormat lower))

def signals (format : PayloadFormat) (body : String) : List Signal :=
  match format with
  | json => OfJson.ofText body
  | atom => OfAtom.signals body

end PayloadFormat

/-- Reads a body; the fields of each entry pass through a converter. -/
def Node.ofBodyWith (convert : Converter) (format : PayloadFormat) (body : String) :
    Except ReadError Node :=
  Node.ofSignals convert (format.signals body)

def Node.ofBody (format : PayloadFormat) (body : String) : Except ReadError Node :=
  Node.ofBodyWith .ok format body

end OData
