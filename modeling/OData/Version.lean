import OData.Text.Blank

/-!
The two dialects of the query protocol: their names, and how a version number is read.
-/

namespace OData

/-- The dialect a client and a service speak. -/
inductive Version
  | v3
  | v4
  deriving DecidableEq, Repr, Inhabited

/-- A text that names no dialect. -/
structure UnknownVersion where
  text : String
  deriving DecidableEq, Repr

def UnknownVersion.message (e : UnknownVersion) : String :=
  "Unsupported protocol version: '" ++ e.text ++ "'"

namespace Version

def name : Version → String
  | v3 => "V3"
  | v4 => "V4"

/-- The header in which a request states its version. -/
def headerName : Version → String
  | v3 => "DataServiceVersion"
  | v4 => "OData-Version"

/-- The header in which a request states the highest version that its answer may be in. -/
def maxHeaderName : Version → String
  | v3 => "MaxDataServiceVersion"
  | v4 => "OData-MaxVersion"

def headerValue : Version → String
  | v3 => "3.0"
  | v4 => "4.0"

/-- Reads a version number; blanks around it and any number of leading `V`s do not count. -/
def ofText (text : String) : Except UnknownVersion Version :=
  let number := (Text.trim text.toList).dropWhile fun c ↦ c = 'V' || c = 'v'
  match String.ofList number with
  | "3" | "3.0" => .ok v3
  | "4" | "4.0" | "4.01" => .ok v4
  | _ => .error ⟨text⟩

end Version
end OData
