import OData.Json.Basic
import OData.Text.Base64
import OData.Value
import OData.Version

/-!
Values as JSON. The older dialect carries wide integers and decimals as strings, the newer one as
numbers; what JSON has no type for travels as text.
-/

namespace OData.Value

/-- A finite number; any other has no form in JSON. -/
def realJson (x : Number.Double) : Json :=
  if x.isFinite then .real x else .null

mutual

def toJson (version : Version) : Value → Json
  | null => .null
  | boolean b => .boolean b
  | int32 n => .integer n.toInt
  | int64 n =>
    match version with
    | .v3 => .string (String.ofList (Text.signedDecimal n.toInt))
    | .v4 => .integer n.toInt
  | decimal d =>
    match version with
    | .v3 => .string d.text
    | .v4 => realJson d.toDouble
  | single x => realJson x.toDouble
  | double x => realJson x
  | string s => .string s
  | guid g => .string g.text
  | dateTime d =>
    match version with
    | .v3 => .string (String.ofList d.chars)
    | .v4 => .string (String.ofList (d.chars ++ Calendar.offsetChars 0))
  | dateTimeOffset d => .string (String.ofList d.chars)
  | date d => .string (String.ofList d.chars)
  | timeOfDay t => .string (String.ofList t.chars)
  | duration d => .string d.text
  | binary octets => .string (String.ofList (Text.Base64.encode .standard octets))
  | collection items => .array (itemsToJson version items)
  | record fields => .object (fieldsToJson version fields)
  | range low high => .array [toJson version low, toJson version high]

def itemsToJson (version : Version) : List Value → List Json
  | [] => []
  | item :: rest => toJson version item :: itemsToJson version rest

def fieldsToJson (version : Version) : List (String × Value) → List (String × Json)
  | [] => []
  | (name, value) :: rest => (name, toJson version value) :: fieldsToJson version rest

end

/-- An integer of the narrowest type that holds it; beyond 64 bits with sign it becomes a double. -/
def ofInteger (n : Int) : Value :=
  if Int32.minValue.toInt ≤ n ∧ n ≤ Int32.maxValue.toInt then int32 (Int32.ofInt n)
  else if Int64.minValue.toInt ≤ n ∧ n ≤ Int64.maxValue.toInt then int64 (Int64.ofInt n)
  else double (.ofInt n)

theorem ofInteger_toInt (n : Int32) : ofInteger n.toInt = int32 n := by
  rw [ofInteger, if_pos ⟨n.minValue_le_toInt, n.toInt_le⟩, Int32.ofInt_toInt]

mutual

/-- The value that a document denotes. Strings stay strings. -/
def ofJson : Json → Value
  | .null => null
  | .boolean b => boolean b
  | .integer n => ofInteger n
  | .real x => double x
  | .string s => string s
  | .array items => collection (itemsOfJson items)
  | .object members => record (fieldsOfJson members)

def itemsOfJson : List Json → List Value
  | [] => []
  | item :: rest => ofJson item :: itemsOfJson rest

def fieldsOfJson : List (String × Json) → List (String × Value)
  | [] => []
  | (name, value) :: rest => (name, ofJson value) :: fieldsOfJson rest

end

end OData.Value
