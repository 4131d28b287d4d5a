import OData.Calendar.Duration
import OData.Calendar.Time
import OData.Fields
import OData.Guid
import OData.Number.Decimal
import OData.Number.Floating

/-!
Values of the protocol's types.
-/

namespace OData

/-- A value with its type: the scalars, collections, records with their fields in order, and
inclusive ranges, which only a filter uses. -/
inductive Value
  | null
  | boolean (b : Bool)
  | int32 (n : Int32)
  | int64 (n : Int64)
  | decimal (d : Number.Decimal)
  | single (x : Number.Single)
  | double (x : Number.Double)
  | string (s : String)
  | guid (g : Guid)
  | dateTime (d : Calendar.DateTime)
  | dateTimeOffset (d : Calendar.OffsetDateTime)
  | date (d : Calendar.Date)
  | timeOfDay (t : Calendar.Time)
  | duration (d : Calendar.Duration)
  | binary (octets : List UInt8)
  | collection (items : List Value)
  | record (fields : List (String × Value))
  | range (low high : Value)
  deriving Inhabited

/-- Fields in order, each name once. -/
abbrev Record := List (String × Value)

namespace Value

def isScalar : Value → Bool
  | collection _ | record _ | range _ _ => false
  | _ => true

def isNull : Value → Bool
  | null => true
  | _ => false

def asRecord? : Value → Option Record
  | record fields => some fields
  | _ => none

def asCollection? : Value → Option (List Value)
  | collection items => some items
  | _ => none

def asString? : Value → Option String
  | string s => some s
  | _ => none

/-- The integer that a value of an integer type is, or a decimal without fraction. -/
def asInteger? : Value → Option Int
  | int32 n => some n.toInt
  | int64 n => some n.toInt
  | decimal d => d.toInt64?
  | _ => none

def typeName : Value → String
  | null => "null"
  | boolean _ => "Edm.Boolean"
  | int32 _ => "Edm.Int32"
  | int64 _ => "Edm.Int64"
  | decimal _ => "Edm.Decimal"
  | single _ => "Edm.Single"
  | double _ => "Edm.Double"
  | string _ => "Edm.String"
  | guid _ => "Edm.Guid"
  | dateTime _ => "Edm.DateTime"
  | dateTimeOffset _ => "Edm.DateTimeOffset"
  | date _ => "Edm.Date"
  | timeOfDay _ => "Edm.TimeOfDay"
  | duration _ => "Edm.Duration"
  | binary _ => "Edm.Binary"
  | collection _ => "Collection"
  | record _ => "Record"
  | range _ _ => "Range"

end Value
end OData
