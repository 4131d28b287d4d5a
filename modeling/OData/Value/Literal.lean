import OData.Value.Json

/-!
Literals: the text of a value in a filter, in a key or among the arguments of a function. The two
dialects differ in most types beyond booleans, small integers and strings.
-/

namespace OData

/-- Why a value has no literal. -/
inductive LiteralFault
  | collection
  | noForm (typeName : String)
  deriving DecidableEq, Repr

def LiteralFault.message : LiteralFault → String
  | collection => "collection literals are not supported by the V3 dialect"
  | noForm typeName => typeName ++ " values have no literal representation"

namespace Literal

def doubleQuotes (cs : List Char) : List Char :=
  cs.flatMap fun c ↦ if c = '\'' then ['\'', '\''] else [c]

/-- A string between quotes, the quotes in it doubled. -/
def quoteChars (cs : List Char) : List Char :=
  '\'' :: doubleQuotes cs ++ ['\'']

def quote (s : String) : String :=
  String.ofList (quoteChars s.toList)

/-- Whether a finite datum is a whole number. -/
def isWhole (significand : Nat) (exponent : Int) : Bool :=
  0 ≤ exponent || significand % Nat.pow 2 (-exponent).toNat = 0

/-- Whole numbers from ten to the fifteenth on have an exponent, as plain digits would read back as
an integer; all others have their point in place. -/
def realChars (x : Number.Double) : List Char :=
  match x.datum with
  | .nan => "NaN".toList
  | .infinite negative => (if negative then "-INF" else "INF").toList
  | .finite negative significand exponent =>
    let magnitude :=
      if significand = 0 then "0.0".toList
      else
        let digits := Number.shortest .up significand exponent
        if isWhole significand exponent && 15 < digits.decade then digits.scientific false
        else digits.positional
    if negative then '-' :: magnitude else magnitude

/-- The time of day as the span since midnight. -/
def sinceMidnight (t : Calendar.Time) : Calendar.Duration :=
  .ofSeconds t.secondOfDay t.nanosecond

/-- Text between quotes behind a word that names its type. -/
def wrapped (word : String) (cs : List Char) : List Char :=
  word.toList ++ '\'' :: cs ++ ['\'']

def chars (version : Version) : Value → Except LiteralFault (List Char)
  | .null => .ok "null".toList
  | .boolean b => .ok (if b then "true" else "false").toList
  | .int32 n => .ok (Text.signedDecimal n.toInt)
  | .int64 n =>
    .ok (Text.signedDecimal n.toInt ++
      match version with
      | .v3 => ['L']
      | .v4 => [])
  | .decimal d =>
    .ok (d.chars ++
      match version with
      | .v3 => ['M']
      | .v4 => [])
  | .single x =>
    .ok (realChars x.toDouble ++
      match version with
      | .v3 => ['f']
      | .v4 => [])
  | .double x => .ok (realChars x)
  | .string s => .ok (quoteChars s.toList)
  | .guid g =>
    match version with
    | .v3 => .ok (wrapped "guid" g.chars)
    | .v4 => .ok g.chars
  | .dateTime d =>
    match version with
    | .v3 => .ok (wrapped "datetime" d.chars)
    | .v4 => .ok (d.chars ++ ['Z'])
  | .dateTimeOffset d =>
    match version with
    | .v3 => .ok (wrapped "datetimeoffset" d.chars)
    | .v4 => .ok d.chars
  | .date d =>
    match version with
    | .v3 => .ok (wrapped "datetime" (d.chars ++ "T00:00:00".toList))
    | .v4 => .ok d.chars
  | .timeOfDay t =>
    match version with
    | .v3 => .ok (wrapped "time" (sinceMidnight t).chars)
    | .v4 => .ok t.chars
  | .duration d =>
    match version with
    | .v3 => .ok (wrapped "time" d.chars)
    | .v4 => .ok (wrapped "duration" d.chars)
  | .binary octets =>
    match version with
    | .v3 => .ok (wrapped "X" (octets.flatMap Text.hexPairUpper))
    | .v4 => .ok (wrapped "binary" (Text.Base64.encode .forAddresses octets))
  | .collection items =>
    match version with
    | .v3 => .error .collection
    | .v4 => .ok (Value.toJson .v4 (.collection items)).chars
  | .record fields => .error (.noForm (Value.record fields).typeName)
  | .range low high => .error (.noForm (Value.range low high).typeName)

def text (version : Version) (v : Value) : Except LiteralFault String :=
  (chars version v).map String.ofList

end Literal
end OData
