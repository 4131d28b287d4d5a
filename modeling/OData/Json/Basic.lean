import OData.Fields
import OData.Number.Shortest
import OData.Text.Octets

/-!
JSON documents, and their compact text. Objects keep their members in order.
-/

namespace OData

/-- A JSON document. A number is an integer of at most 64 bits, or a double. -/
inductive Json
  | null
  | boolean (b : Bool)
  | integer (n : Int)
  | real (x : Number.Double)
  | string (s : String)
  | array (items : List Json)
  | object (members : List (String × Json))
  deriving Inhabited

namespace Json

def isObject : Json → Bool
  | object _ => true
  | _ => false

def isArray : Json → Bool
  | array _ => true
  | _ => false

/-- Whole doubles below ten to the sixteenth, and those not smaller than a hundred-thousandth, have
their point in place; the others an exponent, with a plus sign above zero. -/
def realChars (x : Number.Double) : List Char :=
  match x.datum with
  | .nan | .infinite _ => "null".toList
  | .finite negative significand exponent =>
    let magnitude :=
      if significand = 0 then "0.0".toList
      else
        let digits := Number.shortest .toEven significand exponent
        if -4 ≤ digits.decade ∧ digits.decade ≤ 16 then digits.positional
        else digits.scientific true
    if negative then '-' :: magnitude else magnitude

/-- Quotes, backslashes and control characters are escaped, and nothing else. -/
def escapeChar (c : Char) : List Char :=
  if c = '"' then ['\\', '"']
  else if c = '\\' then ['\\', '\\']
  else if c = '\x08' then ['\\', 'b']
  else if c = '\x0c' then ['\\', 'f']
  else if c = '\n' then ['\\', 'n']
  else if c = '\r' then ['\\', 'r']
  else if c = '\t' then ['\\', 't']
  else if c.toNat < 32 then
    ['\\', 'u', '0', '0', Text.hexDigitLower (c.toNat / 16), Text.hexDigitLower (c.toNat % 16)]
  else [c]

def quoteChars (s : String) : List Char :=
  '"' :: s.toList.flatMap escapeChar ++ ['"']

mutual

/-- The text of a document without blanks. -/
def chars : Json → List Char
  | null => "null".toList
  | boolean b => (if b then "true" else "false").toList
  | integer n => Text.signedDecimal n
  | real x => realChars x
  | string s => quoteChars s
  | array items => '[' :: itemChars items ++ [']']
  | object members => '\x7b' :: memberChars members ++ ['\x7d']

def itemChars : List Json → List Char
  | [] => []
  | [item] => chars item
  | item :: rest => chars item ++ ',' :: itemChars rest

def memberChars : List (String × Json) → List Char
  | [] => []
  | [(name, value)] => quoteChars name ++ ':' :: chars value
  | (name, value) :: rest => quoteChars name ++ ':' :: chars value ++ ',' :: memberChars rest

end

/-- The text of a document without blanks. -/
def text (j : Json) : String :=
  String.ofList j.chars

end Json
end OData
