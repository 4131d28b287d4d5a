import OData.Number.Floating
import OData.Text.AsciiCase
import OData.Text.Digits

/-!
Reading numbers from text: integers with a sign, and doubles in decimal notation, rounded to the
nearest one.
-/

namespace OData.Number

/-- Why a text is no integer of some range. -/
inductive IntegerFault
  | empty
  | digit
  | tooLarge
  | tooSmall
  deriving DecidableEq, Repr

def IntegerFault.message : IntegerFault → String
  | empty => "cannot parse integer from empty string"
  | digit => "invalid digit found in string"
  | tooLarge => "number too large to fit in target type"
  | tooSmall => "number too small to fit in target type"

/-- Reads digits behind a sign, the most significant first, as long as the number stays in range. -/
def readSigned (low high : Int) (negative : Bool) (read : Int) : List Char → Except IntegerFault Int
  | [] => .ok read
  | c :: cs =>
    if c.isDigit then
      let digit : Int := (c.toNat - 48 : Nat)
      let n := if negative then read * 10 - digit else read * 10 + digit
      if high < n then .error .tooLarge
      else if n < low then .error .tooSmall
      else readSigned low high negative n cs
    else .error .digit

/-- Reads an integer between two bounds, with an optional sign. -/
def readInteger (low high : Int) : List Char → Except IntegerFault Int
  | [] => .error .empty
  | ['+'] | ['-'] => .error .digit
  | '+' :: digits => readSigned low high false 0 digits
  | '-' :: digits => readSigned low high true 0 digits
  | digits => readSigned low high false 0 digits

/-- Reads a natural number up to a bound, with an optional plus sign. -/
def readNatural (high : Nat) : List Char → Except IntegerFault Nat
  | [] => .error .empty
  | ['+'] => .error .digit
  | '+' :: digits => (readSigned 0 high false 0 digits).map Int.toNat
  | digits => (readSigned 0 high false 0 digits).map Int.toNat

/-- The double nearest to `digits` times ten to `exponent`. Beyond four hundred decades the answer
is zero or infinite and the power is not formed. -/
def doubleOfDecimal (negative : Bool) (digits : Nat) (exponent : Int) : Double :=
  if digits = 0 then .ofRat negative 0
  else
    let decade := exponent + ((Text.decimal digits).length : Int)
    if decade < -400 then .ofRat negative 0
    else if 400 < decade then .infinity negative
    else .ofRat negative ((digits : Rat) * powTen exponent)

/-- Reads an exponent: an optional sign and at least one digit. -/
def readExponent? : List Char → Option Int
  | '-' :: digits => do
    guard (digits ≠ [] ∧ digits.all Char.isDigit)
    return -(Text.digitsValue digits : Int)
  | '+' :: digits => do
    guard (digits ≠ [] ∧ digits.all Char.isDigit)
    return (Text.digitsValue digits : Int)
  | digits => do
    guard (digits ≠ [] ∧ digits.all Char.isDigit)
    return (Text.digitsValue digits : Int)

/-- Reads an unsigned decimal number: digits with an optional point, at least one digit, and an
optional exponent. -/
def readUnsigned? (negative : Bool) (cs : List Char) : Option Double := do
  let (whole, rest) := Text.spanDigits cs
  let (fraction, rest) :=
    match rest with
    | '.' :: rest => Text.spanDigits rest
    | _ => ([], rest)
  guard (whole ++ fraction ≠ [])
  let exponent ←
    match rest with
    | [] => some 0
    | c :: rest => if c = 'e' || c = 'E' then readExponent? rest else none
  return doubleOfDecimal negative (Text.digitsValue (whole ++ fraction))
    (exponent - (fraction.length : Int))

/-- Reads a double: a decimal number, or a name of infinity or of what is no number in any case,
with an optional sign. -/
def readDouble? (cs : List Char) : Option Double :=
  let (negative, rest) :=
    match cs with
    | '-' :: rest => (true, rest)
    | '+' :: rest => (false, rest)
    | _ => (false, cs)
  let name := String.ofList (Text.lower rest)
  if name = "inf" ∨ name = "infinity" then some (.infinity negative)
  else if name = "nan" then some .nan
  else readUnsigned? negative rest

end OData.Number
