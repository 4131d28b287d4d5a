import OData.Number.Floating
import OData.Text.Digits

/-!
The fewest decimal digits that read back as a given double, and the two ways to lay them out: with
the point in place, or as a mantissa with an exponent.
-/

namespace OData.Number

/-- A nonnegative decimal number, `digits` times ten to `exponent`. -/
structure DecimalDigits where
  digits : Nat
  exponent : Int
  deriving DecidableEq, Repr

/-- The least power of ten that exceeds `x`, for a positive `x`. -/
def decade (x : Rat) : Int :=
  let whole := x.floor.toNat
  if whole ≠ 0 then (Text.decimal whole).length
  else
    let inverse := x⁻¹.ceil.toNat
    if inverse ≤ 1 then 1 else 1 - ((Text.decimal (inverse - 1)).length : Int)

/-- The numbers that round to a finite datum, as an interval. -/
structure RoundingInterval where
  low : Rat
  high : Rat
  closed : Bool

def RoundingInterval.contains (i : RoundingInterval) (x : Rat) : Bool :=
  if i.closed then i.low ≤ x && x ≤ i.high else i.low < x && x < i.high

/-- Below a power of two the next datum is only half as far away. -/
def FloatShape.roundingInterval (f : FloatShape) (significand : Nat) (exponent : Int) :
    RoundingInterval :=
  let value := (significand : Rat) * powTwo exponent
  let down := if significand = f.leastNormal && f.minExponent < exponent then 2 else 1
  ⟨value - powTwo (exponent - down), value + powTwo (exponent - 1), significand % 2 = 0⟩

/-- Tries the grids of `tried + 1`, `tried + 2`, … digits, `left` of them, for a neighbour of
`value` that lies in the interval; of two such neighbours the nearer one is taken. -/
def searchGrid (tie : Tie) (value : Rat) (interval : RoundingInterval) (top : Int) (tried : Nat) :
    (left : Nat) → DecimalDigits
  | 0 => ⟨nearestNat tie (value / powTen (top - tried)), top - tried⟩
  | left + 1 =>
    let exponent := top - (tried + 1 : Nat)
    let scaled := value / powTen exponent
    let below := scaled.floor.toNat
    let holds (n : Nat) : Bool := interval.contains ((n : Rat) * powTen exponent)
    match holds below, holds (below + 1) with
    | true, true => ⟨nearestNat tie scaled, exponent⟩
    | true, false => ⟨below, exponent⟩
    | false, true => ⟨below + 1, exponent⟩
    | false, false => searchGrid tie value interval top (tried + 1) left

/-- The fewest digits that round to a positive finite double, and of those the nearest. A neighbour
on the grid of one digit may be ten, which is the digit one a place further up. -/
def shortest (tie : Tie) (significand : Nat) (exponent : Int) : DecimalDigits :=
  let value := (significand : Rat) * powTwo exponent
  let interval := binary64.roundingInterval significand exponent
  let found := searchGrid tie value interval (decade value) 0 17
  if found.digits = 10 then ⟨1, found.exponent + 1⟩ else found

namespace DecimalDigits

/-- The power of ten just above the number. -/
def decade (d : DecimalDigits) : Int :=
  ((Text.decimal d.digits).length : Int) + d.exponent

/-- Digits with a point in place; a whole number has the fraction `.0`. -/
def positional (d : DecimalDigits) : List Char :=
  let digits := Text.decimal d.digits
  if 0 ≤ d.exponent then
    digits ++ List.replicate d.exponent.toNat '0' ++ ['.', '0']
  else
    let places := (-d.exponent).toNat
    if places < digits.length then
      digits.take (digits.length - places) ++ '.' :: digits.drop (digits.length - places)
    else
      '0' :: '.' :: List.replicate (places - digits.length) '0' ++ digits

/-- One digit, the others behind a point, and the exponent; `plus` marks an exponent above zero. -/
def scientific (plus : Bool) (d : DecimalDigits) : List Char :=
  let exponent := d.decade - 1
  let mantissa :=
    match Text.decimal d.digits with
    | first :: second :: rest => first :: '.' :: second :: rest
    | single => single
  mantissa ++ 'e' :: (if plus && 0 < exponent then ['+'] else []) ++ Text.signedDecimal exponent

end DecimalDigits
end OData.Number
