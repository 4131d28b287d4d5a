import OData.Number.Floating
import OData.Text.Digits
import OData.Text.Search

/-!
Decimal numbers of 96 bits: a sign, a significand and a count of decimal places, which is kept, so
that `18.00` and `18` are different texts of one number. A number that an exponent rounds away to
zero keeps its sign.
-/

namespace OData.Number

/-- The number `significand / 10 ^ scale` with a sign, which zero has too. -/
structure Decimal where
  negative : Bool
  significand : Nat
  scale : Nat
  significand_lt : significand < Nat.pow 2 96
  scale_le : scale ≤ 28
  deriving DecidableEq, Repr

namespace Decimal

def mk? (negative : Bool) (significand scale : Nat) : Option Decimal :=
  if h : significand < Nat.pow 2 96 ∧ scale ≤ 28 then
    some ⟨negative, significand, scale, h.1, h.2⟩
  else none

/-- The number without its point. -/
def unscaled (d : Decimal) : Int :=
  if d.negative then -(d.significand : Int) else d.significand

def toRat (d : Decimal) : Rat :=
  (d.unscaled : Rat) / (Nat.pow 10 d.scale : Rat)

/-- The digits with exactly `scale` of them behind the point. -/
def chars (d : Decimal) : List Char :=
  let digits := Text.paddedDecimal (d.scale + 1) d.significand
  let whole := digits.take (digits.length - d.scale)
  let fraction := digits.drop (digits.length - d.scale)
  (if d.negative then ['-'] else []) ++ whole ++
    (if d.scale = 0 then [] else '.' :: fraction)

def text (d : Decimal) : String :=
  String.ofList d.chars

/-- The integer that a decimal without fraction is, if it fits 64 bits. -/
def toInt64? (d : Decimal) : Option Int :=
  let unit : Int := Nat.pow 10 d.scale
  let whole := d.unscaled.tdiv unit
  if d.unscaled.tmod unit = 0 ∧ Int64.minValue.toInt ≤ whole ∧ whole ≤ Int64.maxValue.toInt then
    some whole
  else none

/-- A double near a decimal. Without places it is the nearest one. With places the whole part and
the fraction are rounded apart and added; the sum is then cut to the decimal's own places, each step
rounded once more. A zero keeps its sign only with places. -/
def toDouble (d : Decimal) : Double :=
  let round (x : Rat) : Rat := (binary64.nearest? x).getD 0
  if d.scale = 0 then .ofInt d.unscaled
  else
    let unit := Nat.pow 10 d.scale
    let unitDouble := round ((unit : Nat) : Rat)
    let whole := round ((d.significand / unit : Nat) : Rat)
    let fraction := round (round ((d.significand % unit : Nat) : Rat) / unitDouble)
    if fraction = 0 then .ofRat d.negative whole
    else
      let scaled := round (round (whole + fraction) * unitDouble)
      .ofRat d.negative (round ((nearestNat .up scaled : Nat) : Rat) / unitDouble)

/-- What has been read of a decimal: the digits without the point, the number of them behind the
point, whether the point was seen, and whether any digit was. -/
structure Reading where
  digits : Nat
  places : Nat
  point : Bool
  started : Bool

/-- A number below this bound has room for another digit within 64 bits. -/
def wordBound : Nat := (UInt64.size - 1) / 10 - 255

namespace Reading

/-- Whether all digits but the last were read within 64 bits. -/
def IsShort (r : Reading) : Prop :=
  r.digits / 10 < wordBound

instance (r : Reading) : Decidable r.IsShort := by
  unfold IsShort
  infer_instance

/-- A first digit that is not kept rounds what was read, up from five on. When that carries beyond
96 bits one place is given up. -/
def roundedBy (r : Reading) (digit : Nat) : Option (Nat × Nat) :=
  if digit < 5 then some (r.digits, r.places)
  else if r.digits + 1 < Nat.pow 2 96 then some (r.digits + 1, r.places)
  else if 0 < r.places then some ((r.digits + 5) / 10, r.places - 1)
  else none

/-- Rounds by what is left of the text, which has digits and underscores only. An underscore in
front counts as a zero behind a short number, and is passed over behind a longer one. -/
def rounded (r : Reading) (cs : List Char) : Option (Nat × Nat) :=
  if cs.all fun c ↦ c.isDigit || c = '_' then
    match if r.IsShort then cs else cs.dropWhile (· = '_') with
    | [] => some (r.digits, r.places)
    | c :: _ => r.roundedBy (if c = '_' then 0 else c.toNat - 48)
  else none

end Reading

/-- Reads digits with at most one point among them; an underscore may follow a digit. Digits behind
the point that no longer fit are rounded away. -/
def readDigits (r : Reading) : List Char → Option (Nat × Nat)
  | [] => if r.started then some (r.digits, r.places) else none
  | c :: cs =>
    if r.point && 28 ≤ r.places then r.rounded (c :: cs)
    else if c.isDigit then
      let digits := r.digits * 10 + (c.toNat - 48)
      if digits < Nat.pow 2 96 then
        readDigits ⟨digits, if r.point then r.places + 1 else r.places, r.point, true⟩ cs
      else if r.point then r.rounded (c :: cs)
      else none
    else if c = '.' && !r.point then readDigits { r with point := true } cs
    else if c = '_' && r.started then readDigits r cs
    else none

/-- Reads a number without exponent. A zero is positive, whatever sign is written. -/
def ofPlain? (cs : List Char) : Option Decimal := do
  let (negative, digits) :=
    match cs with
    | '-' :: rest => (true, rest)
    | '+' :: rest => (false, rest)
    | _ => (false, cs)
  let (digits, places) ← readDigits ⟨0, 0, false, false⟩ digits
  mk? (negative && digits ≠ 0) digits places

/-- Reads an exponent of at most 28, with at most one plus before it. -/
def readExponent? (cs : List Char) : Option Nat :=
  let digits :=
    match cs with
    | '+' :: rest => rest
    | _ => cs
  if digits ≠ [] ∧ digits.all Char.isDigit ∧ Text.digitsValue digits ≤ 28 then
    some (Text.digitsValue digits)
  else none

/-- Moves the point to the right; zeros are filled in once the places are used up. -/
def shiftRight? (d : Decimal) (n : Nat) : Option Decimal :=
  if n ≤ d.scale then mk? d.negative d.significand (d.scale - n)
  else mk? d.negative (d.significand * Nat.pow 10 (n - d.scale)) 0

/-- Moves the point to the left; places beyond the 28th are rounded away, a half up, and the sign
stays even if nothing else does. -/
def shiftLeft? (d : Decimal) (n : Nat) : Option Decimal :=
  if d.scale + n ≤ 28 then mk? d.negative d.significand (d.scale + n)
  else
    let unit := Nat.pow 10 (d.scale + n - 28)
    mk? d.negative ((d.significand + unit / 2) / unit) 28

def ofChars? (cs : List Char) : Option Decimal :=
  match Text.cutWhere? (fun c ↦ c = 'e' || c = 'E') cs with
  | none => ofPlain? cs
  | some (plain, exponent) => do
    let d ← ofPlain? plain
    match exponent with
    | '-' :: digits => d.shiftLeft? (← readExponent? digits)
    | digits => d.shiftRight? (← readExponent? digits)

end Decimal
end OData.Number
