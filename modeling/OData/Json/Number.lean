import OData.Json.Basic

/-!
The number that a numeral of a JSON document stands for.

Up to 64 bits of leading digits count. A numeral without point and exponent that fits 64 bits is an
integer; any other is those digits scaled by powers of ten in floating point, each step rounded.
-/

namespace OData.Json

/-- A numeral: sign, digits before the point, digits after it, and the exponent. -/
structure Numeral where
  negative : Bool
  whole : List Char
  fraction : Option (List Char)
  exponent : Option Int
  deriving DecidableEq, Repr

/-- Leading digits that fit 64 bits, and how many digits did not. -/
def significantDigits (read : Nat) : List Char → Nat × Nat
  | [] => (read, 0)
  | c :: cs =>
    let n := read * 10 + (c.toNat - 48)
    if n < UInt64.size then significantDigits n cs else (read, (c :: cs).length)

/-- Scales a double by a power of ten of at most 308, one division at a time. Nothing is given for a
number that is too large. -/
def scaleReal? (x : Rat) (exponent : Int) : Option Rat :=
  let round := Number.binary64.nearest?
  if 0 ≤ exponent then
    if exponent ≤ 308 then do
      let power ← round (Number.powTen exponent)
      round (x * power)
    else if x = 0 then some 0
    else none
  else if x = 0 then some 0
  else if -308 ≤ exponent then do
    let power ← round (Number.powTen (-exponent))
    round (x / power)
  else do
    let power ← round (Number.powTen 308)
    let smaller ← round (x / power)
    scaleReal? smaller (exponent + 308)
termination_by (-exponent).toNat
decreasing_by omega

namespace Numeral

def real? (negative : Bool) (digits : Nat) (exponent : Int) : Option Json := do
  let rounded ← Number.binary64.nearest? (digits : Rat)
  let x ← scaleReal? rounded exponent
  return .real (.ofRat negative x)

/-- The number, unless it exceeds every double. -/
def toJson? (n : Numeral) : Option Json :=
  let (digits, dropped) := significantDigits 0 n.whole
  match n.fraction, n.exponent with
  | none, none =>
    if dropped ≠ 0 then real? n.negative digits dropped
    else if !n.negative then some (.integer digits)
    else if digits = 0 ∨ Nat.pow 2 63 < digits then real? true digits 0
    else some (.integer (-digits))
  | fraction, exponent =>
    let places := fraction.getD []
    let (digits, ignored) := significantDigits digits places
    let point : Int := dropped - (places.length - ignored : Nat)
    real? n.negative digits (point + exponent.getD 0)

end Numeral
end OData.Json
