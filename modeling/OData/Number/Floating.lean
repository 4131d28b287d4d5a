/-!
Binary floating point. A datum is its bits; what the bits denote is a sign with a significand times
a power of two, and rounding takes a rational to the nearest datum, a tie to the even one.
-/

namespace OData.Number

def powTwo (e : Int) : Rat :=
  if 0 ≤ e then (Nat.pow 2 e.toNat : Rat) else 1 / (Nat.pow 2 (-e).toNat : Rat)

def powTen (e : Int) : Rat :=
  if 0 ≤ e then (Nat.pow 10 e.toNat : Rat) else 1 / (Nat.pow 10 (-e).toNat : Rat)

/-- Where a number halfway between two neighbours goes. -/
inductive Tie
  | toEven
  | up
  deriving DecidableEq, Repr

/-- The natural number nearest to a nonnegative rational. -/
def nearestNat (tie : Tie) (x : Rat) : Nat :=
  let below := x.floor.toNat
  let rest := x - (below : Rat)
  if rest < 1 / 2 then below
  else if 1 / 2 < rest then below + 1
  else
    match tie with
    | .up => below + 1
    | .toEven => if below % 2 = 0 then below else below + 1

/-- A binary interchange format: the digits of a normal significand, the exponent of the smallest
step, and the biased exponent kept for infinities and for what is no number. -/
structure FloatShape where
  precision : Nat
  minExponent : Int
  specialExponent : Nat
  deriving DecidableEq, Repr

def binary32 : FloatShape := ⟨24, -149, 255⟩

def binary64 : FloatShape := ⟨53, -1074, 2047⟩

/-- What a datum denotes; a finite one is its significand times two to the exponent. -/
inductive Datum
  | nan
  | infinite (negative : Bool)
  | finite (negative : Bool) (significand : Nat) (exponent : Int)
  deriving DecidableEq, Repr

namespace FloatShape

variable (f : FloatShape)

def leastNormal : Nat :=
  Nat.pow 2 (f.precision - 1)

def infinityBits : Nat :=
  f.specialExponent * f.leastNormal

def signWeight : Nat :=
  (f.specialExponent + 1) * f.leastNormal

def datum (bits : Nat) : Datum :=
  let negative := decide (f.signWeight ≤ bits)
  let magnitude := bits % f.signWeight
  let biased := magnitude / f.leastNormal
  let fraction := magnitude % f.leastNormal
  if biased = f.specialExponent then
    if fraction = 0 then .infinite negative else .nan
  else if biased = 0 then
    .finite negative fraction f.minExponent
  else
    .finite negative (f.leastNormal + fraction) (f.minExponent + ((biased - 1 : Nat) : Int))

/-- The greatest power of two that is at most `x`, for a positive `x`. -/
def binade (x : Rat) : Int :=
  let e := (x.num.natAbs.log2 : Int) - (x.den.log2 : Int)
  if x < powTwo e then e - 1 else e

/-- The bits without sign of the datum nearest to a nonnegative rational. -/
def nearestBits (x : Rat) : Nat :=
  if x = 0 then 0
  else
    let step := max (binade x - ((f.precision - 1 : Nat) : Int)) f.minExponent
    let significand := nearestNat .toEven (x / powTwo step)
    min f.infinityBits ((step - f.minExponent).toNat * f.leastNormal + significand)

/-- The value nearest to a nonnegative rational, unless it is infinite. -/
def nearest? (x : Rat) : Option Rat :=
  match f.datum (f.nearestBits x) with
  | .finite _ significand exponent => some (significand * powTwo exponent)
  | _ => none

/-- The bits of the datum nearest to `x`, which is at least zero, with a sign. -/
def signedBits (negative : Bool) (x : Rat) : Nat :=
  f.nearestBits x + if negative then f.signWeight else 0

end FloatShape

/-- A number of the format with 64 bits. -/
structure Double where
  bits : UInt64
  deriving DecidableEq, Repr

/-- A number of the format with 32 bits. -/
structure Single where
  bits : UInt32
  deriving DecidableEq, Repr

namespace Double

def datum (x : Double) : Datum :=
  binary64.datum x.bits.toNat

def nan : Double := ⟨0x7FF8000000000000⟩

def infinity (negative : Bool) : Double :=
  ⟨if negative then 0xFFF0000000000000 else 0x7FF0000000000000⟩

/-- The double nearest to a nonnegative rational, with a sign. -/
def ofRat (negative : Bool) (x : Rat) : Double :=
  ⟨UInt64.ofNat (binary64.signedBits negative x)⟩

/-- The double nearest to an integer. -/
def ofInt (n : Int) : Double :=
  ofRat (decide (n < 0)) (n.natAbs : Rat)

def isFinite (x : Double) : Bool :=
  match x.datum with
  | .finite .. => true
  | _ => false

end Double

namespace Single

def datum (x : Single) : Datum :=
  binary32.datum x.bits.toNat

/-- Every number of the narrow format is one of the wide format. -/
def toDouble (x : Single) : Double :=
  match x.datum with
  | .nan => .nan
  | .infinite negative => .infinity negative
  | .finite negative significand exponent => .ofRat negative (significand * powTwo exponent)

/-- The single nearest to a double. -/
def ofDouble (x : Double) : Single :=
  match x.datum with
  | .nan => ⟨0x7FC00000⟩
  | .infinite negative => ⟨if negative then 0xFF800000 else 0x7F800000⟩
  | .finite negative significand exponent =>
    ⟨UInt32.ofNat (binary32.signedBits negative (significand * powTwo exponent))⟩

end Single
end OData.Number
