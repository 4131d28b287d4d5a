/-!
Octets as text: hexadecimal pairs, base 64, and the percent encoding of their UTF-8 form.
-/

namespace OData.Text

/-- Digit `n` of sixteen, with letters in upper case. -/
def hexDigitUpper (n : Nat) : Char :=
  if n < 10 then Char.ofNat (48 + n) else Char.ofNat (55 + n)

/-- Digit `n` of sixteen, with letters in lower case. -/
def hexDigitLower (n : Nat) : Char :=
  if n < 10 then Char.ofNat (48 + n) else Char.ofNat (87 + n)

/-- The value of a hexadecimal digit of either case. -/
def hexValue? (c : Char) : Option Nat :=
  let n := c.toNat
  if 48 ≤ n && n ≤ 57 then some (n - 48)
  else if 65 ≤ n && n ≤ 70 then some (n - 55)
  else if 97 ≤ n && n ≤ 102 then some (n - 87)
  else none

def hexPairUpper (b : UInt8) : List Char :=
  [hexDigitUpper (b.toNat / 16), hexDigitUpper (b.toNat % 16)]

def hexPairLower (b : UInt8) : List Char :=
  [hexDigitLower (b.toNat / 16), hexDigitLower (b.toNat % 16)]

/-- Octets from pairs of hexadecimal digits of either case. -/
def octetsOfHex? : List Char → Option (List UInt8)
  | [] => some []
  | [_] => none
  | high :: low :: rest => do
    let h ← hexValue? high
    let l ← hexValue? low
    let bytes ← octetsOfHex? rest
    return UInt8.ofNat (16 * h + l) :: bytes

theorem hexValue?_hexDigitUpper {n : Nat} (h : n < 16) : hexValue? (hexDigitUpper n) = some n := by
  have : ∀ m : Fin 16, hexValue? (hexDigitUpper m) = some m.val := by decide
  exact this ⟨n, h⟩

theorem hexValue?_hexDigitLower {n : Nat} (h : n < 16) : hexValue? (hexDigitLower n) = some n := by
  have : ∀ m : Fin 16, hexValue? (hexDigitLower m) = some m.val := by decide
  exact this ⟨n, h⟩

end OData.Text
