/-!
Base 64: three octets as four characters of an alphabet of sixty-four. The standard alphabet is
padded with `=` to whole groups, the one for addresses is not padded.
-/

namespace OData.Text.Base64

/-- The two characters that alphabets disagree on, and whether short groups are filled up. -/
structure Alphabet where
  char62 : Char
  char63 : Char
  padded : Bool

def Alphabet.standard : Alphabet := ⟨'+', '/', true⟩

/-- The alphabet whose characters may stand in an address. -/
def Alphabet.forAddresses : Alphabet := ⟨'-', '_', false⟩

variable (a : Alphabet)

def digit (n : Nat) : Char :=
  if n < 26 then Char.ofNat (65 + n)
  else if n < 52 then Char.ofNat (71 + n)
  else if n < 62 then Char.ofNat (n - 4)
  else if n = 62 then a.char62
  else a.char63

def value? (c : Char) : Option Nat :=
  let n := c.toNat
  if 65 ≤ n && n ≤ 90 then some (n - 65)
  else if 97 ≤ n && n ≤ 122 then some (n - 71)
  else if 48 ≤ n && n ≤ 57 then some (n + 4)
  else if c = a.char62 then some 62
  else if c = a.char63 then some 63
  else none

def fill (n : Nat) : List Char :=
  if a.padded then List.replicate n '=' else []

def encode : List UInt8 → List Char
  | [] => []
  | [x] =>
    let n := x.toNat
    digit a (n / 4) :: digit a (n % 4 * 16) :: fill a 2
  | [x, y] =>
    let n := x.toNat * 256 + y.toNat
    digit a (n / 1024) :: digit a (n / 16 % 64) :: digit a (n % 16 * 4) :: fill a 1
  | x :: y :: z :: rest =>
    let n := (x.toNat * 256 + y.toNat) * 256 + z.toNat
    digit a (n / 262144) :: digit a (n / 4096 % 64) :: digit a (n / 64 % 64) :: digit a (n % 64) ::
      encode rest

/-- Reads padded text: whole groups only, padding at the end of the last group only, and no bits
left over in it. -/
def decode? : List Char → Option (List UInt8)
  | [] => some []
  | [p, q, '=', '='] => do
    let p ← value? a p
    let q ← value? a q
    guard (q % 16 = 0)
    return [UInt8.ofNat (p * 4 + q / 16)]
  | [p, q, r, '='] => do
    let p ← value? a p
    let q ← value? a q
    let r ← value? a r
    guard (r % 4 = 0)
    let n := (p * 64 + q) * 16 + r / 4
    return [UInt8.ofNat (n / 256), UInt8.ofNat n]
  | p :: q :: r :: s :: rest => do
    let p ← value? a p
    let q ← value? a q
    let r ← value? a r
    let s ← value? a s
    let n := ((p * 64 + q) * 64 + r) * 64 + s
    let bytes ← decode? rest
    return UInt8.ofNat (n / 65536) :: UInt8.ofNat (n / 256) :: UInt8.ofNat n :: bytes
  | _ => none

end OData.Text.Base64
