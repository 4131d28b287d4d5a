import OData.Text.Base64

/-!
Base 64 without padding, read back. How many characters the last group has tells how many octets it
stands for.
-/

namespace OData.Text.Base64

/-- Reads text without padding. -/
def unpadded? (a : Alphabet) : List Char → Option (List UInt8)
  | [] => some []
  | [_] => none
  | [p, q] => do
    let p ← value? a p
    let q ← value? a q
    return [UInt8.ofNat (p * 4 + q / 16)]
  | [p, q, r] => do
    let p ← value? a p
    let q ← value? a q
    let r ← value? a r
    let n := (p * 64 + q) * 16 + r / 4
    return [UInt8.ofNat (n / 256), UInt8.ofNat n]
  | p :: q :: r :: s :: rest => do
    let p ← value? a p
    let q ← value? a q
    let r ← value? a r
    let s ← value? a s
    let n := ((p * 64 + q) * 64 + r) * 64 + s
    let octets ← unpadded? a rest
    return UInt8.ofNat (n / 65536) :: UInt8.ofNat (n / 256) :: UInt8.ofNat n :: octets

theorem value?_digit {n : Nat} (h : n < 64) :
    value? .forAddresses (digit .forAddresses n) = some n := by
  have hdigit : ∀ m : Fin 64, value? .forAddresses (digit .forAddresses m) = some m.val := by decide
  exact hdigit ⟨n, h⟩

theorem unpadded?_encode (octets : List UInt8) :
    unpadded? .forAddresses (encode .forAddresses octets) = some octets := by
  have hfill (n : Nat) : fill .forAddresses n = [] := rfl
  fun_induction encode .forAddresses octets with
  | case1 => rfl
  | case2 x n =>
    have hx : n < 256 := x.toNat_lt
    rw [hfill, unpadded?, value?_digit (by omega), value?_digit (by omega)]
    have hn : UInt8.ofNat (n / 4 * 4 + n % 4 * 16 / 16) = x :=
      (UInt8.ofNat_eq_iff_mod_eq_toNat ..).2 (by omega)
    exact congrArg (fun x ↦ some [x]) hn
  | case3 x y n =>
    have hx := x.toNat_lt
    have hy := y.toNat_lt
    rw [hfill, unpadded?, value?_digit (by omega), value?_digit (by omega), value?_digit (by omega)]
    have hn : (n / 1024 * 64 + n / 16 % 64) * 16 + n % 16 * 4 / 4 = n := by omega
    have hfirst : UInt8.ofNat (n / 256) = x := (UInt8.ofNat_eq_iff_mod_eq_toNat ..).2 (by omega)
    have hsecond : UInt8.ofNat n = y := (UInt8.ofNat_eq_iff_mod_eq_toNat ..).2 (by omega)
    simp only [Option.bind_eq_bind, Option.bind_some, hn, hfirst, hsecond]
    rfl
  | case4 x y z rest n ih =>
    have hx := x.toNat_lt
    have hy := y.toNat_lt
    have hz := z.toNat_lt
    rw [unpadded?, value?_digit (by omega), value?_digit (by omega), value?_digit (by omega),
      value?_digit (by omega), ih]
    have hn : ((n / 262144 * 64 + n / 4096 % 64) * 64 + n / 64 % 64) * 64 + n % 64 = n := by omega
    have hfirst : UInt8.ofNat (n / 65536) = x := (UInt8.ofNat_eq_iff_mod_eq_toNat ..).2 (by omega)
    have hsecond : UInt8.ofNat (n / 256) = y := (UInt8.ofNat_eq_iff_mod_eq_toNat ..).2 (by omega)
    have hthird : UInt8.ofNat n = z := (UInt8.ofNat_eq_iff_mod_eq_toNat ..).2 (by omega)
    simp only [Option.bind_eq_bind, Option.bind_some, hn, hfirst, hsecond, hthird]
    rfl

end OData.Text.Base64
