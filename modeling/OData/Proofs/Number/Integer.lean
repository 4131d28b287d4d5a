import OData.Number.Reading
import OData.Proofs.Text.Digits

/-!
Integers as they may be written: digits with an optional sign in front. Reading an integer accepts just the
texts of that form whose number is in range, and gives that number.
-/

namespace OData.Number

/-- Digits behind an optional sign, and the number that they denote. -/
inductive IsInteger : List Char → Int → Prop
  | unsigned {digits : List Char} (h : ∀ c ∈ digits, c.isDigit) (hne : digits ≠ []) :
    IsInteger digits (Text.digitsValue digits)
  | plus {digits : List Char} (h : ∀ c ∈ digits, c.isDigit) (hne : digits ≠ []) :
    IsInteger ('+' :: digits) (Text.digitsValue digits)
  | minus {digits : List Char} (h : ∀ c ∈ digits, c.isDigit) (hne : digits ≠ []) :
    IsInteger ('-' :: digits) (-(Text.digitsValue digits : Int))

/-- A number by its sign and its size. -/
def signed (negative : Bool) (size : Nat) : Int :=
  if negative then -(size : Int) else size

@[simp] theorem signed_false (size : Nat) : signed false size = size := rfl

@[simp] theorem signed_true (size : Nat) : signed true size = -(size : Int) := rfl

variable {low high n : Int} {negative : Bool} {cs digits : List Char}

theorem readSigned_cons {c : Char} (hc : c.isDigit) (size : Nat) (cs : List Char) :
    readSigned low high negative (signed negative size) (c :: cs) =
      if high < signed negative (10 * size + (c.toNat - '0'.toNat)) then .error .tooLarge
      else if signed negative (10 * size + (c.toNat - '0'.toNat)) < low then .error .tooSmall
      else readSigned low high negative (signed negative (10 * size + (c.toNat - '0'.toNat))) cs := by
  have hnext : (if negative then signed negative size * 10 - ((c.toNat - 48 : Nat) : Int)
      else signed negative size * 10 + ((c.toNat - 48 : Nat) : Int)) =
        signed negative (10 * size + (c.toNat - '0'.toNat)) := by
    have h48 : '0'.toNat = 48 := rfl
    rw [h48]
    cases negative with
    | false =>
      rw [if_neg Bool.false_ne_true, signed_false, signed_false]
      omega
    | true =>
      rw [if_pos rfl, signed_true, signed_true]
      omega
  rw [readSigned, if_pos hc]
  dsimp only
  rw [hnext]

/-- More digits only take a number further away from zero. -/
theorem signed_of_le {a b : Nat} (hlow : low ≤ 0) (hhigh : 0 ≤ high) (h : a ≤ b)
    (hb : low ≤ signed negative b ∧ signed negative b ≤ high) :
    low ≤ signed negative a ∧ signed negative a ≤ high := by
  cases negative <;> simp only [signed_false, signed_true] at hb ⊢ <;> omega

theorem readSigned_eq_ok_iff (hlow : low ≤ 0) (hhigh : 0 ≤ high) {size : Nat}
    (hsize : low ≤ signed negative size ∧ signed negative size ≤ high) :
    readSigned low high negative (signed negative size) cs = .ok n ↔
      (∀ c ∈ cs, c.isDigit) ∧ signed negative (Nat.ofDigitChars 10 cs size) = n ∧
        low ≤ n ∧ n ≤ high := by
  induction cs generalizing size with
  | nil =>
    rw [readSigned, Except.ok.injEq, Nat.ofDigitChars_nil]
    constructor
    · rintro rfl
      exact ⟨List.forall_mem_nil _, rfl, hsize⟩
    · exact fun h ↦ h.2.1
  | cons c cs ih =>
    by_cases hc : c.isDigit
    · rw [readSigned_cons hc, Nat.ofDigitChars_cons, List.forall_mem_cons]
      by_cases hnext : low ≤ signed negative (10 * size + (c.toNat - '0'.toNat)) ∧
          signed negative (10 * size + (c.toNat - '0'.toNat)) ≤ high
      · rw [if_neg (by omega), if_neg (by omega), ih hnext]
        simp only [hc, true_and]
      · have hle := Text.le_ofDigitChars cs (10 * size + (c.toNat - '0'.toNat))
        refine iff_of_false ?_ ?_
        · intro hread
          split at hread
          · contradiction
          · rw [if_pos (by omega)] at hread
            contradiction
        · rintro ⟨-, rfl, hrange⟩
          exact hnext (signed_of_le hlow hhigh hle hrange)
    · rw [readSigned, if_neg hc]
      refine iff_of_false ?_ fun h ↦ hc (h.1 c List.mem_cons_self)
      intro hread
      contradiction

theorem readSigned_zero_eq_ok_iff (hlow : low ≤ 0) (hhigh : 0 ≤ high) :
    readSigned low high negative 0 cs = .ok n ↔
      (∀ c ∈ cs, c.isDigit) ∧ signed negative (Text.digitsValue cs) = n ∧ low ≤ n ∧ n ≤ high := by
  have hzero : signed negative 0 = 0 := by cases negative <;> rfl
  have hrange : low ≤ signed negative 0 ∧ signed negative 0 ≤ high := by
    rw [hzero]
    exact ⟨hlow, hhigh⟩
  rw [← hzero]
  exact readSigned_eq_ok_iff hlow hhigh hrange

/-- Digits are no sign. -/
theorem ne_signs_of_isDigit {c : Char} (h : c.isDigit) : c ≠ '+' ∧ c ≠ '-' := by
  constructor <;> rintro rfl <;> exact absurd h (by decide)

theorem readInteger_digits (hd : ∀ c ∈ digits, c.isDigit) (hne : digits ≠ []) :
    readInteger low high digits = readSigned low high false 0 digits := by
  cases digits with
  | nil => exact absurd rfl hne
  | cons c rest =>
    obtain ⟨hplus, hminus⟩ := ne_signs_of_isDigit (hd c (List.mem_cons_self ..))
    rw [readInteger]
    all_goals simp_all

theorem readNatural_digits {most : Nat} (hd : ∀ c ∈ digits, c.isDigit) (hne : digits ≠ []) :
    readNatural most digits = (readSigned 0 most false 0 digits).map Int.toNat := by
  cases digits with
  | nil => exact absurd rfl hne
  | cons c rest =>
    obtain ⟨hplus, -⟩ := ne_signs_of_isDigit (hd c (List.mem_cons_self ..))
    rw [readNatural]
    all_goals simp_all

/-- Reading an integer accepts just those that are written and in range. -/
theorem readInteger_eq_ok_iff (hlow : low ≤ 0) (hhigh : 0 ≤ high) :
    readInteger low high cs = .ok n ↔ IsInteger cs n ∧ low ≤ n ∧ n ≤ high := by
  constructor
  · intro h
    unfold readInteger at h
    split at h
    · contradiction
    · contradiction
    · contradiction
    · rename_i digits hne
      obtain ⟨hdigits, rfl, hrange⟩ := (readSigned_zero_eq_ok_iff hlow hhigh).1 h
      exact ⟨.plus hdigits hne, hrange⟩
    · rename_i digits hne
      obtain ⟨hdigits, rfl, hrange⟩ := (readSigned_zero_eq_ok_iff hlow hhigh).1 h
      exact ⟨.minus hdigits hne, hrange⟩
    · rename_i hne _ _ _ _
      obtain ⟨hdigits, rfl, hrange⟩ := (readSigned_zero_eq_ok_iff hlow hhigh).1 h
      exact ⟨.unsigned hdigits hne, hrange⟩
  · rintro ⟨hcs, hrange⟩
    cases hcs with
    | unsigned hdigits hne =>
      rw [readInteger_digits hdigits hne, readSigned_zero_eq_ok_iff hlow hhigh]
      exact ⟨hdigits, rfl, hrange⟩
    | @plus digits hdigits hne =>
      rw [readInteger.eq_4 _ _ _ hne, readSigned_zero_eq_ok_iff hlow hhigh]
      exact ⟨hdigits, rfl, hrange⟩
    | @minus digits hdigits hne =>
      rw [readInteger.eq_5 _ _ _ hne, readSigned_zero_eq_ok_iff hlow hhigh]
      exact ⟨hdigits, rfl, hrange⟩

theorem isInteger_signedDecimal (n : Int) : IsInteger (Text.signedDecimal n) n := by
  have hd : ∀ c ∈ Text.decimal n.natAbs, c.isDigit := fun _ ↦ Text.isDigit_of_mem_decimal
  have hne := Text.decimal_ne_nil n.natAbs
  rw [Text.signedDecimal]
  split
  · have hminus := IsInteger.minus hd hne
    have hvalue : -(n.natAbs : Int) = n := by omega
    rwa [Text.digitsValue_decimal, hvalue] at hminus
  · have hunsigned := IsInteger.unsigned hd hne
    have hvalue : (n.natAbs : Int) = n := by omega
    rwa [Text.digitsValue_decimal, hvalue] at hunsigned

theorem readInteger_signedDecimal (hlow : low ≤ n) (hhigh : n ≤ high) (hzero : low ≤ 0)
    (hzero' : 0 ≤ high) : readInteger low high (Text.signedDecimal n) = .ok n :=
  (readInteger_eq_ok_iff hzero hzero').2 ⟨isInteger_signedDecimal n, hlow, hhigh⟩

theorem readNatural_decimal {most n : Nat} (h : n ≤ most) :
    readNatural most (Text.decimal n) = .ok n := by
  have hd : ∀ c ∈ Text.decimal n, c.isDigit := fun _ ↦ Text.isDigit_of_mem_decimal
  have hread : readSigned 0 most false 0 (Text.decimal n) = .ok (n : Int) := by
    rw [readSigned_zero_eq_ok_iff (Int.le_refl 0) (Int.natCast_nonneg most), Text.digitsValue_decimal]
    exact ⟨hd, rfl, Int.natCast_nonneg n, Int.ofNat_le.2 h⟩
  rw [readNatural_digits hd (Text.decimal_ne_nil n), hread, Except.map, Int.toNat_natCast]

end OData.Number
