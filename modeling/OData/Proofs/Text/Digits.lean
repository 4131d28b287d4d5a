import Mathlib.Algebra.Group.Nat.Defs
import OData.Text.Blank
import OData.Text.Digits

/-!
Numbers in decimal, as they are written and read back.
-/

namespace OData

namespace Text

theorem decimal_ne_nil (n : Nat) : decimal n ≠ [] :=
  Nat.toDigits_ne_nil

theorem isDigit_of_mem_decimal {n : Nat} {c : Char} (h : c ∈ decimal n) : c.isDigit :=
  Nat.isDigit_of_mem_toDigits (by decide) (by decide) h

theorem signedDecimal_eq (n : Int) :
    signedDecimal n = (if n < 0 then ['-'] else []) ++ decimal n.natAbs := by
  unfold signedDecimal
  split <;> rfl

theorem minus_or_isDigit_of_mem (n : Int) {c : Char} (h : c ∈ signedDecimal n) :
    c = '-' ∨ c.isDigit := by
  rw [signedDecimal_eq, List.mem_append] at h
  rcases h with h | h
  · left
    split at h <;> simp_all
  · exact .inr (isDigit_of_mem_decimal h)

theorem isMarkupBlank_of_isDigit {c : Char} (h : c.isDigit) : isMarkupBlank c = false := by
  simp only [isMarkupBlank, Bool.or_eq_false_iff, decide_eq_false_iff_not]
  refine ⟨⟨⟨?_, ?_⟩, ?_⟩, ?_⟩ <;> rintro rfl <;> exact absurd h (by decide)

theorem signedDecimal_ne_nil (n : Int) : signedDecimal n ≠ [] := by
  rw [signedDecimal_eq]
  exact fun h ↦ decimal_ne_nil _ (List.append_eq_nil_iff.1 h).2

/-- The first digit is a zero for zero only. -/
theorem exists_decimal_eq_cons {n : Nat} (h : 0 < n) : ∃ c cs, decimal n = c :: cs ∧ c ≠ '0' := by
  induction n using Nat.strongRecOn with
  | ind n ih =>
    by_cases hn : n < 10
    · refine ⟨n.digitChar, [], Nat.toDigits_of_lt_base hn, fun hzero ↦ ?_⟩
      rw [Nat.digitChar_eq_zero] at hzero
      omega
    · obtain ⟨c, cs, hcs, hc⟩ := ih (n / 10) (by omega) (by omega)
      refine ⟨c, cs ++ [(n % 10).digitChar], ?_, hc⟩
      rw [decimal, Nat.toDigits_of_base_le (by decide) (by omega), ← decimal, hcs, List.cons_append]

theorem spanDigits_append {digits rest : List Char} (hd : ∀ c ∈ digits, c.isDigit)
    (hr : ∀ c ∈ rest.head?, c.isDigit = false) : spanDigits (digits ++ rest) = (digits, rest) := by
  rw [spanDigits, List.takeWhile_append_of_pos hd, List.dropWhile_append_of_pos hd]
  cases rest with
  | nil => simp
  | cons c rest => simp [hr c rfl]

theorem le_ofDigitChars (digits : List Char) (read : Nat) :
    read ≤ Nat.ofDigitChars 10 digits read := by
  induction digits generalizing read with
  | nil => simp
  | cons c rest ih =>
    rw [Nat.ofDigitChars_cons]
    have hrest := ih (10 * read + (c.toNat - '0'.toNat))
    omega

theorem isDigit_of_mem_paddedDecimal {width n : Nat} {c : Char} (h : c ∈ paddedDecimal width n) :
    c.isDigit := by
  rcases List.mem_append.1 h with h | h
  · rw [List.eq_of_mem_replicate h]
    rfl
  · exact isDigit_of_mem_decimal h

theorem length_paddedDecimal {width n : Nat} (hw : 0 < width) (h : n < 10 ^ width) :
    (paddedDecimal width n).length = width := by
  have hle : (decimal n).length ≤ width := (Nat.length_toDigits_le_iff (by decide) hw).2 h
  rw [paddedDecimal, List.length_append, List.length_replicate]
  omega

theorem digitsValue_append_zeros (cs : List Char) (n : Nat) :
    digitsValue (cs ++ List.replicate n '0') = 10 ^ n * digitsValue cs := by
  rw [digitsValue, Nat.ofDigitChars_append, Nat.ofDigitChars_replicate_zero, digitsValue]

theorem digitsValue_zeros_append (n : Nat) (cs : List Char) :
    digitsValue (List.replicate n '0' ++ cs) = digitsValue cs := by
  rw [digitsValue, Nat.ofDigitChars_append, Nat.ofDigitChars_replicate_zero, Nat.mul_zero,
    digitsValue]

theorem digitsValue_paddedDecimal (width n : Nat) : digitsValue (paddedDecimal width n) = n :=
  (digitsValue_zeros_append _ _).trans (digitsValue_decimal n)

theorem digitsValue_cons (c : Char) (cs : List Char) :
    digitsValue (c :: cs) = 10 ^ cs.length * (c.toNat - '0'.toNat) + digitsValue cs := by
  rw [digitsValue, Nat.ofDigitChars_cons, Nat.ofDigitChars_eq_ofDigitChars_zero, Nat.mul_zero,
    Nat.zero_add, digitsValue]

theorem digitsValue_lt {cs : List Char} (h : ∀ c ∈ cs, c.isDigit) :
    digitsValue cs < 10 ^ cs.length := by
  induction cs with
  | nil => exact Nat.one_pos
  | cons c cs ih =>
    obtain ⟨hc, hcs⟩ := List.forall_mem_cons.1 h
    have hdigit : c.toNat - '0'.toNat ≤ 9 := Nat.sub_le_of_le_add (Char.isDigit_iff_toNat.1 hc).2
    have hmul := Nat.mul_le_mul_left (10 ^ cs.length) hdigit
    have hlt := ih hcs
    rw [digitsValue_cons, List.length_cons, Nat.pow_succ]
    omega

theorem eq_of_digit_eq {c d : Char} (hc : c.isDigit) (hd : d.isDigit)
    (h : c.toNat - '0'.toNat = d.toNat - '0'.toNat) : c = d := by
  have hbounds := Char.isDigit_iff_toNat.1 hc
  have hbounds' := Char.isDigit_iff_toNat.1 hd
  have hzero : '0'.toNat = 48 := rfl
  rw [hzero] at h
  exact Char.toNat_inj.1 (by omega)

/-- Digits of one length are told apart by the number that they denote. -/
theorem eq_of_digitsValue_eq {cs ds : List Char} (hc : ∀ c ∈ cs, c.isDigit) (hd : ∀ d ∈ ds, d.isDigit)
    (hlength : cs.length = ds.length) (h : digitsValue cs = digitsValue ds) : cs = ds := by
  induction cs generalizing ds with
  | nil => exact (List.length_eq_zero_iff.1 hlength.symm).symm
  | cons c cs ih =>
    obtain ⟨d, ds, rfl⟩ := List.exists_cons_of_length_eq_add_one hlength.symm
    obtain ⟨hc, hcs⟩ := List.forall_mem_cons.1 hc
    obtain ⟨hd, hds⟩ := List.forall_mem_cons.1 hd
    have hlength := Nat.succ.inj hlength
    have hlt := digitsValue_lt hcs
    have hlt' := digitsValue_lt hds
    rw [digitsValue_cons, digitsValue_cons, ← hlength] at h
    rw [← hlength] at hlt'
    have hfirst := congrArg (· / 10 ^ cs.length) h
    simp only [Nat.mul_add_div (Nat.lt_of_le_of_lt (Nat.zero_le _) hlt), Nat.div_eq_of_lt hlt,
      Nat.div_eq_of_lt hlt', Nat.add_zero] at hfirst
    have hrest : digitsValue cs = digitsValue ds := by
      rw [hfirst] at h
      exact Nat.add_left_cancel h
    rw [eq_of_digit_eq hc hd hfirst, ih hcs hds hlength hrest]

end Text

end OData
