import OData.Proofs.Number.Decimal
import OData.Value.Literal

/-!
Decimals on the wire. Literals, and the bodies of the older dialect, have the decimal itself. The
bodies of the newer dialect have a double of at most 17 digits in its place, which is the same number
if the decimal has few enough digits and places, and need not be otherwise.
-/

namespace OData

namespace Json

/-- The number in a body that is a numeral, alone or within a string. -/
def number? (cs : List Char) : Option Rat :=
  (Number.denoted? cs).or ((Text.afterPrefix? ['"'] cs).bind fun rest ↦
    (readString? rest.length rest).bind fun read ↦
      if read.2.isEmpty then Number.denoted? read.1 else none)

theorem denoted?_quote (cs : List Char) : Number.denoted? ('"' :: cs) = none := by
  have hwhole : readWhole? ('"' :: cs) = none := by
    simp [readWhole?, Text.spanDigits]
  have hsign : ∀ rest, '"' :: cs ≠ '-' :: rest := by simp
  rw [Number.denoted?, readNumeral?]
  · simp [hwhole]
  · exact hsign

theorem number?_string (s : String) :
    number? (string s).chars = Number.denoted? s.toList := by
  obtain ⟨rest, hquote, hread⟩ := readString?_quoteChars s []
  rw [List.append_nil] at hquote
  rw [chars, hquote, number?, denoted?_quote, Option.none_or, Text.afterPrefix?, if_pos rfl,
    Text.afterPrefix?, Option.bind_some, hread]
  rfl

section Real

open Number

variable {x : Double} {negative : Bool} {n : Nat} {e : Int}

theorem denoted?_realChars_zero (h : x.datum = .finite negative 0 e) :
    denoted? (realChars x) = some 0 := by
  have hchars : realChars x = Numeral.chars ⟨negative, ['0'], some ['0'], none⟩ := by
    rw [realChars, h]
    cases negative <;> rfl
  have hmagnitude : Numeral.magnitude ⟨negative, ['0'], some ['0'], none⟩ = 0 := zero_mul _
  have hwell := Numeral.WellFormed.of_some isWhole_zero (List.cons_ne_nil '0' []) isDigit_of_mem_zero
    negative none
  rw [denoted?_of_eq_chars hwell hchars hmagnitude, neg_zero, ite_self]

theorem denoted?_realChars (h : x.datum = .finite negative n e) (hnormal : Normal n e) :
    denoted? (realChars x) =
      some (if negative then -(shortest .toEven n e).toRat else (shortest .toEven n e).toRat) := by
  have hpos := (hnormal.digits_shortest .toEven).1
  have hzero : n ≠ 0 := by
    have hlow := hnormal.low
    omega
  have hchars : realChars x = (if negative then ['-'] else []) ++
      if -4 ≤ (shortest .toEven n e).decade ∧ (shortest .toEven n e).decade ≤ 16 then
        (shortest .toEven n e).positional
      else (shortest .toEven n e).scientific true := by
    rw [realChars, h]
    simp only [if_neg hzero]
    cases negative <;> rfl
  rw [hchars]
  by_cases hlayout : -4 ≤ (shortest .toEven n e).decade ∧ (shortest .toEven n e).decade ≤ 16
  · rw [if_pos hlayout]
    exact DecimalDigits.denoted?_positional negative hpos
  · rw [if_neg hlayout]
    exact DecimalDigits.denoted?_scientific negative hpos

theorem number?_realJson (h : x.datum = .finite negative n e) {y : Rat}
    (hy : denoted? (realChars x) = some y) : number? (Value.realJson x).chars = some y := by
  have hfinite : x.isFinite = true := by
    rw [Double.isFinite, h]
  rw [Value.realJson, if_pos hfinite, chars, number?, hy, Option.some_or]

/-- What is written of a double has 17 digits at most, and is the number that was rounded to it if that
has no more than 15. -/
theorem exists_number?_ofRat (negative : Bool) {x : Rat} (h : Moderate 1022 x) :
    ∃ written : DecimalDigits, written.digits ≤ 10 ^ 17 ∧
      number? (Value.realJson (.ofRat negative x)).chars =
        some (if negative then -written.toRat else written.toRat) ∧
      ∀ (point : Nat) (place : Int), point < 10 ^ 15 → x = point * 10 ^ place → written.toRat = x := by
  by_cases hx : x = 0
  · obtain rfl := hx
    have hdatum := datum_ofRat_zero negative
    have hzero : DecimalDigits.toRat ⟨0, 0⟩ = 0 := by
      rw [DecimalDigits.toRat, Nat.cast_zero, zero_mul]
    refine ⟨⟨0, 0⟩, Nat.zero_le _, ?_, fun _ _ _ _ ↦ hzero⟩
    rw [number?_realJson hdatum (denoted?_realChars_zero hdatum), hzero, neg_zero, ite_self]
  · obtain ⟨n, e, hnormal, hcontains, hbits⟩ := (h.ordinary le_rfl hx).exists_contains
    have hdatum : (Double.ofRat negative x).datum = .finite negative n e := by
      rw [datum_ofRat, hbits]
    refine ⟨shortest .toEven n e, (hnormal.digits_shortest .toEven).2,
      number?_realJson hdatum (denoted?_realChars hdatum hnormal), ?_⟩
    intro point place hpoint hplace
    rw [hplace] at hcontains ⊢
    exact hnormal.toRat_shortest .toEven hpoint hcontains

end Real

end Json

/-- The number in a literal, which the older dialect marks as a decimal by a letter. -/
def Literal.number? (version : Version) (cs : List Char) : Option Rat :=
  match version with
  | .v3 => (Text.beforeSuffix? ['M'] cs).bind Number.denoted?
  | .v4 => Number.denoted? cs

/-- A number of at most so many digits, wherever its point is. -/
def HasDigits (count : Nat) (x : Rat) : Prop :=
  ∃ (digits : Nat) (place : Int), digits < 10 ^ count ∧ |x| = digits * 10 ^ place

theorem hasDigits_of_le {count digits : Nat} {place : Int} {x : Rat} (hcount : 0 < count)
    (hdigits : digits ≤ 10 ^ count) (hx : |x| = digits * 10 ^ place) : HasDigits count x := by
  rcases Nat.lt_or_eq_of_le hdigits with hlt | rfl
  · exact ⟨digits, place, hlt, hx⟩
  · refine ⟨1, count + place, Nat.one_lt_pow hcount.ne' (by decide), ?_⟩
    rw [hx, zpow_add₀ (by norm_num), zpow_natCast]
    push_cast
    ring

namespace Value

open Number

theorem exists_literal (version : Version) (d : Decimal) : ∃ cs,
    Literal.chars version (.decimal d) = .ok cs ∧ Literal.number? version cs = some d.toRat := by
  refine ⟨_, rfl, ?_⟩
  cases version with
  | v3 =>
    simp only [Literal.number?]
    rw [Text.beforeSuffix?_append, Option.bind_some, d.denoted?_chars]
  | v4 =>
    simp only [Literal.number?]
    rw [List.append_nil, d.denoted?_chars]

theorem number?_body_v3 (d : Decimal) : Json.number? (toJson .v3 (.decimal d)).chars = some d.toRat := by
  rw [toJson, Json.number?_string, Decimal.text, String.toList_ofList, d.denoted?_chars]

theorem exists_number?_body_v4 (d : Decimal) : ∃ x,
    Json.number? (toJson .v4 (.decimal d)).chars = some x ∧ HasDigits 17 x ∧
      (d.FitsDouble → x = d.toRat) := by
  obtain ⟨negative, x, hdouble, hmoderate, hfits⟩ := d.exists_toDouble
  obtain ⟨written, hdigits, hnumber, hexact⟩ := Json.exists_number?_ofRat negative hmoderate
  rw [toJson, hdouble]
  refine ⟨_, hnumber, ?_, ?_⟩
  · have habs : |if negative then -written.toRat else written.toRat| =
        written.digits * 10 ^ written.exponent := by
      rw [apply_ite abs, abs_neg, ite_self, DecimalDigits.toRat]
      exact abs_of_nonneg (by positivity)
    exact hasDigits_of_le (by decide) hdigits habs
  · intro h
    obtain ⟨hx, hvalue⟩ := hfits h
    rw [hvalue, hexact d.significand (-d.scale) h.significand_lt, hx]
    rw [hx, d.magnitude_eq_zpow]

-- Neither bound can be higher: this decimal has 16 digits, and the next one 23 places.
example : Json.number? (toJson .v4 (.decimal ⟨false, 6184219626320267, 1, by decide, by decide⟩)).chars =
    some (6184219626320268 / 10) := by
  decide +kernel

example : (toJson .v4 (.decimal ⟨false, 1, 23, by decide, by decide⟩)).text = "1.0000000000000001e-23" := by
  decide +kernel

theorem exists_number?_body (version : Version) (d : Decimal) : ∃ x,
    Json.number? (toJson version (.decimal d)).chars = some x ∧
      (version = .v4 → HasDigits 17 x) ∧ ((version = .v4 → d.FitsDouble) → x = d.toRat) := by
  cases version with
  | v3 =>
    refine ⟨d.toRat, number?_body_v3 d, ?_, fun _ ↦ rfl⟩
    intro h
    cases h
  | v4 =>
    obtain ⟨x, hx, hdigits, hexact⟩ := exists_number?_body_v4 d
    exact ⟨x, hx, fun _ ↦ hdigits, fun h ↦ hexact (h rfl)⟩

/-- A decimal keeps its exact value in literals and in bodies of the older dialect. In a body of the newer
one a number of at most 17 digits takes its place; that is the decimal itself if it has at most 15 digits
and 22 places. Where both keep their value, different decimals have different bodies. -/
theorem decimal_keeps_value (version : Version) (d : Decimal) :
    (∃ cs, Literal.chars version (.decimal d) = .ok cs ∧
      Literal.number? version cs = some d.toRat) ∧
    (∃ x, Json.number? (toJson version (.decimal d)).chars = some x ∧
      (version = .v4 → HasDigits 17 x) ∧ ((version = .v4 → d.FitsDouble) → x = d.toRat)) ∧
    ∀ other : Decimal, (version = .v4 → d.FitsDouble ∧ other.FitsDouble) →
      (toJson version (.decimal d)).chars = (toJson version (.decimal other)).chars →
      d.toRat = other.toRat := by
  refine ⟨exists_literal version d, exists_number?_body version d, ?_⟩
  intro other hfits hbody
  obtain ⟨x, hx, -, hexact⟩ := exists_number?_body version d
  obtain ⟨y, hy, -, hexact'⟩ := exists_number?_body version other
  rw [← hexact fun h ↦ (hfits h).1, ← hexact' fun h ↦ (hfits h).2]
  apply Option.some.inj
  rw [← hx, hbody, hy]

/-- A price, and the same with a place more. -/
def price : Decimal := ⟨false, 1999, 2, by decide, by decide⟩

def precisePrice : Decimal := ⟨false, 19990, 3, by decide, by decide⟩

theorem decimal_keeps_value_price : price.FitsDouble ∧ precisePrice.FitsDouble ∧
    Json.number? (toJson .v4 (.decimal price)).chars = some price.toRat ∧
    (toJson .v4 (.decimal price)).chars = (toJson .v4 (.decimal precisePrice)).chars ∧
    price.toRat = precisePrice.toRat := by
  have hprice : price.FitsDouble := ⟨by decide, by decide⟩
  have hprecise : precisePrice.FitsDouble := ⟨by decide, by decide⟩
  have hbody : (toJson .v4 (.decimal price)).chars = (toJson .v4 (.decimal precisePrice)).chars := by
    decide +kernel
  obtain ⟨-, ⟨x, hx, -, hexact⟩, hsame⟩ := decimal_keeps_value .v4 price
  refine ⟨hprice, hprecise, ?_, hbody, hsame precisePrice (fun _ ↦ ⟨hprice, hprecise⟩) hbody⟩
  rw [hx, hexact fun _ ↦ hprice]

/-- An amount with two places, and one that is a hundredth less. -/
def amount : Decimal := ⟨false, 1234567890123456789, 2, by decide, by decide⟩

def lesserAmount : Decimal := ⟨false, 1234567890123456788, 2, by decide, by decide⟩

/-- In a body of the newer dialect a large amount is another number than in its literal, and the same as
a smaller one. -/
theorem not_decimal_keeps_value :
    Literal.chars .v4 (.decimal amount) = .ok "12345678901234567.89".toList ∧
    (toJson .v4 (.decimal amount)).chars = "1.2345678901234568e+16".toList ∧
    Json.number? (toJson .v4 (.decimal amount)).chars ≠ some amount.toRat ∧
    (toJson .v4 (.decimal amount)).chars = (toJson .v4 (.decimal lesserAmount)).chars ∧
    amount.toRat ≠ lesserAmount.toRat := by
  decide +kernel

end Value

end OData
