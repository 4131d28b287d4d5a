import OData.Proofs.Json.RoundTrip
import OData.Proofs.Number.Shortest

/-!
The number that a numeral stands for, with nothing rounded. The digits of a double stand for the same
number in both layouts.
-/

namespace OData

namespace Json

/-- A point and the digits behind it. -/
def fractionChars (fraction : Option (List Char)) : List Char :=
  fraction.elim [] (List.cons '.')

/-- An exponent, with a plus above zero. -/
def exponentChars (exponent : Option Int) : List Char :=
  exponent.elim [] fun e ↦ 'e' :: ((if 0 < e then ['+'] else []) ++ Text.signedDecimal e)

@[simp] theorem fractionChars_none : fractionChars none = [] := rfl

@[simp] theorem fractionChars_some (places : List Char) :
    fractionChars (some places) = '.' :: places := rfl

@[simp] theorem exponentChars_none : exponentChars none = [] := rfl

@[simp] theorem exponentChars_some (e : Int) : exponentChars (some e) =
    'e' :: ((if 0 < e then ['+'] else []) ++ Text.signedDecimal e) := rfl

namespace Numeral

/-- The number without its sign. -/
def magnitude (n : Numeral) : Rat :=
  (Text.digitsValue (n.whole ++ n.fraction.getD []) : Rat) *
    Number.powTen (n.exponent.getD 0 - (n.fraction.getD []).length)

/-- The number that a numeral stands for. -/
def toRat (n : Numeral) : Rat :=
  if n.negative then -n.magnitude else n.magnitude

def chars (n : Numeral) : List Char :=
  (if n.negative then ['-'] else []) ++
    (n.whole ++ (fractionChars n.fraction ++ exponentChars n.exponent))

end Numeral

/-- Digits before a point: a zero alone, or digits that start with another one. -/
structure IsWhole (cs : List Char) : Prop where
  digits : ∀ c ∈ cs, c.isDigit
  ne_nil : cs ≠ []
  zero : cs.head? = some '0' → cs = ['0']

/-- What the grammar of JSON asks of a numeral. -/
structure Numeral.WellFormed (n : Numeral) : Prop where
  whole : IsWhole n.whole
  fraction : ∀ places ∈ n.fraction, places ≠ [] ∧ ∀ c ∈ places, c.isDigit

theorem Numeral.WellFormed.of_none {whole : List Char} (h : IsWhole whole) (negative : Bool)
    (exponent : Option Int) : WellFormed ⟨negative, whole, none, exponent⟩ :=
  ⟨h, by simp⟩

theorem Numeral.WellFormed.of_some {whole places : List Char} (h : IsWhole whole) (hne : places ≠ [])
    (hd : ∀ c ∈ places, c.isDigit) (negative : Bool) (exponent : Option Int) :
    WellFormed ⟨negative, whole, some places, exponent⟩ :=
  ⟨h, by simpa [hne] using hd⟩

theorem readWhole?_append {whole rest : List Char} (h : IsWhole whole)
    (hrest : ∀ c ∈ rest.head?, c.isDigit = false) : readWhole? (whole ++ rest) = some (whole, rest) := by
  obtain ⟨c, cs, rfl⟩ := List.exists_cons_of_ne_nil h.ne_nil
  have hzero := h.zero
  rw [readWhole?, Text.spanDigits_append h.digits hrest]
  split <;> simp_all

theorem readSomeDigits?_append {digits rest : List Char} (h : digits ≠ [])
    (hd : ∀ c ∈ digits, c.isDigit) (hrest : ∀ c ∈ rest.head?, c.isDigit = false) :
    readSomeDigits? (digits ++ rest) = some (digits, rest) := by
  rw [readSomeDigits?, Text.spanDigits_append hd hrest]
  split <;> simp_all

theorem readSomeDigits?_decimal (n : Nat) :
    readSomeDigits? (Text.decimal n) = some (Text.decimal n, []) := by
  have hrest : ∀ c ∈ ([] : List Char).head?, c.isDigit = false := by simp
  have hread := readSomeDigits?_append (Text.decimal_ne_nil n)
    (fun _ ↦ Text.isDigit_of_mem_decimal) hrest
  rwa [List.append_nil] at hread

theorem readExponent?_exponentChars (exponent : Option Int) :
    readExponent? (exponentChars exponent) = some (exponent, []) := by
  cases exponent with
  | none => rfl
  | some e =>
    have hread := readSomeDigits?_decimal e.natAbs
    have hvalue := Text.digitsValue_decimal e.natAbs
    rw [exponentChars_some, Text.signedDecimal]
    rcases Int.lt_trichotomy e 0 with hneg | rfl | hpos
    · rw [if_neg (by omega), if_pos hneg, List.nil_append]
      simp only [readExponent?, true_or, if_true, hread, Option.map_some, hvalue]
      congr 3
      omega
    · rfl
    · rw [if_pos hpos, if_neg (by omega), List.singleton_append]
      simp only [readExponent?, true_or, if_true, hread, Option.map_some, hvalue]
      congr 3
      omega

theorem exponentChars_head (exponent : Option Int) :
    ∀ c ∈ (exponentChars exponent).head?, c = 'e' := by
  cases exponent <;> simp

theorem readFraction?_append {fraction : Option (List Char)} {rest : List Char}
    (h : ∀ places ∈ fraction, places ≠ [] ∧ ∀ c ∈ places, c.isDigit)
    (hrest : ∀ c ∈ rest.head?, c = 'e') :
    readFraction? (fractionChars fraction ++ rest) = some (fraction, rest) := by
  have hdigit : ∀ c ∈ rest.head?, c.isDigit = false := by
    intro c hc
    rw [hrest c hc]
    rfl
  cases fraction with
  | none =>
    rw [fractionChars_none, List.nil_append]
    unfold readFraction?
    split
    · exact absurd (hrest '.' rfl) (by decide)
    · rfl
  | some places =>
    obtain ⟨hne, hplaces⟩ := h places rfl
    rw [fractionChars_some, List.cons_append, readFraction?,
      readSomeDigits?_append hne hplaces hdigit, Option.map_some]

theorem isDigit_head_eq_false (fraction : Option (List Char)) (exponent : Option Int) :
    ∀ c ∈ (fractionChars fraction ++ exponentChars exponent).head?, c.isDigit = false := by
  have hhead := exponentChars_head exponent
  intro c hc
  cases fraction with
  | none =>
    rw [hhead c hc]
    rfl
  | some places =>
    obtain rfl : '.' = c := by simpa using hc
    rfl

/-- A numeral as text is read to its end. -/
theorem readNumeral?_chars {n : Numeral} (h : n.WellFormed) : readNumeral? n.chars = some (n, []) := by
  have hwhole := readWhole?_append h.whole (isDigit_head_eq_false n.fraction n.exponent)
  have hfraction := readFraction?_append h.fraction (exponentChars_head n.exponent)
  have hexponent := readExponent?_exponentChars n.exponent
  obtain ⟨negative, whole, fraction, exponent⟩ := n
  rw [Numeral.chars]
  cases negative
  · have hsign : ∀ cs, whole ++ (fractionChars fraction ++ exponentChars exponent) ≠ '-' :: cs := by
      intro cs heq
      obtain ⟨c, rest, hcs⟩ := List.exists_cons_of_ne_nil h.whole.ne_nil
      obtain rfl : whole = c :: rest := hcs
      obtain ⟨rfl, -⟩ := List.cons.inj heq
      exact absurd (h.whole.digits '-' (List.mem_cons_self ..)) (by decide)
    rw [if_neg Bool.false_ne_true, List.nil_append, readNumeral?]
    · simp only [Option.bind_eq_bind, hwhole, hfraction, hexponent, Option.bind_some]
      rfl
    · exact hsign
  · rw [if_pos rfl, List.singleton_append, readNumeral?]
    simp only [Option.bind_eq_bind, hwhole, hfraction, hexponent, Option.bind_some]
    rfl

end Json

namespace Number

/-- The number that a text stands for, if it is a numeral. -/
def denoted? (cs : List Char) : Option Rat :=
  (Json.readNumeral? cs).bind fun read ↦ if read.2.isEmpty then some read.1.toRat else none

theorem magnitude_eq {n : Json.Numeral} {digits : Nat} {exponent : Int}
    (hdigits : Text.digitsValue (n.whole ++ n.fraction.getD []) = digits)
    (hexponent : n.exponent.getD 0 - (n.fraction.getD []).length = exponent) :
    n.magnitude = digits * 10 ^ exponent := by
  rw [Json.Numeral.magnitude, hdigits, hexponent, powTen_eq]

theorem denoted?_of_eq_chars {cs : List Char} {n : Json.Numeral} (h : n.WellFormed) (hcs : cs = n.chars)
    {x : Rat} (hx : n.magnitude = x) : denoted? cs = some (if n.negative then -x else x) := by
  rw [hcs, denoted?, Json.readNumeral?_chars h, ← hx]
  rfl

theorem isDigit_of_mem_zeros {n : Nat} {c : Char} (h : c ∈ List.replicate n '0') : c.isDigit := by
  rw [List.eq_of_mem_replicate h]
  rfl

theorem isDigit_of_mem_zero (c : Char) (h : c ∈ ['0']) : c.isDigit :=
  isDigit_of_mem_zeros (n := 1) h

theorem isWhole_zero : Json.IsWhole ['0'] :=
  ⟨isDigit_of_mem_zero, List.cons_ne_nil '0' [], fun _ ↦ rfl⟩

/-- Digits of a number from the first on may be followed by any. -/
theorem isWhole_append {n length : Nat} (hn : 0 < n) (hlength : 0 < length) {cs : List Char}
    (hcs : ∀ c ∈ cs, c.isDigit) : Json.IsWhole ((Text.decimal n).take length ++ cs) := by
  obtain ⟨first, rest, hdecimal, hfirst⟩ := Text.exists_decimal_eq_cons hn
  have hdigit : ∀ c ∈ (Text.decimal n).take length ++ cs, c.isDigit := by
    intro c hc
    exact (List.mem_append.1 hc).elim
      (fun h ↦ Text.isDigit_of_mem_decimal (List.mem_of_mem_take h)) (hcs c)
  obtain ⟨length, rfl⟩ := Nat.exists_eq_succ_of_ne_zero hlength.ne'
  rw [hdecimal, List.take_succ_cons, List.cons_append] at hdigit ⊢
  exact ⟨hdigit, List.cons_ne_nil _ _, fun hzero ↦ absurd (Option.some.inj hzero) hfirst⟩

theorem isWhole_take {n length : Nat} (hn : 0 < n) (hlength : 0 < length) :
    Json.IsWhole ((Text.decimal n).take length) := by
  have hwhole := isWhole_append hn hlength (List.forall_mem_nil (fun c : Char ↦ c.isDigit))
  rwa [List.append_nil] at hwhole

namespace DecimalDigits

variable {d : DecimalDigits} (negative : Bool)

/-- A whole number has a zero behind the point. -/
theorem denoted?_whole (h : 0 < d.digits) (hexponent : 0 ≤ d.exponent) :
    denoted? ((if negative then ['-'] else []) ++ d.positional) =
      some (if negative then -d.toRat else d.toRat) := by
  obtain ⟨zeros, hzeros⟩ := Int.eq_ofNat_of_zero_le hexponent
  have hwhole := isWhole_append h (length_decimal_pos d.digits) fun _ ↦ isDigit_of_mem_zeros (n := zeros)
  rw [List.take_length] at hwhole
  have hdigits : Text.digitsValue (Text.decimal d.digits ++ List.replicate zeros '0' ++ ['0']) =
      10 ^ (zeros + 1) * d.digits := by
    rw [List.append_assoc, ← List.replicate_succ', Text.digitsValue_append_zeros, Text.digitsValue_decimal]
  have hplace : (0 : Int) - (['0'] : List Char).length = -1 := rfl
  apply denoted?_of_eq_chars
    (.of_some hwhole (List.cons_ne_nil '0' []) isDigit_of_mem_zero negative none)
  · simp [positional, hzeros, Json.Numeral.chars]
  · have hvalue : ((10 ^ (zeros + 1) * d.digits : Nat) : Rat) * 10 ^ (-1 : Int) = d.toRat := by
      rw [toRat, hzeros, zpow_neg_one, zpow_natCast, pow_succ]
      push_cast
      ring
    rw [← hvalue]
    exact magnitude_eq hdigits hplace

/-- Digits on both sides of the point. -/
theorem denoted?_mixed (h : 0 < d.digits) (hexponent : d.exponent < 0)
    (hlength : (-d.exponent).toNat < (Text.decimal d.digits).length) :
    denoted? ((if negative then ['-'] else []) ++ d.positional) =
      some (if negative then -d.toRat else d.toRat) := by
  generalize hplaces : (-d.exponent).toNat = places at hlength
  generalize hcut : (Text.decimal d.digits).length - places = cut
  have hwhole := isWhole_take h (show 0 < cut by omega)
  have hne : (Text.decimal d.digits).drop cut ≠ [] := by
    rw [Ne, List.drop_eq_nil_iff]
    omega
  have hd : ∀ c ∈ (Text.decimal d.digits).drop cut, c.isDigit := fun _ hc ↦
    Text.isDigit_of_mem_decimal (List.mem_of_mem_drop hc)
  apply denoted?_of_eq_chars (.of_some hwhole hne hd negative none)
  · simp [positional, not_le.2 hexponent, hplaces, hlength, hcut, Json.Numeral.chars]
  · rw [toRat]
    apply magnitude_eq
    · rw [Option.getD_some, List.take_append_drop, Text.digitsValue_decimal]
    · rw [Option.getD_some, Option.getD_none, List.length_drop]
      omega

/-- Only a zero before the point. -/
theorem denoted?_fraction (hexponent : d.exponent < 0)
    (hlength : (Text.decimal d.digits).length ≤ (-d.exponent).toNat) :
    denoted? ((if negative then ['-'] else []) ++ d.positional) =
      some (if negative then -d.toRat else d.toRat) := by
  generalize hplaces : (-d.exponent).toNat = places at hlength
  generalize hzeros : places - (Text.decimal d.digits).length = zeros
  have hne : List.replicate zeros '0' ++ Text.decimal d.digits ≠ [] := by
    simp [Text.decimal_ne_nil]
  have hd : ∀ c ∈ List.replicate zeros '0' ++ Text.decimal d.digits, c.isDigit := by
    intro c hc
    exact (List.mem_append.1 hc).elim isDigit_of_mem_zeros Text.isDigit_of_mem_decimal
  apply denoted?_of_eq_chars (.of_some isWhole_zero hne hd negative none)
  · simp [positional, not_le.2 hexponent, hplaces, not_lt.2 hlength, hzeros, Json.Numeral.chars]
  · rw [toRat]
    apply magnitude_eq
    · rw [Option.getD_some, ← List.append_assoc, ← List.replicate_one, List.replicate_append_replicate,
        Text.digitsValue_zeros_append, Text.digitsValue_decimal]
    · rw [Option.getD_some, Option.getD_none, List.length_append, List.length_replicate]
      omega

theorem denoted?_positional (h : 0 < d.digits) :
    denoted? ((if negative then ['-'] else []) ++ d.positional) =
      some (if negative then -d.toRat else d.toRat) := by
  rcases Int.lt_or_le d.exponent 0 with hexponent | hexponent
  · rcases Nat.lt_or_ge (-d.exponent).toNat (Text.decimal d.digits).length with hlength | hlength
    · exact denoted?_mixed negative h hexponent hlength
    · exact denoted?_fraction negative hexponent hlength
  · exact denoted?_whole negative h hexponent

theorem denoted?_scientific (h : 0 < d.digits) :
    denoted? ((if negative then ['-'] else []) ++ d.scientific true) =
      some (if negative then -d.toRat else d.toRat) := by
  have hvalue := Text.digitsValue_decimal d.digits
  have hd (c : Char) (hc : c ∈ Text.decimal d.digits) : c.isDigit := Text.isDigit_of_mem_decimal hc
  have hwhole := isWhole_take h Nat.one_pos
  obtain ⟨first, rest, hdecimal⟩ := List.exists_cons_of_ne_nil (Text.decimal_ne_nil d.digits)
  have hexponent : d.decade - 1 - rest.length = d.exponent := by
    rw [decade, hdecimal, List.length_cons]
    push_cast
    omega
  rw [hdecimal] at hvalue hd hwhole
  cases rest with
  | nil =>
    apply denoted?_of_eq_chars (.of_none hwhole negative (some (d.decade - 1)))
    · simp [scientific, hdecimal, Json.Numeral.chars]
    · exact magnitude_eq hvalue hexponent
  | cons second rest =>
    have hplaces : ∀ c ∈ second :: rest, c.isDigit := fun c hc ↦ hd c (List.mem_cons_of_mem _ hc)
    apply denoted?_of_eq_chars
      (.of_some hwhole (List.cons_ne_nil second rest) hplaces negative (some (d.decade - 1)))
    · simp [scientific, hdecimal, Json.Numeral.chars]
    · exact magnitude_eq hvalue hexponent

end DecimalDigits

end Number

end OData
