import OData.Proofs.Answer
import OData.Proofs.Number.Integer
import OData.Response.TypedText

/-!
Which texts are values of a type of integers, or truth values. Integers have to be written as such, and to
be in the range of the value that carries them, which is the range of the type itself for the two widest
types only. Every text is read as a truth value.
-/

namespace OData.TypedText

open Number (IsInteger readInteger)

/-- The types of integers. -/
inductive IntegerType
  | sbyte
  | byte
  | int16
  | int32
  | int64
  deriving DecidableEq

namespace IntegerType

def name : IntegerType → String
  | sbyte => "Edm.SByte"
  | byte => "Edm.Byte"
  | int16 => "Edm.Int16"
  | int32 => "Edm.Int32"
  | int64 => "Edm.Int64"

def low : IntegerType → Int
  | sbyte => -128
  | byte => 0
  | int16 => -32768
  | int32 => -2147483648
  | int64 => -9223372036854775808

def high : IntegerType → Int
  | sbyte => 127
  | byte => 255
  | int16 => 32767
  | int32 => 2147483647
  | int64 => 9223372036854775807

/-- The type of the values that carry the numbers of a type. -/
def carrier : IntegerType → IntegerType
  | int64 => int64
  | _ => int32

def make (t : IntegerType) (n : Int) : Value :=
  match t with
  | int64 => .int64 (Int64.ofInt n)
  | _ => .int32 (Int32.ofInt n)

/-- A value of a type that stands for a number. -/
def Carries (t : IntegerType) (v : Value) (n : Int) : Prop :=
  match t with
  | int64 => ∃ k : Int64, v = .int64 k ∧ k.toInt = n
  | _ => ∃ k : Int32, v = .int32 k ∧ k.toInt = n

/-- The texts that are read in a type are the integers of its range. -/
def AcceptsExactly (t : IntegerType) : Prop :=
  ∀ text v, value (some t.name) text = .ok v ↔
    ∃ n, IsInteger text.toList n ∧ (t.low ≤ n ∧ n ≤ t.high) ∧ t.Carries v n

variable {t : IntegerType} {v : Value} {n : Int} {text : String}

theorem carries_int32_iff : (∃ k : Int32, v = .int32 k ∧ k.toInt = n) ↔
    (int32.low ≤ n ∧ n ≤ int32.high) ∧ v = .int32 (Int32.ofInt n) := by
  constructor
  · rintro ⟨k, rfl, rfl⟩
    exact ⟨⟨k.minValue_le_toInt, k.toInt_le⟩, by rw [Int32.ofInt_toInt]⟩
  · rintro ⟨⟨hlow, hhigh⟩, rfl⟩
    exact ⟨_, rfl, Int32.toInt_ofInt_of_le hlow (Int.lt_add_one_of_le hhigh)⟩

theorem carries_int64_iff : (∃ k : Int64, v = .int64 k ∧ k.toInt = n) ↔
    (int64.low ≤ n ∧ n ≤ int64.high) ∧ v = .int64 (Int64.ofInt n) := by
  constructor
  · rintro ⟨k, rfl, rfl⟩
    exact ⟨⟨k.minValue_le_toInt, k.toInt_le⟩, by rw [Int64.ofInt_toInt]⟩
  · rintro ⟨⟨hlow, hhigh⟩, rfl⟩
    exact ⟨_, rfl, Int64.toInt_ofInt_of_le hlow (Int.lt_add_one_of_le hhigh)⟩

theorem carries_iff :
    t.Carries v n ↔ (t.carrier.low ≤ n ∧ n ≤ t.carrier.high) ∧ v = t.make n := by
  cases t with
  | int64 => exact carries_int64_iff
  | _ => exact carries_int32_iff

theorem eq_of_carries {m : Int} (hm : t.Carries v m) (hn : t.Carries v n) : m = n := by
  cases t with
  | int64 =>
    obtain ⟨k, rfl, rfl⟩ := hm
    obtain ⟨l, hl, rfl⟩ := hn
    rw [Value.int64.inj hl]
  | _ =>
    obtain ⟨k, rfl, rfl⟩ := hm
    obtain ⟨l, hl, rfl⟩ := hn
    rw [Value.int32.inj hl]

theorem carrier_low_le (t : IntegerType) : t.carrier.low ≤ t.low ∧ t.low ≤ 0 := by
  cases t <;> decide

theorem high_le_carrier (t : IntegerType) : 0 ≤ t.high ∧ t.high ≤ t.carrier.high := by
  cases t <;> decide

theorem value_eq (t : IntegerType) (text : String) : value (some t.name) text =
    ((readInteger t.carrier.low t.carrier.high text.toList).mapError fun fault ↦
      .invalidValue t.name text (some fault.message)).map t.make := by
  have hlow : Int32.minValue.toInt = int32.low := rfl
  have hhigh : Int32.maxValue.toInt = int32.high := rfl
  have hlow' : Int64.minValue.toInt = int64.low := rfl
  have hhigh' : Int64.maxValue.toInt = int64.high := rfl
  cases t
  all_goals
    simp only [value, name, Option.getD_some, carrier, hlow, hhigh, hlow', hhigh']
    split
    · rename_i n hread
      rw [hread]
      rfl
    · rename_i fault hread
      rw [hread]
      rfl

/-- The texts of a type of integers are the integers that a value of the type can carry. -/
theorem value_eq_ok_iff :
    value (some t.name) text = .ok v ↔ ∃ n, IsInteger text.toList n ∧ t.Carries v n := by
  obtain ⟨hlow, hlow'⟩ := t.carrier_low_le
  obtain ⟨hhigh, hhigh'⟩ := t.high_le_carrier
  rw [value_eq, Except.map_eq_ok]
  constructor
  · rintro ⟨n, hread, rfl⟩
    rw [Except.mapError_eq_ok, Number.readInteger_eq_ok_iff (by omega) (by omega)] at hread
    exact ⟨n, hread.1, carries_iff.2 ⟨hread.2, rfl⟩⟩
  · rintro ⟨n, hn, hv⟩
    obtain ⟨hrange, rfl⟩ := carries_iff.1 hv
    refine ⟨n, ?_, rfl⟩
    rw [Except.mapError_eq_ok, Number.readInteger_eq_ok_iff (by omega) (by omega)]
    exact ⟨hn, hrange⟩

theorem eq_of_value_eq_error {fault : ResponseFault} (h : value (some t.name) text = .error fault) :
    ∃ detail, fault = .invalidValue t.name text (some detail) := by
  rw [value_eq, Except.map_eq_error, Except.mapError_eq_error] at h
  obtain ⟨cause, -, rfl⟩ := h
  exact ⟨cause.message, rfl⟩

theorem isInteger_decimal (n : Nat) : IsInteger (Text.decimal n) n := by
  have h := IsInteger.unsigned (fun _ ↦ Text.isDigit_of_mem_decimal) (Text.decimal_ne_nil n)
  rwa [Text.digitsValue_decimal] at h

/-- A type that is narrower than its carrier is given a number beyond its range. -/
theorem not_acceptsExactly_of_lt (h : t.high < t.carrier.high) : ¬ t.AcceptsExactly := by
  intro hexact
  obtain ⟨hlow, hlow'⟩ := t.carrier_low_le
  obtain ⟨hhigh, -⟩ := t.high_le_carrier
  have htext : IsInteger (String.ofList (Text.decimal (t.high + 1).toNat)).toList (t.high + 1) := by
    rw [String.toList_ofList]
    have hinteger := isInteger_decimal (t.high + 1).toNat
    rwa [Int.toNat_of_nonneg (by omega)] at hinteger
  have hcarries : t.Carries (t.make (t.high + 1)) (t.high + 1) :=
    carries_iff.2 ⟨⟨by omega, by omega⟩, rfl⟩
  obtain ⟨n, -, ⟨-, hn⟩, hcarries'⟩ := (hexact _ _).1 (value_eq_ok_iff.2 ⟨_, htext, hcarries⟩)
  rw [← eq_of_carries hcarries hcarries'] at hn
  omega

theorem acceptsExactly_of_eq (h : t.carrier = t) : t.AcceptsExactly := by
  intro text v
  rw [value_eq_ok_iff]
  refine exists_congr fun n ↦ and_congr_right fun _ ↦ ?_
  rw [carries_iff, h]
  exact ⟨fun hn ↦ ⟨hn.1, hn⟩, And.right⟩

theorem acceptsExactly_iff : t.AcceptsExactly ↔ t = .int32 ∨ t = .int64 := by
  constructor
  · intro h
    cases t with
    | sbyte => exact absurd h (not_acceptsExactly_of_lt (by decide))
    | byte => exact absurd h (not_acceptsExactly_of_lt (by decide))
    | int16 => exact absurd h (not_acceptsExactly_of_lt (by decide))
    | int32 => exact .inl rfl
    | int64 => exact .inr rfl
  · rintro (rfl | rfl)
    · exact acceptsExactly_of_eq rfl
    · exact acceptsExactly_of_eq rfl

end IntegerType

/-! ### Truth values -/

/-- A text that names a truth value, in any letter case, or is its digit. -/
def IsTruth (text : String) (b : Bool) : Prop :=
  Text.lower text.toList = (if b then "true" else "false").toList ∨ text = if b then "1" else "0"

/-- The texts that are read as truth values are those that name one. -/
def AcceptsTruthExactly : Prop :=
  ∀ text v, value (some "Edm.Boolean") text = .ok v ↔ ∃ b, IsTruth text b ∧ v = .boolean b

variable {text : String} {v : Value}

theorem isTruth_true_iff :
    IsTruth text true ↔ (Text.sameIgnoringCase text "true" || text = "1") = true := by
  have hlower : Text.lower "true".toList = "true".toList := by decide
  rw [Bool.or_eq_true, Text.sameIgnoringCase_iff, hlower, decide_eq_true_eq]
  exact Iff.rfl

theorem not_isTruth_both (h : IsTruth text true) : ¬ IsTruth text false := by
  rintro (hfalse | rfl)
  · rcases h with htrue | rfl
    · exact absurd (htrue.symm.trans hfalse) (by decide)
    · exact absurd hfalse (by decide)
  · rcases h with htrue | hone
    · exact absurd htrue (by decide)
    · exact absurd hone (by decide)

/-- A text is read as true if it says so, and as false in every other case. -/
theorem value_boolean (text : String) :
    ∃ b, value (some "Edm.Boolean") text = .ok (.boolean b) ∧ (b = true ↔ IsTruth text true) := by
  refine ⟨Text.sameIgnoringCase text "true" || text = "1", ?_, isTruth_true_iff.symm⟩
  simp only [value, Option.getD_some]

/-- What texts of the types of integers, and of truth values, are read as. An integer that the value of its
type can carry is read as that number, whether or not it is in the range of the type, and any other text is
refused; a text that names a truth value is read as that, and every other one as false. -/
theorem value_integer_boolean (text : String) :
    (∀ t : IntegerType,
      (∀ v, value (some t.name) text = .ok v ↔ ∃ n, IsInteger text.toList n ∧ t.Carries v n) ∧
      (∀ n, IsInteger text.toList n → t.low ≤ n → n ≤ t.high →
        ∃ v, value (some t.name) text = .ok v ∧ t.Carries v n) ∧
      (∀ fault, value (some t.name) text = .error fault →
        ∃ detail, fault = .invalidValue t.name text (some detail) ∧
          fault.message = "invalid " ++ t.name ++ " value '" ++ text ++ "'" ++ (": " ++ detail)) ∧
      (t.AcceptsExactly ↔ t = .int32 ∨ t = .int64)) ∧
    ∃ b, value (some "Edm.Boolean") text = .ok (.boolean b) ∧ (∀ c, IsTruth text c → b = c) ∧
      (b = true → IsTruth text true) := by
  refine ⟨fun t ↦ ⟨fun v ↦ IntegerType.value_eq_ok_iff, ?_, ?_, IntegerType.acceptsExactly_iff⟩, ?_⟩
  · intro n hn hlow hhigh
    obtain ⟨hlow', -⟩ := t.carrier_low_le
    obtain ⟨-, hhigh'⟩ := t.high_le_carrier
    have hcarries : t.Carries (t.make n) n :=
      IntegerType.carries_iff.2 ⟨⟨Int.le_trans hlow' hlow, Int.le_trans hhigh hhigh'⟩, rfl⟩
    exact ⟨_, IntegerType.value_eq_ok_iff.2 ⟨n, hn, hcarries⟩, hcarries⟩
  · intro fault hfault
    obtain ⟨detail, rfl⟩ := IntegerType.eq_of_value_eq_error hfault
    exact ⟨detail, rfl, rfl⟩
  · obtain ⟨b, hread, hb⟩ := value_boolean text
    refine ⟨b, hread, fun c hc ↦ ?_, hb.1⟩
    cases c with
    | true => exact hb.2 hc
    | false =>
      rw [← Bool.not_eq_true, hb]
      exact fun htrue ↦ not_isTruth_both htrue hc

/-- A number beyond the range of its type is read, and so is a text that names no truth value. -/
theorem not_value_exactly :
    (value (some IntegerType.byte.name) "300" = .ok (.int32 300) ∧ ¬ IntegerType.byte.AcceptsExactly) ∧
      value (some "Edm.Boolean") "yes" = .ok (.boolean false) ∧ ¬ AcceptsTruthExactly := by
  have hread : value (some "Edm.Boolean") "yes" = .ok (.boolean false) := rfl
  refine ⟨⟨rfl, IntegerType.not_acceptsExactly_of_lt (by decide)⟩, hread, fun h ↦ ?_⟩
  obtain ⟨b, hb, -⟩ := (h _ _).1 hread
  rcases hb with hword | hdigit
  · cases b <;> exact absurd hword (by decide)
  · cases b <;> exact absurd hdigit (by decide)

end OData.TypedText
