import OData.Proofs.Text.Digits

/-!
Durations as they are written: a sign, and components of days, hours, minutes and seconds. Those that are
canonical are read back from their text.
-/

namespace OData.Calendar

/-- A duration as it is written, by its sign and by those components that are there. -/
structure Components where
  negative : Bool
  days : Option Nat
  hours : Option Nat
  minutes : Option Nat
  /-- Whole seconds, and the digits behind their point. -/
  seconds : Option (Nat × List Char)

namespace Components

def component (unit : Char) : Option Nat → List Char
  | none => []
  | some n => Text.decimal n ++ [unit]

def secondsComponent : Option (Nat × List Char) → List Char
  | none => []
  | some (whole, []) => Text.decimal whole ++ ['S']
  | some (whole, d :: fraction) => Text.decimal whole ++ '.' :: (d :: fraction ++ ['S'])

/-- Whether there is a component behind the `T`. -/
def hasTime (c : Components) : Bool :=
  c.hours.isSome || c.minutes.isSome || c.seconds.isSome

/-- What follows the `T`. -/
def timeChars (c : Components) : List Char :=
  component 'H' c.hours ++ (component 'M' c.minutes ++ secondsComponent c.seconds)

/-- The text `[-]P[nD][T[nH][nM][n[.f]S]]`, with the `T` just where a component of the time follows. -/
def chars (c : Components) : List Char :=
  (if c.negative then ['-'] else []) ++
    'P' :: (component 'D' c.days ++ if c.hasTime then 'T' :: c.timeChars else [])

/-- The fraction of a second whose digits are given, in nanoseconds. -/
def fractionNanoseconds (fraction : List Char) : Nat :=
  Text.digitsValue fraction * 10 ^ (9 - fraction.length)

def secondsNanoseconds : Option (Nat × List Char) → Nat
  | none => 0
  | some (whole, fraction) => whole * 1000000000 + fractionNanoseconds fraction

/-- The sum of the components. -/
def magnitude (c : Components) : Nat :=
  c.days.getD 0 * 86400000000000 + c.hours.getD 0 * 3600000000000 +
    c.minutes.getD 0 * 60000000000 + secondsNanoseconds c.seconds

/-- The sum of the components under their sign. -/
def nanoseconds (c : Components) : Int :=
  if c.negative then -c.magnitude else c.magnitude

/-- Nothing, written as no seconds. -/
def zero : Components :=
  ⟨false, none, none, none, some (0, [])⟩

/-- Up to nine digits without a zero at the end. -/
structure IsFraction (fraction : List Char) : Prop where
  digits : ∀ d ∈ fraction, d.isDigit
  length_le : fraction.length ≤ 9
  last_ne_zero : fraction.getLast? ≠ some '0'

structure IsCanonical (c : Components) : Prop where
  some_component : c.days.isSome ∨ c.hasTime
  days_ne_zero : c.days ≠ some 0
  hours_ne_zero : c.hours ≠ some 0
  hours_lt : ∀ n ∈ c.hours, n < 24
  minutes_ne_zero : c.minutes ≠ some 0
  minutes_lt : ∀ n ∈ c.minutes, n < 60
  seconds_lt : ∀ s ∈ c.seconds, s.1 < 60
  /-- Seconds are zero in front of a fraction, or where the whole duration is. -/
  seconds_zero : c.seconds = some (0, []) → c = zero
  fraction : ∀ s ∈ c.seconds, IsFraction s.2

/-! ### Reading components -/

/-- Reads a number with a unit, where one is at the head. -/
def readComponent (unit : Char) (cs : List Char) : Option Nat × List Char :=
  match Text.spanDigits cs with
  | (digits, c :: rest) =>
    if digits ≠ [] ∧ c = unit then (some (Text.digitsValue digits), rest) else (none, cs)
  | (_, []) => (none, cs)

def readSeconds? (cs : List Char) : Option (Option (Nat × List Char)) :=
  match Text.spanDigits cs with
  | ([], []) => some none
  | (whole, ['S']) => some (some (Text.digitsValue whole, []))
  | (whole, '.' :: rest) =>
    match Text.spanDigits rest with
    | (fraction, ['S']) => some (some (Text.digitsValue whole, fraction))
    | _ => none
  | _ => none

/-- Reads what follows the sign and the `P`. -/
def readUnsigned? (negative : Bool) (cs : List Char) : Option Components :=
  match readComponent 'D' cs with
  | (days, []) => some ⟨negative, days, none, none, none⟩
  | (days, 'T' :: rest) =>
    let (hours, rest) := readComponent 'H' rest
    let (minutes, rest) := readComponent 'M' rest
    (readSeconds? rest).map fun seconds ↦ ⟨negative, days, hours, minutes, seconds⟩
  | _ => none

def ofChars? : List Char → Option Components
  | '-' :: 'P' :: rest => readUnsigned? true rest
  | 'P' :: rest => readUnsigned? false rest
  | _ => none

/-- The unit of the number at the head of a text. -/
def unit? (cs : List Char) : Option Char :=
  (Text.spanDigits cs).2.head?

theorem spanDigits_decimal {c : Char} (hc : c.isDigit = false) (n : Nat) (rest : List Char) :
    Text.spanDigits (Text.decimal n ++ c :: rest) = (Text.decimal n, c :: rest) :=
  Text.spanDigits_append (fun _ ↦ Text.isDigit_of_mem_decimal) (by simp [hc])

theorem unit?_component {unit : Char} (hunit : unit.isDigit = false) (n : Option Nat)
    (rest : List Char) : unit? (component unit n ++ rest) = if n.isSome then some unit else unit? rest := by
  cases n with
  | none => rfl
  | some n =>
    rw [component, List.append_assoc, List.singleton_append, unit?, spanDigits_decimal hunit]
    rfl

theorem unit?_seconds (seconds : Option (Nat × List Char)) :
    ∀ u ∈ unit? (secondsComponent seconds), u = 'S' ∨ u = '.' := by
  intro u hu
  match seconds with
  | none => contradiction
  | some (whole, []) =>
    rw [secondsComponent, unit?, spanDigits_decimal rfl] at hu
    exact .inl (Option.some.inj hu).symm
  | some (whole, _ :: _) =>
    rw [secondsComponent, unit?, spanDigits_decimal rfl] at hu
    exact .inr (Option.some.inj hu).symm

/-- A component is read, or the missing of it, where no other number has its unit. -/
theorem readComponent_append {unit : Char} (hunit : unit.isDigit = false) (n : Option Nat)
    {rest : List Char} (h : ∀ u ∈ unit? rest, u ≠ unit) :
    readComponent unit (component unit n ++ rest) = (n, rest) := by
  cases n with
  | none =>
    rw [component, List.nil_append, readComponent]
    split
    · rename_i digits c others heq
      have hc : c ≠ unit := h c (by rw [unit?, heq]; rfl)
      rw [if_neg fun hand ↦ hc hand.2]
    · rfl
  | some n =>
    rw [component, List.append_assoc, List.singleton_append, readComponent, spanDigits_decimal hunit]
    simp only [ne_eq, Text.decimal_ne_nil, not_false_eq_true, and_self, if_true,
      Text.digitsValue_decimal]

theorem readSeconds?_secondsComponent {seconds : Option (Nat × List Char)}
    (h : ∀ s ∈ seconds, IsFraction s.2) :
    readSeconds? (secondsComponent seconds) = some seconds := by
  match seconds with
  | none => rfl
  | some (whole, []) =>
    rw [secondsComponent, readSeconds?, spanDigits_decimal rfl]
    simp only [Text.digitsValue_decimal]
  | some (whole, d :: fraction) =>
    have hfraction : Text.spanDigits ((d :: fraction) ++ ['S']) = (d :: fraction, ['S']) :=
      Text.spanDigits_append (h _ rfl).digits (by simp)
    rw [secondsComponent, readSeconds?, spanDigits_decimal rfl]
    simp only [hfraction, Text.digitsValue_decimal]

theorem readUnsigned?_chars {c : Components} (h : c.IsCanonical) :
    readUnsigned? c.negative (component 'D' c.days ++ if c.hasTime then 'T' :: c.timeChars else []) =
      some c := by
  have hdays (rest : List Char) (hrest : unit? rest = none ∨ unit? rest = some 'T') :
      readComponent 'D' (component 'D' c.days ++ rest) = (c.days, rest) :=
    readComponent_append rfl _ (by rcases hrest with hrest | hrest <;> simp [hrest])
  have hminutes : readComponent 'M' (component 'M' c.minutes ++ secondsComponent c.seconds) =
      (c.minutes, secondsComponent c.seconds) := by
    refine readComponent_append rfl _ fun u hu ↦ ?_
    rcases unit?_seconds c.seconds u hu with rfl | rfl <;> decide
  have hhours : readComponent 'H' c.timeChars =
      (c.hours, component 'M' c.minutes ++ secondsComponent c.seconds) := by
    refine readComponent_append rfl _ fun u hu ↦ ?_
    rw [unit?_component rfl] at hu
    split at hu
    · obtain rfl := Option.some.inj hu
      decide
    · rcases unit?_seconds c.seconds u hu with rfl | rfl <;> decide
  cases htime : c.hasTime with
  | false =>
    simp only [hasTime, Bool.or_eq_false_iff, Option.isSome_eq_false_iff, Option.isNone_iff_eq_none] at htime
    obtain ⟨⟨hhours, hminutes⟩, hseconds⟩ := htime
    have hc : c = ⟨c.negative, c.days, none, none, none⟩ := by
      obtain ⟨_, _, _, _, _⟩ := c
      obtain rfl := hhours
      obtain rfl := hminutes
      obtain rfl := hseconds
      rfl
    rw [if_neg Bool.false_ne_true, readUnsigned?, hdays [] (.inl rfl)]
    exact congrArg some hc.symm
  | true =>
    rw [if_pos rfl, readUnsigned?, hdays _ (.inr rfl)]
    simp only [hhours, hminutes, readSeconds?_secondsComponent h.fraction, Option.map_some]

/-- The text of canonical components gives them back. -/
theorem ofChars?_chars {c : Components} (h : c.IsCanonical) : ofChars? c.chars = some c := by
  have hread := readUnsigned?_chars h
  rw [chars]
  cases hnegative : c.negative with
  | false =>
    rw [hnegative] at hread
    exact hread
  | true =>
    rw [hnegative] at hread
    exact hread

end Components

end OData.Calendar
