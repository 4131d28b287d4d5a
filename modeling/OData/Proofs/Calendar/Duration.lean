import Mathlib.Data.List.DropRight
import OData.Calendar.Duration
import OData.Proofs.Calendar.Components

/-!
The text of a duration as its components, and what they sum up to. The components that a duration is
written with are canonical, and of the canonical ones no others have its length.
-/

namespace OData.Calendar

namespace Duration

open Components

/-! ### Fractions of a second -/

theorem fractionDigits_eq (n : Nat) :
    fractionDigits n = (Text.paddedDecimal 9 n).rdropWhile (· = '0') := rfl

/-- Dropping the zeros at the end of a text leaves what they were put behind. -/
theorem rdropWhile_append_zeros {cs : List Char} (h : cs.getLast? ≠ some '0') (n : Nat) :
    (cs ++ List.replicate n '0').rdropWhile (· = '0') = cs := by
  induction n with
  | zero =>
    rw [List.replicate_zero, List.append_nil, List.rdropWhile_eq_self_iff]
    intro hne hlast
    rw [List.getLast?_eq_some_getLast hne, of_decide_eq_true hlast] at h
    exact h rfl
  | succ n ih =>
    rw [List.replicate_succ', ← List.append_assoc, List.rdropWhile_concat_pos (h := rfl), ih]

/-- The digits of a fraction, with the zeros that were dropped behind them. -/
theorem fractionDigits_append_zeros {n : Nat} (h : n < 1000000000) :
    fractionDigits n ++ List.replicate (9 - (fractionDigits n).length) '0' = Text.paddedDecimal 9 n := by
  have hlength : (Text.paddedDecimal 9 n).length = 9 := Text.length_paddedDecimal (by decide) h
  have hsplit : fractionDigits n ++ (Text.paddedDecimal 9 n).rtakeWhile (· = '0') =
      Text.paddedDecimal 9 n := List.rdropWhile_append_rtakeWhile
  have hzeros := List.eq_replicate_of_mem fun c hc ↦ of_decide_eq_true
    (List.mem_rtakeWhile_imp (p := (· = '0')) (l := Text.paddedDecimal 9 n) hc)
  have hlengths := congrArg List.length hsplit
  rw [List.length_append, hlength] at hlengths
  rw [hzeros] at hsplit
  rwa [Nat.sub_eq_of_eq_add' hlengths.symm]

theorem isFraction_fractionDigits {n : Nat} (h : n < 1000000000) : IsFraction (fractionDigits n) := by
  have hkept : fractionDigits n <+: Text.paddedDecimal 9 n := List.rdropWhile_prefix _ _
  refine ⟨fun d hd ↦ Text.isDigit_of_mem_paddedDecimal (hkept.subset hd), ?_, fun hlast ↦ ?_⟩
  · rw [← Text.length_paddedDecimal (by decide : 0 < 9) h]
    exact hkept.length_le
  · have hne : fractionDigits n ≠ [] := List.ne_nil_of_mem (List.mem_of_getLast? hlast)
    rw [List.getLast?_eq_some_getLast hne] at hlast
    exact List.rdropWhile_last_not _ _ hne (decide_eq_true (Option.some.inj hlast))

theorem fractionNanoseconds_fractionDigits {n : Nat} (h : n < 1000000000) :
    fractionNanoseconds (fractionDigits n) = n := by
  have hvalue := congrArg Text.digitsValue (fractionDigits_append_zeros h)
  rw [Text.digitsValue_append_zeros, Text.digitsValue_paddedDecimal] at hvalue
  rw [fractionNanoseconds, Nat.mul_comm, hvalue]

/-- A fraction with zeros up to nine digits is the number of its nanoseconds. -/
theorem digitsValue_append_zeros (fraction : List Char) :
    Text.digitsValue (fraction ++ List.replicate (9 - fraction.length) '0') =
      fractionNanoseconds fraction := by
  rw [Text.digitsValue_append_zeros, fractionNanoseconds, Nat.mul_comm]

section

variable {fraction : List Char} (h : IsFraction fraction)
include h

theorem fractionNanoseconds_lt_and_digits : fractionNanoseconds fraction < 1000000000 ∧
    Text.paddedDecimal 9 (fractionNanoseconds fraction) =
      fraction ++ List.replicate (9 - fraction.length) '0' := by
  have hle := h.length_le
  have hdigits : ∀ c ∈ fraction ++ List.replicate (9 - fraction.length) '0', c.isDigit := by
    intro c hc
    rcases List.mem_append.1 hc with hc | hc
    · exact h.digits c hc
    · rw [List.eq_of_mem_replicate hc]
      rfl
  have hlength : (fraction ++ List.replicate (9 - fraction.length) '0').length = 9 := by
    rw [List.length_append, List.length_replicate]
    omega
  have hlt := Text.digitsValue_lt hdigits
  rw [hlength, digitsValue_append_zeros] at hlt
  refine ⟨hlt, Text.eq_of_digitsValue_eq (fun _ ↦ Text.isDigit_of_mem_paddedDecimal) hdigits ?_ ?_⟩
  · rw [hlength, Text.length_paddedDecimal (by decide) hlt]
  · rw [Text.digitsValue_paddedDecimal, digitsValue_append_zeros]

theorem fractionDigits_fractionNanoseconds : fractionDigits (fractionNanoseconds fraction) = fraction := by
  rw [fractionDigits_eq, (fractionNanoseconds_lt_and_digits h).2, rdropWhile_append_zeros h.last_ne_zero]

theorem fractionNanoseconds_pos (hne : fraction ≠ []) : 0 < fractionNanoseconds fraction := by
  refine Nat.pos_of_ne_zero fun hzero ↦ hne ?_
  have hdigits := fractionDigits_fractionNanoseconds h
  rw [hzero] at hdigits
  exact hdigits.symm.trans (by decide)

end

/-! ### The components of a duration -/

/-- A component that is left out where it is zero. -/
def unlessZero (n : Nat) : Option Nat :=
  if n = 0 then none else some n

theorem part_eq (n : Nat) (unit : Char) : part n unit = component unit (unlessZero n) := by
  rw [part, unlessZero]
  split <;> rfl

theorem unlessZero_ne (n : Nat) : unlessZero n ≠ some 0 := by
  rw [unlessZero]
  split
  · exact nofun
  · exact fun h ↦ ‹¬ n = 0› (Option.some.inj h)

theorem lt_of_mem_unlessZero {m n bound : Nat} (h : m ∈ unlessZero n) (hlt : n < bound) : m < bound := by
  rw [unlessZero] at h
  split at h
  · contradiction
  · exact Option.some.inj h ▸ hlt

theorem getD_unlessZero (n : Nat) : (unlessZero n).getD 0 = n := by
  rw [unlessZero]
  split
  · exact ‹n = 0›.symm
  · rfl

theorem isSome_unlessZero {n : Nat} : (unlessZero n).isSome ↔ n ≠ 0 := by
  rw [unlessZero]
  split <;> simp_all

theorem eq_none_of_getD {n : Option Nat} (h : n ≠ some 0) (hzero : n.getD 0 = 0) : n = none := by
  cases n with
  | none => rfl
  | some n => exact absurd (congrArg some hzero) h

theorem unlessZero_getD {n : Option Nat} (h : n ≠ some 0) : unlessZero (n.getD 0) = n := by
  cases n with
  | none => rfl
  | some n => exact if_neg fun hzero ↦ h (congrArg some hzero)

theorem secondsPart_eq {nanosecond : Nat} (h : nanosecond < 1000000000) (seconds : Nat) (only : Bool) :
    secondsPart seconds nanosecond only = secondsComponent
      (if seconds = 0 ∧ nanosecond = 0 ∧ only = false then none
      else some (seconds, fractionDigits nanosecond)) := by
  rw [secondsPart]
  by_cases hzero : nanosecond = 0
  · obtain rfl := hzero
    have hdigits : fractionDigits 0 = [] := by decide
    rw [if_neg (not_not_intro rfl), hdigits]
    by_cases hs : seconds = 0 <;> cases only <;> simp [hs, secondsComponent]
  · have hdigits : fractionDigits nanosecond ≠ [] := by
      intro hnil
      have hvalue := fractionNanoseconds_fractionDigits h
      rw [hnil] at hvalue
      exact hzero hvalue.symm
    obtain ⟨digit, rest, hdigits⟩ := List.exists_cons_of_ne_nil hdigits
    rw [if_pos hzero, if_neg (fun hand ↦ hzero hand.2.1), hdigits]
    simp [secondsComponent]

end Duration

/-- A length of time by days, hours, minutes, seconds and nanoseconds. -/
structure Parts where
  days : Nat
  hours : Nat
  minutes : Nat
  seconds : Nat
  nanosecond : Nat
  hours_lt : hours < 24
  minutes_lt : minutes < 60
  seconds_lt : seconds < 60
  nanosecond_lt : nanosecond < 1000000000

namespace Parts

open Components Duration

def total (p : Parts) : Nat :=
  p.days * 86400000000000 + p.hours * 3600000000000 + p.minutes * 60000000000 +
    (p.seconds * 1000000000 + p.nanosecond)

def ofTotal (total : Nat) : Parts where
  days := total / 1000000000 / 86400
  hours := total / 1000000000 / 3600 % 24
  minutes := total / 1000000000 / 60 % 60
  seconds := total / 1000000000 % 60
  nanosecond := total % 1000000000
  hours_lt := Nat.mod_lt _ (by decide)
  minutes_lt := Nat.mod_lt _ (by decide)
  seconds_lt := Nat.mod_lt _ (by decide)
  nanosecond_lt := Nat.mod_lt _ (by decide)

theorem total_ofTotal (n : Nat) : (ofTotal n).total = n := by
  simp only [total, ofTotal]
  omega

theorem ofTotal_total (p : Parts) : ofTotal p.total = p := by
  obtain ⟨days, hours, minutes, seconds, nanosecond, _, _, _, _⟩ := p
  simp only [ofTotal, total, mk.injEq]
  omega

theorem total_eq_zero {p : Parts} : p.total = 0 ↔
    p.days = 0 ∧ p.hours = 0 ∧ p.minutes = 0 ∧ p.seconds = 0 ∧ p.nanosecond = 0 := by
  rw [total]
  omega

/-- The components that are written for a length of time. -/
def components (negative : Bool) (p : Parts) : Components where
  negative := negative
  days := unlessZero p.days
  hours := unlessZero p.hours
  minutes := unlessZero p.minutes
  seconds :=
    if p.seconds = 0 ∧ p.nanosecond = 0 ∧ p.total ≠ 0 then none
    else some (p.seconds, fractionDigits p.nanosecond)

variable {negative : Bool} {p : Parts}

theorem seconds_of_total_eq_zero (h : p.total = 0) : (p.components negative).seconds = some (0, []) := by
  obtain ⟨-, -, -, hseconds, hnanosecond⟩ := total_eq_zero.1 h
  rw [components, if_neg fun hand ↦ hand.2.2 h, hseconds, hnanosecond]
  exact congrArg (fun digits ↦ some (0, digits)) (by decide)

theorem secondsNanoseconds_components :
    secondsNanoseconds (p.components negative).seconds = p.seconds * 1000000000 + p.nanosecond := by
  rw [components]
  split
  · rename_i hzero
    rw [hzero.1, hzero.2.1]
    rfl
  · rw [secondsNanoseconds, fractionNanoseconds_fractionDigits p.nanosecond_lt]

theorem magnitude_components : (p.components negative).magnitude = p.total := by
  rw [magnitude, secondsNanoseconds_components]
  simp only [components, getD_unlessZero]
  rfl

/-- Whether anything is left beside whole days. -/
def timed (p : Parts) : Bool :=
  p.hours ≠ 0 || p.minutes ≠ 0 || p.seconds ≠ 0 || p.nanosecond ≠ 0

theorem timed_iff : p.timed ↔
    p.hours ≠ 0 ∨ p.minutes ≠ 0 ∨ p.seconds ≠ 0 ∨ p.nanosecond ≠ 0 := by
  simp [timed, or_assoc]

/-- Where a time is written, it ends in the seconds unless they are zero and something is not. -/
theorem secondsComponent_components (h : p.timed ∨ p.days = 0) :
    secondsComponent (p.components negative).seconds =
      secondsPart p.seconds p.nanosecond (!p.timed) := by
  have hzero : p.total ≠ 0 ↔ (!p.timed) = false := by
    rw [Bool.not_eq_false', ne_eq, total_eq_zero]
    rw [timed_iff] at h ⊢
    omega
  rw [secondsPart_eq p.nanosecond_lt, components]
  simp only [hzero]

theorem hasTime_components : (p.components negative).hasTime ↔ p.timed ∨ p.days = 0 := by
  have hseconds : (p.components negative).seconds.isSome ↔
      p.seconds ≠ 0 ∨ p.nanosecond ≠ 0 ∨ p.total = 0 := by
    rw [components]
    split
    · rename_i hnone
      simp [hnone]
    · rename_i hsome
      simp only [Option.isSome_some, true_iff]
      omega
  rw [hasTime, Bool.or_eq_true, Bool.or_eq_true, hseconds, total_eq_zero, timed_iff]
  simp only [components, isSome_unlessZero]
  omega

/-- The text of a length of time: what is zero is left out, and the time where nothing of it is left,
unless nothing else is. -/
theorem chars_components (negative : Bool) (p : Parts) : (p.components negative).chars =
    (if negative then ['-'] else []) ++ 'P' :: part p.days 'D' ++
      if p.timed || p.days = 0 then
        'T' :: part p.hours 'H' ++ part p.minutes 'M' ++ secondsPart p.seconds p.nanosecond (!p.timed)
      else [] := by
  have htime : (p.components negative).hasTime = (p.timed || p.days = 0) := by
    rw [Bool.eq_iff_iff, hasTime_components, Bool.or_eq_true, decide_eq_true_eq]
  rw [Components.chars, htime, part_eq, part_eq, part_eq, List.append_assoc]
  cases hwritten : (p.timed || p.days = 0) with
  | false => rfl
  | true =>
    rw [Bool.or_eq_true, decide_eq_true_eq] at hwritten
    rw [← secondsComponent_components hwritten]
    simp only [List.cons_append, List.append_assoc, if_true]
    rfl

/-- Seconds are written where they are not zero, or where the whole length is. -/
theorem of_mem_seconds {s : Nat × List Char} (hs : s ∈ (p.components negative).seconds) :
    s = (p.seconds, fractionDigits p.nanosecond) ∧
      (p.seconds ≠ 0 ∨ p.nanosecond ≠ 0 ∨ p.total = 0) := by
  rw [components] at hs
  split at hs
  · contradiction
  · refine ⟨(Option.some.inj hs).symm, ?_⟩
    omega

theorem components_of_total_eq_zero (h : p.total = 0) : p.components false = zero := by
  obtain ⟨hdays, hhours, hminutes, -, -⟩ := total_eq_zero.1 h
  change Components.mk false (unlessZero p.days) (unlessZero p.hours) (unlessZero p.minutes)
    (p.components false).seconds = zero
  rw [seconds_of_total_eq_zero h, hdays, hhours, hminutes]
  rfl

theorem total_eq_zero_of_seconds (h : (p.components negative).seconds = some (0, [])) : p.total = 0 := by
  obtain ⟨heq, hor⟩ := of_mem_seconds h
  obtain ⟨hzero, hdigits⟩ := Prod.mk.inj heq
  have hnanosecond := fractionNanoseconds_fractionDigits p.nanosecond_lt
  rw [← hdigits] at hnanosecond
  have hnil : fractionNanoseconds [] = 0 := rfl
  omega

theorem isCanonical_components (h : negative = true → p.total ≠ 0) :
    (p.components negative).IsCanonical where
  some_component := by
    have hdays : (p.components negative).days.isSome ↔ p.days ≠ 0 := isSome_unlessZero
    rw [hasTime_components, hdays]
    omega
  days_ne_zero := unlessZero_ne _
  hours_ne_zero := unlessZero_ne _
  hours_lt _ hn := lt_of_mem_unlessZero hn p.hours_lt
  minutes_ne_zero := unlessZero_ne _
  minutes_lt _ hn := lt_of_mem_unlessZero hn p.minutes_lt
  seconds_lt s hs := by
    rw [(of_mem_seconds hs).1]
    exact p.seconds_lt
  seconds_zero hs := by
    have htotal := total_eq_zero_of_seconds hs
    obtain rfl : negative = false := Bool.eq_false_iff.2 fun hnegative ↦ h hnegative htotal
    exact components_of_total_eq_zero htotal
  fraction s hs := by
    rw [(of_mem_seconds hs).1]
    exact isFraction_fractionDigits p.nanosecond_lt

end Parts

namespace Components

open Duration Parts

theorem getD_of_forall {α : Type} {p : α → Prop} {o : Option α} (h : ∀ a ∈ o, p a) {other : α}
    (hother : p other) : p (o.getD other) := by
  cases o with
  | none => exact hother
  | some a => exact h a rfl

variable {c : Components} (h : c.IsCanonical)
include h

theorem IsCanonical.isFraction : IsFraction (c.seconds.getD (0, [])).2 :=
  getD_of_forall h.fraction ⟨List.forall_mem_nil _, by decide, by decide⟩

/-- The length of time that canonical components have. -/
def IsCanonical.parts : Parts where
  days := c.days.getD 0
  hours := c.hours.getD 0
  minutes := c.minutes.getD 0
  seconds := (c.seconds.getD (0, [])).1
  nanosecond := fractionNanoseconds (c.seconds.getD (0, [])).2
  hours_lt := getD_of_forall h.hours_lt (by decide)
  minutes_lt := getD_of_forall h.minutes_lt (by decide)
  seconds_lt := getD_of_forall (p := fun s : Nat × List Char ↦ s.1 < 60) h.seconds_lt (by decide)
  nanosecond_lt := (fractionNanoseconds_lt_and_digits h.isFraction).1

theorem IsCanonical.total_ne_zero (hc : c.seconds = none) : h.parts.total ≠ 0 := by
  intro htotal
  obtain ⟨hdays, hhours, hminutes, -, -⟩ := total_eq_zero.1 htotal
  have hsome := h.some_component
  rw [hasTime, hc, eq_none_of_getD h.days_ne_zero hdays, eq_none_of_getD h.hours_ne_zero hhours,
    eq_none_of_getD h.minutes_ne_zero hminutes] at hsome
  simp at hsome

theorem IsCanonical.total_eq_zero {s : Nat × List Char} (hc : c.seconds = some s) (hwhole : s.1 = 0)
    (hfraction : fractionNanoseconds s.2 = 0) : h.parts.total = 0 := by
  have hnil : s.2 = [] := by
    by_contra hne
    have hpos := fractionNanoseconds_pos (h.fraction s hc) hne
    exact absurd hfraction (Nat.ne_of_gt hpos)
  have hs : s = (0, []) := Prod.ext hwhole hnil
  obtain rfl := h.seconds_zero (hs ▸ hc)
  exact Parts.total_eq_zero.2 ⟨rfl, rfl, rfl, rfl, rfl⟩

theorem IsCanonical.seconds_parts (negative : Bool) :
    (h.parts.components negative).seconds = c.seconds := by
  change (if (c.seconds.getD (0, [])).1 = 0 ∧ fractionNanoseconds (c.seconds.getD (0, [])).2 = 0 ∧
    h.parts.total ≠ 0 then none else some ((c.seconds.getD (0, [])).1,
      fractionDigits (fractionNanoseconds (c.seconds.getD (0, [])).2))) = c.seconds
  rw [fractionDigits_fractionNanoseconds h.isFraction]
  cases hc : c.seconds with
  | none => exact if_pos ⟨rfl, rfl, h.total_ne_zero hc⟩
  | some s => exact if_neg fun ⟨hwhole, hzero, htotal⟩ ↦ htotal (h.total_eq_zero hc hwhole hzero)

/-- Canonical components are those of their length of time. -/
theorem IsCanonical.components_parts : h.parts.components c.negative = c := by
  change Components.mk c.negative (unlessZero (c.days.getD 0)) (unlessZero (c.hours.getD 0))
    (unlessZero (c.minutes.getD 0)) (h.parts.components c.negative).seconds = c
  rw [h.seconds_parts, unlessZero_getD h.days_ne_zero, unlessZero_getD h.hours_ne_zero,
    unlessZero_getD h.minutes_ne_zero]

end Components

namespace Duration

open Components

/-- The components that a duration is written with. -/
def components (d : Duration) : Components :=
  (Parts.ofTotal d.nanoseconds.natAbs).components (d.nanoseconds < 0)

theorem chars_components (d : Duration) : d.components.chars = d.chars := by
  rw [components, Parts.chars_components]
  simp only [decide_eq_true_eq]
  rfl

theorem nanoseconds_of_magnitude {c : Components} {d : Duration} (hc : c.magnitude = d.nanoseconds.natAbs)
    (hn : c.negative = true ↔ d.nanoseconds < 0) : c.nanoseconds = d.nanoseconds := by
  rw [Components.nanoseconds, hc]
  split
  · have hlt := hn.1 ‹_›
    omega
  · have hlt := mt hn.2 ‹_›
    omega

theorem nanoseconds_components (d : Duration) : d.components.nanoseconds = d.nanoseconds := by
  refine nanoseconds_of_magnitude ?_ decide_eq_true_iff
  rw [components, Parts.magnitude_components, Parts.total_ofTotal]

theorem isCanonical_components (d : Duration) : d.components.IsCanonical := by
  refine Parts.isCanonical_components fun hnegative ↦ ?_
  rw [Parts.total_ofTotal]
  have hlt := of_decide_eq_true hnegative
  omega

/-- Canonical components are those of the duration that they sum up to. -/
theorem components_of_isCanonical {c : Components} (h : c.IsCanonical) :
    components ⟨c.nanoseconds⟩ = c := by
  have hp := h.components_parts
  have hmagnitude : c.magnitude = h.parts.total := by
    rw [← Parts.magnitude_components, hp]
  have hpos : c.negative = true → h.parts.total ≠ 0 := by
    intro hnegative htotal
    have hseconds : (h.parts.components c.negative).seconds = some (0, []) :=
      Parts.seconds_of_total_eq_zero htotal
    rw [hp] at hseconds
    rw [h.seconds_zero hseconds] at hnegative
    contradiction
  have habs : c.nanoseconds.natAbs = h.parts.total := by
    rw [Components.nanoseconds, hmagnitude]
    split <;> omega
  have hnegative : decide (c.nanoseconds < 0) = c.negative := by
    rw [Components.nanoseconds, hmagnitude]
    cases hc : c.negative with
    | false => exact decide_eq_false (by simp)
    | true =>
      have htotal := hpos hc
      exact decide_eq_true (by simp only [if_true]; omega)
  rw [components, hnegative, habs, Parts.ofTotal_total, hp]

/-- The text of a duration is the text of components: they are canonical, they are what is read from the
text, the sign stands for durations below zero only, and their sum under it is the duration to the
nanosecond. No other canonical components have that sum. -/
theorem exists_canonical_components (d : Duration) :
    ∃ c : Components, c.IsCanonical ∧ c.chars = d.chars ∧ Components.ofChars? d.chars = some c ∧
      c.nanoseconds = d.nanoseconds ∧ (c.negative = true ↔ d.nanoseconds < 0) ∧
      ∀ c' : Components, c'.IsCanonical → c'.nanoseconds = d.nanoseconds → c' = c := by
  have hchars := d.chars_components
  refine ⟨d.components, d.isCanonical_components, hchars, ?_, d.nanoseconds_components,
    decide_eq_true_iff, fun c' hc' hsum ↦ ?_⟩
  · rw [← hchars, ofChars?_chars d.isCanonical_components]
  · rw [← components_of_isCanonical hc', hsum]

/-- A day and a second and a half, backwards: in floored seconds the fraction is borrowed from. -/
theorem exists_canonical_components_backwards : ∃ c : Components, c.IsCanonical ∧
    c.chars = "-P1DT1.5S".toList ∧ Components.ofChars? "-P1DT1.5S".toList = some c ∧
      c.nanoseconds = -86401500000000 ∧
      ∀ c' : Components, c'.IsCanonical → c'.nanoseconds = -86401500000000 → c' = c := by
  have htext : Duration.chars (.ofSeconds (-86402) 500000000) = "-P1DT1.5S".toList := by decide +kernel
  obtain ⟨c, hc, hchars, hread, hsum, -, hunique⟩ :=
    exists_canonical_components (.ofSeconds (-86402) 500000000)
  rw [htext] at hchars hread
  exact ⟨c, hc, hchars, hread, hsum, hunique⟩

end Duration
end OData.Calendar
