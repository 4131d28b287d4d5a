import OData.Proofs.Calendar.Moment
import OData.Proofs.Number.Integer
import OData.Proofs.Response.Part

/-!
Which strings are dates in verbose JSON. A string of the date form, whose number of milliseconds is kept and
whose offset is less than a day, is read as the moment it denotes, and any other string stays as it is; so
do the strings within arrays, at any depth.
-/

namespace OData

/-- The item at a position within arrays of arrays. -/
def Json.item? : List Nat → Json → Option Json
  | [], v => some v
  | i :: path, .array items => items[i]?.bind (item? path)
  | _ :: _, _ => none

/-- The item at a position within collections of collections. -/
def Value.item? : List Nat → Value → Option Value
  | [], v => some v
  | i :: path, .collection items => items[i]?.bind (item? path)
  | _ :: _, _ => none

namespace VerboseDate

open Calendar (DateTime)
open Number (IsInteger)

/-- Milliseconds from the start of 1970, below zero with a minus sign, of the years that dates are kept
for. -/
structure IsCount (cs : List Char) (millis : Int) : Prop where
  integer : IsInteger cs millis
  unsigned : cs.head? ≠ some '+'
  kept : DateTime.firstMillis ≤ millis ∧ millis ≤ DateTime.lastMillis

/-- Four digits of minutes, less than a day's. -/
structure IsMinutes (digits : List Char) : Prop where
  isDigit : ∀ c ∈ digits, c.isDigit
  length : digits.length = 4
  lt : Text.digitsValue digits < 1440

/-- Minutes ahead of universal time with a plus sign, or behind it with a minus sign. -/
inductive IsOffset : List Char → Int → Prop
  | ahead {digits : List Char} (h : IsMinutes digits) :
    IsOffset ('+' :: digits) (Text.digitsValue digits)
  | behind {digits : List Char} (h : IsMinutes digits) :
    IsOffset ('-' :: digits) (-(Text.digitsValue digits : Int))

/-- The strings of the date form, with what they count. -/
inductive IsDate : List Char → Int → Option Int → Prop
  | utc {count : List Char} {millis : Int} (h : IsCount count millis) :
    IsDate ("/Date(".toList ++ (count ++ ")/".toList)) millis none
  | offset {count zone : List Char} {millis minutes : Int} (h : IsCount count millis)
    (hzone : IsOffset zone minutes) :
    IsDate ("/Date(".toList ++ (count ++ (zone ++ ")/".toList))) millis (some minutes)

/-- The values that stand for a moment, at an offset if there is one. -/
inductive Shows : Value → Int → Option Int → Prop
  | utc {d : DateTime} {millis : Int} (h : d.IsAt millis) : Shows (.dateTime d) millis none
  | offset {d : Calendar.OffsetDateTime} {millis minutes : Int} (h : d.IsAt millis)
    (hoffset : d.offset = minutes * 60) : Shows (.dateTimeOffset d) millis (some minutes)

/-- A string is read as the moment that it denotes, or stays as it is. -/
structure ReadAs (s : String) (v : Value) : Prop where
  moment : ∀ millis minutes, IsDate s.toList millis minutes → Shows v millis minutes
  text : (∀ millis minutes, ¬ IsDate s.toList millis minutes) → v = .string s

variable {s : String} {v w : Value} {cs rest count zone : List Char} {millis minutes : Int}

theorem IsDate.head?_eq {offset : Option Int} (h : IsDate cs millis offset) : cs.head? = some '/' := by
  cases h <;> rfl

/-- There is one value for a moment. -/
theorem Shows.eq {offset : Option Int} (hv : Shows v millis offset) (hw : Shows w millis offset) :
    v = w := by
  cases hv with
  | utc hd =>
    cases hw with
    | utc he => rw [hd.eq he]
  | @offset d _ _ hd hdoffset =>
    cases hw with
    | @offset e _ _ he heoffset =>
      obtain ⟨date, time, offset⟩ := d
      obtain ⟨date', time', offset'⟩ := e
      obtain rfl : offset = offset' := hdoffset.trans heoffset.symm
      obtain ⟨rfl, rfl⟩ := DateTime.mk.inj (hd.isAt.eq he.isAt)
      rfl

/-! ### Milliseconds and minutes -/

theorem readMillis?_append (h : IsInteger count millis) (hunsigned : count.head? ≠ some '+')
    (hrest : ∀ c ∈ rest.head?, c.isDigit = false) :
    readMillis? (count ++ rest) = some (millis, rest) := by
  cases h with
  | @unsigned digits hdigits hne =>
    obtain ⟨c, digits, rfl⟩ := List.exists_cons_of_ne_nil hne
    have hsign := (Number.ne_signs_of_isDigit (hdigits c List.mem_cons_self)).2
    have hspan := Text.spanDigits_append hdigits hrest
    rw [List.cons_append] at hspan ⊢
    simp [readMillis?, hsign, hspan]
  | plus hdigits hne => exact absurd rfl hunsigned
  | @minus digits hdigits hne =>
    obtain ⟨c, digits, rfl⟩ := List.exists_cons_of_ne_nil hne
    have hspan := Text.spanDigits_append hdigits hrest
    rw [List.cons_append] at hspan ⊢
    simp [readMillis?, hspan]

theorem eq_append_of_readMillis? (h : readMillis? cs = some (millis, rest)) :
    ∃ count, cs = count ++ rest ∧ IsInteger count millis ∧ count.head? ≠ some '+' := by
  unfold readMillis? at h
  split at h
  rename_i negative digits hsign
  split at h
  · contradiction
  · rename_i ds after hne hspan
    obtain ⟨rfl, rfl⟩ := Prod.mk.inj (Option.some.inj h)
    obtain ⟨htake, hdrop⟩ := Prod.mk.inj hspan
    have hdigits : ∀ c ∈ ds, c.isDigit := htake ▸ List.all_eq_true.1 List.all_takeWhile
    have happend : digits = ds ++ after := by
      rw [← htake, ← hdrop, List.takeWhile_append_dropWhile]
    split at hsign
    · obtain ⟨rfl, rfl⟩ := Prod.mk.inj hsign
      exact ⟨'-' :: ds, by rw [happend, List.cons_append], .minus hdigits hne, by simp⟩
    · obtain ⟨rfl, rfl⟩ := Prod.mk.inj hsign
      refine ⟨ds, happend, .unsigned hdigits hne, fun hplus ↦ ?_⟩
      exact absurd (hdigits _ (List.mem_of_head? hplus)) (by decide)

theorem IsMinutes.exists_eq {digits : List Char} (h : IsMinutes digits) :
    ∃ a b c d, digits = [a, b, c, d] := by
  obtain ⟨-, hlength, -⟩ := h
  rcases digits with _ | ⟨a, _ | ⟨b, _ | ⟨c, _ | ⟨d, _ | ⟨e, digits⟩⟩⟩⟩⟩
  case cons.cons.cons.cons.nil => exact ⟨a, b, c, d, rfl⟩
  all_goals simp at hlength

/-- Four digits behind a sign are read whatever follows them. -/
theorem readMinutes?_append (h : IsOffset zone minutes) :
    readMinutes? (zone ++ rest) = some (minutes, rest) := by
  cases h with
  | ahead h =>
    obtain ⟨a, b, c, d, rfl⟩ := h.exists_eq
    simp [readMinutes?, h.lt, h.isDigit]
  | behind h =>
    obtain ⟨a, b, c, d, rfl⟩ := h.exists_eq
    simp [readMinutes?, h.lt, h.isDigit]

theorem eq_append_of_readMinutes? (h : readMinutes? cs = some (minutes, rest)) :
    ∃ zone, cs = zone ++ rest ∧ IsOffset zone minutes := by
  unfold readMinutes? at h
  split at h
  · rename_i sign a b c d after
    dsimp only at h
    split at h
    · rename_i hzone
      obtain ⟨hsign, hdigits, hlt⟩ := hzone
      have hminutes : IsMinutes [a, b, c, d] := ⟨List.all_eq_true.1 hdigits, rfl, hlt⟩
      obtain ⟨rfl, rfl⟩ := Prod.mk.inj (Option.some.inj h)
      rcases hsign with rfl | rfl
      · exact ⟨'+' :: [a, b, c, d], rfl, .ahead hminutes⟩
      · exact ⟨'-' :: [a, b, c, d], rfl, .behind hminutes⟩
    · contradiction
  · contradiction

/-! ### Strings -/

/-- Behind the number of milliseconds stands the end of a date or its offset. -/
theorem ofString?_append (hcount : IsCount count millis) (hrest : ∀ c ∈ rest.head?, c.isDigit = false)
    (hs : s.toList = "/Date(".toList ++ (count ++ rest)) :
    ∃ d : DateTime, d.IsAt millis ∧
      ofString? s = if rest = ")/".toList then some (.dateTime d)
        else (readMinutes? rest).bind fun zone ↦
          if zone.2 = ")/".toList then some (.dateTimeOffset (d.toOffset (zone.1 * 60))) else none := by
  obtain ⟨hinteger, hunsigned, hkept⟩ := hcount
  have hat := DateTime.isAt_ofUnixMillis millis
  have hd := DateTime.ofUnixMillis?_eq_some_iff.2 ⟨hat, hkept⟩
  refine ⟨_, hat, ?_⟩
  rw [ofString?, hs, Text.afterPrefix?_append, Option.bind_eq_bind, Option.bind_some,
    readMillis?_append hinteger hunsigned hrest, Option.bind_eq_bind, Option.bind_some]
  dsimp only
  rw [hd, Option.bind_eq_bind, Option.bind_some]
  refine if_congr Iff.rfl rfl ?_
  cases readMinutes? rest with
  | none => rfl
  | some zone =>
    rw [Option.bind_eq_bind, Option.bind_some, Option.bind_some]
    by_cases hend : zone.2 = ")/".toList
    · rw [if_pos hend, guard, if_pos hend]
      rfl
    · rw [if_neg hend, guard, if_neg hend]
      rfl

/-- A string of the date form is read as the moment it denotes. -/
theorem exists_ofString? {offset : Option Int} (h : IsDate s.toList millis offset) :
    ∃ v, ofString? s = some v ∧ Shows v millis offset := by
  generalize hs : s.toList = cs at h
  cases h with
  | utc hcount =>
    obtain ⟨d, hd, hread⟩ := ofString?_append hcount (by simp) hs
    exact ⟨_, by rw [hread, if_pos rfl], .utc hd⟩
  | @offset count zone _ minutes hcount hzone =>
    have hhead : (∀ c ∈ (zone ++ ")/".toList).head?, c.isDigit = false) ∧
        zone ++ ")/".toList ≠ ")/".toList := by
      cases hzone <;> simp
    obtain ⟨d, hd, hread⟩ := ofString?_append hcount hhead.1 hs
    rw [if_neg hhead.2, readMinutes?_append hzone, Option.bind_some, if_pos rfl] at hread
    obtain ⟨hoffset, hat⟩ := hd.toOffset (minutes * 60)
    exact ⟨_, hread, .offset hat hoffset⟩

/-- A string that is read as a moment is of the date form. -/
theorem exists_isDate_of_ofString? (h : ofString? s = some v) :
    ∃ millis offset, IsDate s.toList millis offset := by
  rw [ofString?] at h
  obtain ⟨cs, hcs, hcount⟩ := Option.bind_eq_some_iff.1 h
  obtain ⟨⟨millis, rest⟩, hmillis, hmoment⟩ := Option.bind_eq_some_iff.1 hcount
  obtain ⟨d, hd, hzone⟩ := Option.bind_eq_some_iff.1 hmoment
  have hkept := (DateTime.ofUnixMillis?_eq_some_iff.1 hd).2
  obtain ⟨count, rfl, hinteger, hunsigned⟩ := eq_append_of_readMillis? hmillis
  rw [Text.eq_append_of_afterPrefix? hcs]
  by_cases hrest : rest = ")/".toList
  · rw [hrest]
    exact ⟨_, _, .utc ⟨hinteger, hunsigned, hkept⟩⟩
  · rw [if_neg hrest] at hzone
    obtain ⟨⟨minutes, after⟩, hminutes, hend⟩ := Option.bind_eq_some_iff.1 hzone
    obtain ⟨zone, rfl, hoffset⟩ := eq_append_of_readMinutes? hminutes
    obtain ⟨_, hguard, -⟩ := Option.bind_eq_some_iff.1 hend
    obtain rfl := (Option.guard_eq_some' ()).1 hguard
    exact ⟨_, _, .offset ⟨hinteger, hunsigned, hkept⟩ hoffset⟩

theorem readAs_ofField (s : String) : ReadAs s (ofField (.string s)) := by
  rw [ofField]
  cases hread : ofString? s with
  | none =>
    refine ⟨fun millis minutes hdate ↦ ?_, fun _ ↦ rfl⟩
    obtain ⟨v, hv, -⟩ := exists_ofString? hdate
    rw [hread] at hv
    contradiction
  | some v =>
    refine ⟨fun millis minutes hdate ↦ ?_, fun htext ↦ ?_⟩
    · obtain ⟨w, hw, hshows⟩ := exists_ofString? hdate
      obtain rfl := Option.some.inj (hread.symm.trans hw)
      exact hshows
    · obtain ⟨millis, minutes, hdate⟩ := exists_isDate_of_ofString? hread
      exact absurd hdate (htext millis minutes)

/-! ### Arrays -/

variable {v : Json}

/-- Only an array is read as a collection. -/
theorem item?_ofField_cons (h : v.isArray = false) (i : Nat) (path : List Nat) :
    (ofField v).item? (i :: path) = none := by
  cases v with
  | array items => contradiction
  | integer n =>
    rw [ofField, Value.ofJson, Value.ofInteger]
    · split
      · rfl
      · split <;> rfl
    all_goals
      intro _ hforms
      contradiction
  | string s =>
    rw [ofField]
    cases hread : ofString? s with
    | none => rfl
    | some v =>
      obtain ⟨millis, offset, hdate⟩ := exists_isDate_of_ofString? hread
      obtain ⟨w, hw, hshows⟩ := exists_ofString? hdate
      obtain rfl := Option.some.inj (hread.symm.trans hw)
      cases hshows <;> rfl
  | _ => rfl

/-- The items of an array are read as fields are. -/
theorem item?_ofField (path : List Nat) (v : Json) :
    (ofField v).item? path = (v.item? path).map ofField := by
  induction path generalizing v with
  | nil => rfl
  | cons i path ih =>
    cases v with
    | array items =>
      rw [ofField, ofItems_eq_map, Value.item?, Json.item?, List.getElem?_map]
      cases items[i]? with
      | none => rfl
      | some item => exact ih item
    | _ => exact item?_ofField_cons rfl i path

end VerboseDate

namespace OfJson

variable {name : String} {v : Json}

theorem isObject_of_item? {path : List Nat} {s : String} (h : v.item? path = some (.string s)) :
    v.isObject = false := by
  cases v with
  | object members =>
    cases path with
    | nil =>
      have hne := Option.some.inj h
      contradiction
    | cons i path => contradiction
  | _ => rfl

/-- What a string stands in is no link. -/
theorem expansion?_eq_none {path : List Nat} {s : String} (h : v.item? path = some (.string s))
    (annotated : List (List Char)) : expansion? annotated name v = none := by
  cases path with
  | nil =>
    obtain rfl := Option.some.inj h
    rfl
  | cons i path =>
    cases v with
    | array items =>
      obtain ⟨item, hget, hrest⟩ := Option.bind_eq_some_iff.1 h
      have hplain : item.isObject = false := isObject_of_item? hrest
      have hall : items.all Json.isObject = false :=
        List.all_eq_false.2 ⟨item, List.mem_of_getElem? hget, by simp [hplain]⟩
      simp [expansion?, hall]
    | _ => contradiction

theorem memberSignals_of_item? {path : List Nat} {s : String} (hrole : roleOf name = .property)
    (h : v.item? path = some (.string s)) (annotated : List (List Char)) :
    memberSignals annotated name v = [.event (.field name (VerboseDate.ofField v))] := by
  have hpart : memberPart? annotated name v = none := by
    rw [memberPart?, hrole]
    exact expansion?_eq_none h annotated
  have hplain : plainItems name v = [.field name (VerboseDate.ofField v)] := by
    unfold plainItems
    rw [hrole]
    have hobject := isObject_of_item? h
    cases v with
    | object members => contradiction
    | _ => rfl
  rw [memberSignals_of_none hpart, hplain]
  rfl

/-- A string in a field, by itself or in arrays of arrays, is read as the moment that it denotes, or stays as
it is. -/
theorem exists_field_readAs {path : List Nat} {s : String} (annotated : List (List Char))
    (hrole : roleOf name = .property) (hitem : v.item? path = some (.string s)) :
    ∃ w u, memberSignals annotated name v = [.event (.field name w)] ∧ w.item? path = some u ∧
      VerboseDate.ReadAs s u := by
  refine ⟨_, _, memberSignals_of_item? hrole hitem annotated, ?_, VerboseDate.readAs_ofField s⟩
  rw [VerboseDate.item?_ofField, hitem, Option.map_some]

theorem field_readAs_nested :
    VerboseDate.IsDate "/Date(-1500-0060)/".toList (-1500) (some (-60)) ∧ roleOf "When" = .property ∧
      Json.item? [1, 0] (.array [.null, .array [.string "/Date(-1500-0060)/"]]) =
        some (.string "/Date(-1500-0060)/") ∧
      ∃ w u, memberSignals [] "When" (.array [.null, .array [.string "/Date(-1500-0060)/"]]) =
          [.event (.field "When" w)] ∧
        w.item? [1, 0] = some u ∧ VerboseDate.ReadAs "/Date(-1500-0060)/" u := by
  have hdigits : ∀ c ∈ "1500".toList, c.isDigit := List.all_eq_true.1 (by decide)
  have hzeros : ∀ c ∈ "0060".toList, c.isDigit := List.all_eq_true.1 (by decide)
  have hcount : VerboseDate.IsCount "-1500".toList (-1500) :=
    ⟨.minus hdigits (by decide), by decide, by decide⟩
  have hzone : VerboseDate.IsOffset "-0060".toList (-60) := .behind ⟨hzeros, rfl, by decide⟩
  have hrole : roleOf "When" = .property := by decide
  have hitem : Json.item? [1, 0] (.array [.null, .array [.string "/Date(-1500-0060)/"]]) =
      some (.string "/Date(-1500-0060)/") := rfl
  exact ⟨.offset hcount hzone, hrole, hitem, exists_field_readAs [] hrole hitem⟩

end OfJson
end OData
