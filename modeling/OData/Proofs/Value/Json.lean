import OData.Value.Json

/-!
Values and the JSON of the newer dialect. A value comes back from its JSON just where JSON can tell its
type: null, booleans, strings and finite doubles, integers of the narrower type that holds them, and
collections and records of such values.
-/

namespace OData.Value

/-- Values that JSON has a form of its own for. -/
inductive Expressible : Value → Prop
  | null : Expressible .null
  | boolean (b : Bool) : Expressible (.boolean b)
  | int32 (n : Int32) : Expressible (.int32 n)
  | int64 {n : Int64} (h : n.toInt < Int32.minValue.toInt ∨ Int32.maxValue.toInt < n.toInt) :
    Expressible (.int64 n)
  | double {x : Number.Double} (h : x.isFinite) : Expressible (.double x)
  | string (s : String) : Expressible (.string s)
  | collection {items : List Value} (h : ∀ item ∈ items, Expressible item) :
    Expressible (.collection items)
  | record {fields : List (String × Value)} (h : ∀ m ∈ fields, Expressible m.2) :
    Expressible (.record fields)

theorem ofInteger_toInt_eq_iff (n : Int64) : ofInteger n.toInt = int64 n ↔
    n.toInt < Int32.minValue.toInt ∨ Int32.maxValue.toInt < n.toInt := by
  rw [ofInteger]
  by_cases h : Int32.minValue.toInt ≤ n.toInt ∧ n.toInt ≤ Int32.maxValue.toInt
  · have hne : int32 (Int32.ofInt n.toInt) ≠ int64 n := by
      intro heq
      cases heq
    rw [if_pos h]
    exact iff_of_false hne (by omega)
  · rw [if_neg h, if_pos ⟨n.minValue_le_toInt, n.toInt_le⟩, Int64.ofInt_toInt]
    exact iff_of_true rfl (by omega)

theorem ofJson_realJson (x : Number.Double) :
    ofJson (realJson x) = if x.isFinite then double x else null := by
  rw [realJson]
  split <;> rfl

theorem itemsOfJson_itemsToJson {items : List Value}
    (h : ∀ item ∈ items, ofJson (item.toJson .v4) = item) :
    itemsOfJson (itemsToJson .v4 items) = items := by
  induction items with
  | nil => rfl
  | cons item rest ih =>
    obtain ⟨hitem, hrest⟩ := List.forall_mem_cons.1 h
    rw [itemsToJson, itemsOfJson, hitem, ih hrest]

theorem fieldsOfJson_fieldsToJson {fields : List (String × Value)}
    (h : ∀ m ∈ fields, ofJson (m.2.toJson .v4) = m.2) :
    fieldsOfJson (fieldsToJson .v4 fields) = fields := by
  induction fields with
  | nil => rfl
  | cons m rest ih =>
    obtain ⟨name, v⟩ := m
    obtain ⟨(hv : ofJson (v.toJson .v4) = v), hrest⟩ := List.forall_mem_cons.1 h
    rw [fieldsToJson, fieldsOfJson, hv, ih hrest]

theorem Expressible.ofJson_toJson {v : Value} (h : Expressible v) : ofJson (v.toJson .v4) = v := by
  induction h with
  | null => rfl
  | boolean b => rfl
  | int32 n => exact ofInteger_toInt n
  | int64 h => exact (ofInteger_toInt_eq_iff _).2 h
  | double h =>
    rw [toJson, ofJson_realJson]
    exact if_pos h
  | string s => rfl
  | collection _ ih =>
    rw [toJson, ofJson, itemsOfJson_itemsToJson ih]
  | record _ ih =>
    rw [toJson, ofJson, fieldsOfJson_fieldsToJson ih]

mutual

theorem expressible_of_eq {v : Value} (h : ofJson (v.toJson .v4) = v) : Expressible v := by
  cases v with
  | null => exact .null
  | boolean b => exact .boolean b
  | int32 n => exact .int32 n
  | int64 n => exact .int64 ((ofInteger_toInt_eq_iff n).1 h)
  | decimal d =>
    rw [toJson, ofJson_realJson] at h
    split at h <;> contradiction
  | single x =>
    rw [toJson, ofJson_realJson] at h
    split at h <;> contradiction
  | double x =>
    rw [toJson, ofJson_realJson] at h
    split at h
    · exact .double ‹_›
    · contradiction
  | string s => exact .string s
  | collection items =>
    rw [toJson, ofJson] at h
    exact .collection (expressible_of_items (collection.inj h))
  | record fields =>
    rw [toJson, ofJson] at h
    exact .record (expressible_of_fields (record.inj h))
  | guid | dateTime | dateTimeOffset | date | timeOfDay | duration | binary | range => contradiction

theorem expressible_of_items {items : List Value}
    (h : itemsOfJson (itemsToJson .v4 items) = items) : ∀ item ∈ items, Expressible item := by
  cases items with
  | nil => exact List.forall_mem_nil _
  | cons item rest =>
    rw [itemsToJson, itemsOfJson] at h
    obtain ⟨hitem, hrest⟩ := List.cons.inj h
    exact List.forall_mem_cons.2 ⟨expressible_of_eq hitem, expressible_of_items hrest⟩

theorem expressible_of_fields {fields : List (String × Value)}
    (h : fieldsOfJson (fieldsToJson .v4 fields) = fields) : ∀ m ∈ fields, Expressible m.2 := by
  cases fields with
  | nil => exact List.forall_mem_nil _
  | cons m rest =>
    obtain ⟨name, v⟩ := m
    rw [fieldsToJson, fieldsOfJson] at h
    obtain ⟨hm, hrest⟩ := List.cons.inj h
    exact List.forall_mem_cons.2
      ⟨expressible_of_eq (Prod.mk.inj hm).2, expressible_of_fields hrest⟩

end

/-- A value is what is read from its own JSON, with the same types, order and names at any depth, exactly if
JSON can express it. Of the others a decimal and a single come back as doubles, an integer of the wider
type as one of the narrower, a range as a collection, what is no number as null, and the rest as text. -/
theorem ofJson_toJson_eq_iff (v : Value) : ofJson (v.toJson .v4) = v ↔ Expressible v :=
  ⟨expressible_of_eq, Expressible.ofJson_toJson⟩

end OData.Value
