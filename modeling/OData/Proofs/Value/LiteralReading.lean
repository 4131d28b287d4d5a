import OData.Proofs.Address.Key
import OData.Proofs.Calendar.Duration
import OData.Proofs.Text.Base64

/-!
Literals read back. Quotes tell strings, and the types with a word in front of their quotes; what has no
quotes is a name, an identifier or an integer. So literals tell values and types apart, but for the two
integer types, which the newer dialect writes alike.
-/

namespace OData

namespace Value

/-- The types of which a literal leaves nothing out. Those with a point or a calendar are others. -/
def hasExactLiteral : Value → Bool
  | null | boolean _ | int32 _ | int64 _ | string _ | guid _ | duration _ | binary _ => true
  | _ => false

/-- An integer of each of the two types, and equal numbers. -/
inductive SameInteger : Value → Value → Prop
  | widened {n : Int32} {m : Int64} (h : n.toInt = m.toInt) : SameInteger (int32 n) (int64 m)
  | narrowed {n : Int32} {m : Int64} (h : n.toInt = m.toInt) : SameInteger (int64 m) (int32 n)

theorem ofInteger_toInt64 (n : Int64) : ofInteger n.toInt = int64 n ∨
    ∃ m : Int32, m.toInt = n.toInt ∧ ofInteger n.toInt = int32 m := by
  rw [ofInteger]
  split
  · rename_i h
    have hm : (Int32.ofInt n.toInt).toInt = n.toInt :=
      Int32.toInt_ofInt_of_le h.1 (Int.lt_of_le_of_lt h.2 (by decide))
    exact .inr ⟨_, hm, rfl⟩
  · rw [if_pos ⟨n.minValue_le_toInt, n.toInt_le⟩, Int64.ofInt_toInt]
    exact .inl rfl

end Value

namespace Literal

open Text Calendar

/-- The value of a literal without quotes. -/
def ofBare? (version : Version) (word : List Char) : Option Value :=
  match Guid.ofGroups? word, Filter.readOperand? version word with
  | some g, _ => some (.guid g)
  | none, some (.literal v) => some v
  | none, _ => none

/-- The value of a text between quotes, by the word in front of them. -/
def ofQuoted? (version : Version) (word : String) (cs : List Char) : Option Value :=
  match version, word with
  | _, "" => some (.string (String.ofList cs))
  | .v3, "guid" => (Guid.ofGroups? cs).map .guid
  | .v3, "time" | .v4, "duration" => (Components.ofChars? cs).map fun c ↦ .duration ⟨c.nanoseconds⟩
  | .v3, "X" => (octetsOfHex? cs).map .binary
  | .v4, "binary" => (Base64.unpadded? .forAddresses cs).map .binary
  | _, _ => none

/-- The value that a literal stands for. -/
def value? (version : Version) (cs : List Char) : Option Value :=
  match cutWhere? (· = '\'') cs with
  | none => ofBare? version cs
  | some (word, quoted) => (unquote? ('\'' :: quoted)).bind (ofQuoted? version (String.ofList word))

variable {version : Version}

theorem ne_quote_of_isWord {cs : List Char} (h : IsWord cs) :
    ∀ c ∈ cs, decide (c = '\'') = false := by
  intro c hc
  refine decide_eq_false fun heq ↦ ?_
  have hword := h c hc
  rw [heq] at hword
  contradiction

theorem value?_of_isWord {cs : List Char} (h : IsWord cs) : value? version cs = ofBare? version cs := by
  rw [value?, cutWhere?_eq_none (ne_quote_of_isWord h)]

theorem value?_quoted (word : String) (h : IsWord word.toList) (cs : List Char) :
    value? version (word.toList ++ quoteChars cs) = ofQuoted? version word cs := by
  have hquoted : '\'' :: (doubleQuotes cs ++ ['\'']) = quoteChars cs := rfl
  have hcut : cutWhere? (· = '\'') (word.toList ++ quoteChars cs) =
      some (word.toList, doubleQuotes cs ++ ['\'']) :=
    cutWhere?_append (ne_quote_of_isWord h) rfl
  rw [value?, hcut]
  dsimp only
  rw [hquoted, unquote?_quoteChars, Option.bind_some, String.ofList_toList]

theorem value?_wrapped {word : String} (hw : IsWord word.toList) {cs : List Char} (h : IsWord cs) :
    value? version (wrapped word cs) = ofQuoted? version word cs := by
  rw [wrapped_eq h, value?_quoted word hw]

/-- An integer has no five groups. -/
theorem ofGroups?_integer (n : Int) {suffix : List Char}
    (h : ∀ c ∈ suffix, decide (c = '-') = false) :
    Guid.ofGroups? (signedDecimal n ++ suffix) = none := by
  have hdigits : ∀ c ∈ decimal n.natAbs ++ suffix, decide (c = '-') = false := by
    intro c hc
    rcases List.mem_append.1 hc with hc | hc
    · exact decide_eq_false (Number.ne_signs_of_isDigit (isDigit_of_mem_decimal hc)).2
    · exact h c hc
  have hpieces := pieces_of_forall (p := (· = '-')) hdigits
  rw [Guid.ofGroups?, signedDecimal]
  split_ifs
  · rw [List.cons_append, pieces, if_pos (decide_eq_true rfl), hpieces]
  · rw [hpieces]

theorem value?_integer {n : Int} {suffix : List Char} {v : Value} (hword : IsWord suffix)
    (hsuffix : ∀ c ∈ suffix, decide (c = '-') = false)
    (h : Filter.readNumber? version (signedDecimal n ++ suffix) = some v) :
    value? version (signedDecimal n ++ suffix) = some v := by
  rw [value?_of_isWord (IsWord.append_iff.2 ⟨.signedDecimal n, hword⟩), ofBare?,
    ofGroups?_integer n hsuffix, Filter.readOperand?_integer h]

theorem value?_bare (n : Int) :
    value? version (signedDecimal n) = some (Value.ofInteger n) := by
  have hread : Filter.readNumber? version (signedDecimal n) = some (Value.ofInteger n) :=
    Filter.readNumber?_bare n
  rw [← List.append_nil (signedDecimal n)] at hread ⊢
  exact value?_integer .nil (List.forall_mem_nil _) hread

theorem ofChars?_duration (d : Duration) :
    (Components.ofChars? d.chars).map (fun c ↦ Value.duration ⟨c.nanoseconds⟩) =
      some (.duration d) := by
  have hread := Components.ofChars?_chars d.isCanonical_components
  rw [d.chars_components] at hread
  rw [hread, Option.map_some, d.nanoseconds_components]

/-- A literal gives its value back; of the integer types, the newer dialect has the narrowest that holds
the number. -/
theorem value?_chars (version : Version) {v : Value} (hv : v.hasExactLiteral) :
    ∃ cs, chars version v = .ok cs ∧ value? version cs = some (Filter.writtenValue version v) := by
  cases v with
  | null => cases version <;> exact ⟨_, rfl, rfl⟩
  | boolean b => cases version <;> cases b <;> exact ⟨_, rfl, rfl⟩
  | int32 n =>
    refine ⟨_, rfl, ?_⟩
    rw [value?_bare, Value.ofInteger_toInt]
    cases version <;> rfl
  | int64 n =>
    refine ⟨_, rfl, ?_⟩
    cases version with
    | v3 => exact value?_integer (by decide) (List.forall_mem_singleton.2 rfl) (Filter.readNumber?_marked n)
    | v4 =>
      rw [List.append_nil]
      exact value?_bare n.toInt
  | string s =>
    refine ⟨_, rfl, ?_⟩
    have hread : value? version (quoteChars s.toList) = ofQuoted? version "" s.toList :=
      value?_quoted "" IsWord.nil s.toList
    rw [ofQuoted?, String.ofList_toList] at hread
    cases version <;> exact hread
  | guid g =>
    cases version with
    | v3 =>
      refine ⟨_, rfl, ?_⟩
      rw [value?_wrapped (by decide) g.isWord]
      exact congrArg (Option.map Value.guid) g.ofGroups?_chars
    | v4 =>
      refine ⟨_, rfl, ?_⟩
      rw [value?_of_isWord g.isWord, ofBare?, g.ofGroups?_chars]
      rfl
  | duration d =>
    cases version with
    | v3 =>
      refine ⟨_, rfl, ?_⟩
      rw [value?_wrapped (by decide) d.isWord]
      exact ofChars?_duration d
    | v4 =>
      refine ⟨_, rfl, ?_⟩
      rw [value?_wrapped (by decide) d.isWord]
      exact ofChars?_duration d
  | binary octets =>
    cases version with
    | v3 =>
      refine ⟨_, rfl, ?_⟩
      have hword : IsWord (octets.flatMap hexPairUpper) := .hexPairs (fun _ ↦ rfl) (by decide) octets
      rw [value?_wrapped (by decide) hword]
      exact congrArg (Option.map Value.binary)
        (octetsOfHex?_pairs (fun _ ↦ rfl) hexValue?_hexDigitUpper octets)
    | v4 =>
      refine ⟨_, rfl, ?_⟩
      rw [value?_wrapped (by decide) (.base64 octets)]
      exact congrArg (Option.map Value.binary) (Base64.unpadded?_encode octets)
  | _ => contradiction

end Literal

namespace Value

theorem asInteger?_writtenValue (version : Version) (v : Value) :
    (Filter.writtenValue version v).asInteger? = v.asInteger? := by
  unfold Filter.writtenValue
  split
  · rename_i n
    rcases ofInteger_toInt64 n with h | ⟨m, hm, h⟩
    · rw [h]
    · rw [h]
      exact congrArg some hm
  · rfl

theorem writtenValue_of_asInteger?_eq_none {v : Value} (h : v.asInteger? = none) (version : Version) :
    Filter.writtenValue version v = v := by
  unfold Filter.writtenValue
  split
  · contradiction
  · rfl

/-- Among the exact literals the integers are those of the two types. -/
theorem eq_integer_of_asInteger? {v : Value} (hv : v.hasExactLiteral) {k : Int}
    (h : v.asInteger? = some k) :
    (∃ n : Int32, v = int32 n ∧ n.toInt = k) ∨ ∃ n : Int64, v = int64 n ∧ n.toInt = k := by
  cases v with
  | int32 n => exact .inl ⟨n, rfl, Option.some.inj h⟩
  | int64 n => exact .inr ⟨n, rfl, Option.some.inj h⟩
  | _ => contradiction

theorem writtenValue_v4_eq_iff {v w : Value} (hv : v.hasExactLiteral) (hw : w.hasExactLiteral) :
    Filter.writtenValue .v4 v = Filter.writtenValue .v4 w ↔ v = w ∨ SameInteger v w := by
  constructor
  · intro h
    have hinteger := congrArg asInteger? h
    rw [asInteger?_writtenValue, asInteger?_writtenValue] at hinteger
    cases hk : v.asInteger? with
    | none =>
      rw [hk] at hinteger
      rw [writtenValue_of_asInteger?_eq_none hk,
        writtenValue_of_asInteger?_eq_none hinteger.symm] at h
      exact .inl h
    | some k =>
      rw [hk] at hinteger
      obtain ⟨n, rfl, hn⟩ | ⟨n, rfl, hn⟩ := eq_integer_of_asInteger? hv hk
      all_goals obtain ⟨m, rfl, hm⟩ | ⟨m, rfl, hm⟩ := eq_integer_of_asInteger? hw hinteger.symm
      · exact .inl (congrArg int32 (Int32.toInt_inj.1 (hn.trans hm.symm)))
      · exact .inr (.widened (hn.trans hm.symm))
      · exact .inr (.narrowed (hm.trans hn.symm))
      · exact .inl (congrArg int64 (Int64.toInt_inj.1 (hn.trans hm.symm)))
  · rintro (rfl | ⟨h⟩ | ⟨h⟩)
    · rfl
    · exact (ofInteger_toInt _).symm.trans (congrArg ofInteger h)
    · exact (congrArg ofInteger h).symm.trans (ofInteger_toInt _)

end Value

namespace Literal

/-- The integer types share their digits in the newer dialect. -/
theorem chars_writtenValue (version : Version) (v : Value) :
    chars version (Filter.writtenValue version v) = chars version v := by
  unfold Filter.writtenValue
  split
  · rename_i n
    rcases Value.ofInteger_toInt64 n with h | ⟨m, hm, h⟩
    · rw [h]
    · rw [h, chars, hm]
      exact congrArg Except.ok (List.append_nil _).symm
  · rfl

theorem text_eq_iff {v w : Value} (hv : v.hasExactLiteral) (hw : w.hasExactLiteral) (version : Version) :
    text version v = text version w ↔
      Filter.writtenValue version v = Filter.writtenValue version w := by
  obtain ⟨cs, hcs, hread⟩ := value?_chars version hv
  obtain ⟨cs', hcs', hread'⟩ := value?_chars version hw
  constructor
  · intro h
    rw [text, text, hcs, hcs'] at h
    have hchars : cs = cs' := String.ofList_injective (Except.ok.inj h)
    rw [hchars] at hread
    exact Option.some.inj (hread.symm.trans hread')
  · intro h
    rw [text, text, ← chars_writtenValue version v, h, chars_writtenValue]

/-- Literals identify their values. Each value of these types has a literal. In the older dialect no two
have the same one, of whatever types; in the newer dialect only integers of equal number do, where one is
of 32 bits and the other of 64. -/
theorem text_identifies {v w : Value} (hv : v.hasExactLiteral) (hw : w.hasExactLiteral) :
    (∀ version, ∃ s, text version v = .ok s) ∧ (text .v3 v = text .v3 w ↔ v = w) ∧
      (text .v4 v = text .v4 w ↔ v = w ∨ v.SameInteger w) := by
  refine ⟨fun version ↦ ?_, text_eq_iff hv hw .v3,
    (text_eq_iff hv hw .v4).trans (Value.writtenValue_v4_eq_iff hv hw)⟩
  obtain ⟨cs, hcs, -⟩ := value?_chars version hv
  exact ⟨String.ofList cs, by rw [text, hcs]; rfl⟩

/-- Seven as a narrow and as a wide integer. -/
theorem text_identifies_seven : text .v4 (.int32 7) = text .v4 (.int64 7) ∧
    text .v3 (.int32 7) ≠ text .v3 (.int64 7) := by
  obtain ⟨-, hv3, hv4⟩ := text_identifies (v := .int32 7) (w := .int64 7) rfl rfl
  exact ⟨hv4.2 (.inr (.widened (by decide))), fun h ↦ nomatch hv3.1 h⟩

end Literal
end OData
