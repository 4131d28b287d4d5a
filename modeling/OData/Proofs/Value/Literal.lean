import OData.Proofs.Address.Parts
import OData.Proofs.Number.Integer
import OData.Proofs.Text.Quoted

/-!
What literals look like: a word of letters, digits and a few signs, or text between quotes with such a
word in front. Only the literal of a collection is anything else.
-/

namespace OData

namespace Text

/-- The characters of literals outside of quotes. -/
def isWordChar (c : Char) : Bool :=
  c.isAlphanum || c = '-' || c = '+' || c = '.' || c = ':' || c = '_'

def IsWord (cs : List Char) : Prop :=
  ∀ c ∈ cs, isWordChar c = true

instance (cs : List Char) : Decidable (IsWord cs) :=
  List.decidableBAll (isWordChar · = true) cs

namespace IsWord

variable {c : Char} {cs ds : List Char}

@[simp]
theorem nil : IsWord [] := List.forall_mem_nil _

@[simp]
theorem cons_iff : IsWord (c :: cs) ↔ isWordChar c = true ∧ IsWord cs := List.forall_mem_cons

@[simp]
theorem append_iff : IsWord (cs ++ ds) ↔ IsWord cs ∧ IsWord ds := List.forall_mem_append

theorem sublist (h : IsWord cs) (hs : ds.Sublist cs) : IsWord ds :=
  fun _ hc ↦ h _ (hs.subset hc)

theorem take (h : IsWord cs) (n : Nat) : IsWord (cs.take n) :=
  h.sublist (List.take_sublist n cs)

theorem drop (h : IsWord cs) (n : Nat) : IsWord (cs.drop n) :=
  h.sublist (List.drop_sublist n cs)

theorem of_digits (h : ∀ c ∈ cs, c.isDigit) : IsWord cs := by
  intro c hc
  simp [isWordChar, Char.isAlphanum, h c hc]

@[simp]
theorem decimal (n : Nat) : IsWord (Text.decimal n) :=
  of_digits fun _ ↦ isDigit_of_mem_decimal

@[simp]
theorem zeros (n : Nat) : IsWord (List.replicate n '0') := by
  intro c hc
  rw [List.eq_of_mem_replicate hc]
  rfl

@[simp]
theorem paddedDecimal (width n : Nat) : IsWord (Text.paddedDecimal width n) := by
  simp [Text.paddedDecimal]

@[simp]
theorem signedDecimal (n : Int) : IsWord (Text.signedDecimal n) := by
  rw [Text.signedDecimal]
  split
  · simp [isWordChar]
  · simp

theorem hexPairs {pair : UInt8 → List Char} {digit : Nat → Char}
    (hpair : ∀ b, pair b = [digit (b.toNat / 16), digit (b.toNat % 16)])
    (hdigit : ∀ n : Fin 16, isWordChar (digit n)) (octets : List UInt8) :
    IsWord (octets.flatMap pair) := by
  intro c hc
  obtain ⟨b, -, hc⟩ := List.mem_flatMap.1 hc
  have hlt := b.toNat_lt
  rw [hpair, List.mem_cons, List.mem_singleton] at hc
  rcases hc with rfl | rfl
  · exact hdigit ⟨b.toNat / 16, by omega⟩
  · exact hdigit ⟨b.toNat % 16, by omega⟩

theorem base64Digit (n : Nat) : isWordChar (Base64.digit .forAddresses n) = true := by
  by_cases h : n < 62
  · have hdigit : ∀ m : Fin 62, isWordChar (Base64.digit .forAddresses m) := by decide
    exact hdigit ⟨n, h⟩
  · unfold Base64.digit
    rw [if_neg (by omega), if_neg (by omega), if_neg h]
    split <;> rfl

theorem base64 (octets : List UInt8) : IsWord (Base64.encode .forAddresses octets) := by
  have hfill (n : Nat) : Base64.fill .forAddresses n = [] := rfl
  fun_induction Base64.encode .forAddresses octets with
  | case1 => exact nil
  | case2 => simp [base64Digit, hfill]
  | case3 => simp [base64Digit, hfill]
  | case4 x y z rest n ih => simp [base64Digit, ih]

end IsWord
end Text

open Text

theorem Guid.isWord (g : Guid) : IsWord g.chars := by
  have h : IsWord (g.octets.flatMap hexPairLower) := .hexPairs (fun _ ↦ rfl) (by decide) _
  simp [Guid.chars, isWordChar, h.take, h.drop, (h.drop _).take]

namespace Number

theorem Decimal.isWord (d : Decimal) : IsWord d.chars := by
  have h := IsWord.paddedDecimal (d.scale + 1) d.significand
  rw [Decimal.chars]
  simp only [IsWord.append_iff, h.take, and_true]
  constructor
  · split <;> simp [isWordChar]
  · split
    · exact .nil
    · simp [isWordChar, h.drop]

theorem DecimalDigits.isWord_positional (d : DecimalDigits) : IsWord d.positional := by
  have h := IsWord.decimal d.digits
  rw [DecimalDigits.positional]
  split
  · simp [isWordChar]
  · dsimp only
    split
    · simp [isWordChar, h.take, h.drop]
    · simp [isWordChar]

theorem DecimalDigits.isWord_scientific (d : DecimalDigits) : IsWord (d.scientific false) := by
  have h := IsWord.decimal d.digits
  rw [DecimalDigits.scientific]
  simp only [IsWord.append_iff, IsWord.cons_iff, Bool.false_and, Bool.false_eq_true, if_false,
    IsWord.nil, IsWord.signedDecimal, and_true]
  refine ⟨?_, rfl⟩
  split
  · rename_i first second rest hdigits
    rw [hdigits] at h
    simp only [IsWord.cons_iff] at h ⊢
    exact ⟨h.1, rfl, h.2⟩
  · exact h

end Number

theorem Literal.isWord_realChars (x : Number.Double) : IsWord (realChars x) := by
  rw [realChars]
  cases x.datum with
  | nan =>
    show IsWord "NaN".toList
    decide
  | infinite negative =>
    show IsWord (if negative then "-INF" else "INF").toList
    cases negative <;> decide
  | finite negative significand exponent =>
    have hmagnitude : IsWord (if significand = 0 then "0.0".toList
        else
          let digits := Number.shortest .up significand exponent
          if isWhole significand exponent && 15 < digits.decade then digits.scientific false
          else digits.positional) := by
      split
      · decide
      · dsimp only
        split
        · exact Number.DecimalDigits.isWord_scientific _
        · exact Number.DecimalDigits.isWord_positional _
    cases negative with
    | false => exact hmagnitude
    | true => exact IsWord.cons_iff.2 ⟨rfl, hmagnitude⟩

namespace Calendar

theorem Date.isWord (d : Date) : IsWord d.chars := by
  have hyear : IsWord (Date.yearChars d.year) := by
    rw [Date.yearChars]
    split
    · simp [isWordChar]
    · split <;> simp [isWordChar]
  simp [Date.chars, isWordChar, hyear]

theorem isWord_fractionChars (n : Nat) : IsWord (fractionChars n) := by
  unfold fractionChars
  split
  · exact .nil
  · split
    · simp [isWordChar]
    · split <;> simp [isWordChar]

theorem Time.isWord (t : Time) : IsWord t.chars := by
  simp [Time.chars, isWordChar, isWord_fractionChars]

theorem DateTime.isWord (d : DateTime) : IsWord d.chars := by
  simp [DateTime.chars, isWordChar, d.date.isWord, d.time.isWord]

theorem OffsetDateTime.isWord (d : OffsetDateTime) : IsWord d.chars := by
  have hsign : isWordChar (if d.offset < 0 then '-' else '+') = true := by split <;> rfl
  have hcolon : isWordChar ':' = true := rfl
  simp [OffsetDateTime.chars, offsetChars, DateTime.isWord, hsign, hcolon]

theorem Duration.isWord (d : Duration) : IsWord d.chars := by
  have hpart {unit : Char} (hunit : isWordChar unit = true) (n : Nat) :
      IsWord (Duration.part n unit) := by
    rw [Duration.part]
    split <;> simp [hunit]
  have hfraction (n : Nat) : IsWord (Duration.fractionDigits n) := by
    intro c hc
    have hc := (List.dropWhile_sublist _).subset (List.mem_reverse.1 hc)
    exact IsWord.paddedDecimal 9 n c (List.mem_reverse.1 hc)
  have hseconds (seconds nanosecond : Nat) (onlyPart : Bool) :
      IsWord (Duration.secondsPart seconds nanosecond onlyPart) := by
    rw [Duration.secondsPart]
    split
    · simp [isWordChar, hfraction]
    · split <;> simp [isWordChar]
  rw [Duration.chars]
  simp only [IsWord.append_iff, IsWord.cons_iff]
  refine ⟨⟨?_, rfl, hpart rfl _⟩, ?_⟩
  · split <;> simp [isWordChar]
  · split
    · simp only [IsWord.append_iff, IsWord.cons_iff]
      exact ⟨⟨⟨rfl, hpart rfl _⟩, hpart rfl _⟩, hseconds _ _ _⟩
    · exact .nil

end Calendar

namespace Literal

/-- A word, or quotes with a word in front. -/
inductive IsPlain : List Char → Prop
  | word {cs : List Char} (h : IsWord cs) : IsPlain cs
  | quoted {word : List Char} (h : IsWord word) (cs : List Char) : IsPlain (word ++ quoteChars cs)

/-- In a word there is no quote to be doubled. -/
theorem wrapped_eq {word : String} {cs : List Char} (h : IsWord cs) :
    wrapped word cs = word.toList ++ quoteChars cs := by
  have hquote : isWordChar '\'' = false := rfl
  have hsingle : ∀ c ∈ cs, (if c = '\'' then ['\'', '\''] else [c]) = [c] := by
    intro c hc
    refine if_neg fun heq ↦ ?_
    rw [← heq, h c hc] at hquote
    contradiction
  have hdouble : doubleQuotes cs = cs :=
    (List.flatMap_congr hsingle).trans (List.flatMap_singleton' cs)
  rw [wrapped, quoteChars, hdouble, List.append_assoc]

theorem isPlain_wrapped {word : String} (hw : IsWord word.toList) {cs : List Char} (h : IsWord cs) :
    IsPlain (wrapped word cs) := by
  rw [wrapped_eq h]
  exact .quoted hw cs

theorem isPlain_chars {version : Version} {v : Value} (hv : v.isCollection = false) {cs : List Char}
    (h : chars version v = .ok cs) : IsPlain cs := by
  cases v with
  | null =>
    obtain rfl := Except.ok.inj h
    exact .word (by decide)
  | boolean b =>
    obtain rfl := Except.ok.inj h
    exact .word (by cases b <;> decide)
  | int32 n =>
    obtain rfl := Except.ok.inj h
    exact .word (.signedDecimal _)
  | int64 n =>
    obtain rfl := Except.ok.inj h
    exact .word (IsWord.append_iff.2 ⟨.signedDecimal _, by cases version <;> decide⟩)
  | decimal d =>
    obtain rfl := Except.ok.inj h
    exact .word (IsWord.append_iff.2 ⟨d.isWord, by cases version <;> decide⟩)
  | single x =>
    obtain rfl := Except.ok.inj h
    exact .word (IsWord.append_iff.2 ⟨isWord_realChars _, by cases version <;> decide⟩)
  | double x =>
    obtain rfl := Except.ok.inj h
    exact .word (isWord_realChars x)
  | string s =>
    obtain rfl := Except.ok.inj h
    exact .quoted .nil s.toList
  | guid g =>
    cases version <;> obtain rfl := Except.ok.inj h
    · exact isPlain_wrapped (by decide) g.isWord
    · exact .word g.isWord
  | dateTime d =>
    cases version <;> obtain rfl := Except.ok.inj h
    · exact isPlain_wrapped (by decide) d.isWord
    · exact .word (IsWord.append_iff.2 ⟨d.isWord, by decide⟩)
  | dateTimeOffset d =>
    cases version <;> obtain rfl := Except.ok.inj h
    · exact isPlain_wrapped (by decide) d.isWord
    · exact .word d.isWord
  | date d =>
    cases version <;> obtain rfl := Except.ok.inj h
    · exact isPlain_wrapped (by decide) (IsWord.append_iff.2 ⟨d.isWord, by decide⟩)
    · exact .word d.isWord
  | timeOfDay t =>
    cases version <;> obtain rfl := Except.ok.inj h
    · exact isPlain_wrapped (by decide) (Calendar.Duration.isWord _)
    · exact .word t.isWord
  | duration d =>
    cases version <;> obtain rfl := Except.ok.inj h
    · exact isPlain_wrapped (by decide) d.isWord
    · exact isPlain_wrapped (by decide) d.isWord
  | binary octets =>
    cases version <;> obtain rfl := Except.ok.inj h
    · exact isPlain_wrapped (by decide) (.hexPairs (fun _ ↦ rfl) (by decide) octets)
    · exact isPlain_wrapped (by decide) (.base64 octets)
  | collection | record | range => contradiction

/-- A mark that is no character of words stands in a literal between its quotes only. -/
theorem IsPlain.uncut {mark : Char} (hmark : isWordChar mark = false) (hquote : mark ≠ '\'')
    {cs : List Char} (h : IsPlain cs) : Uncut mark false cs := by
  have hword {cs : List Char} (hcs : IsWord cs) : Uncut mark false cs := by
    refine uncut_of_forall fun c hc ↦ ⟨?_, ?_⟩
    · rintro rfl
      exact absurd (hcs _ hc) (by decide)
    · rintro rfl
      exact absurd (hcs _ hc) (by simp [hmark])
  cases h with
  | word h => exact hword h
  | quoted h cs => exact (hword h).append (uncut_quoteChars hquote cs)

end Literal

theorem Text.octetsOfHex?_pairs {pair : UInt8 → List Char} {digit : Nat → Char}
    (hpair : ∀ b, pair b = [digit (b.toNat / 16), digit (b.toNat % 16)])
    (hdigit : ∀ {n}, n < 16 → hexValue? (digit n) = some n) (octets : List UInt8) :
    octetsOfHex? (octets.flatMap pair) = some octets := by
  induction octets with
  | nil => rfl
  | cons b octets ih =>
    have hb := b.toNat_lt
    have hvalue : UInt8.ofNat (16 * (b.toNat / 16) + b.toNat % 16) = b := by
      rw [Nat.div_add_mod, UInt8.ofNat_toNat]
    rw [List.flatMap_cons, hpair]
    simp only [List.cons_append, List.nil_append, octetsOfHex?]
    rw [hdigit (by omega), hdigit (by omega), ih]
    exact congrArg (fun x ↦ some (x :: octets)) hvalue

namespace Guid

theorem length_digits (octets : List UInt8) :
    (octets.flatMap hexPairLower).length = octets.length * 2 := by
  simp [List.length_flatMap, hexPairLower]

theorem ofDigits?_digits (g : Guid) : ofDigits? (g.octets.flatMap hexPairLower) = some g := by
  have hread : octetsOfHex? (g.octets.flatMap hexPairLower) = some g.octets :=
    octetsOfHex?_pairs (fun _ ↦ rfl) hexValue?_hexDigitLower _
  rw [ofDigits?, hread]
  exact dif_pos g.length_octets

/-- The text of an identifier, put in groups, is read back. -/
theorem ofGroups?_chars (g : Guid) : ofGroups? g.chars = some g := by
  have hread := g.ofDigits?_digits
  have hlength := length_digits g.octets
  rw [g.length_octets] at hlength
  have hdigit : ∀ n : Fin 16, hexDigitLower n ≠ '-' := by decide
  have hdigits : ∀ c ∈ g.octets.flatMap hexPairLower, decide (c = '-') = false := by
    intro c hc
    obtain ⟨b, -, hc⟩ := List.mem_flatMap.1 hc
    have hlt := b.toNat_lt
    rw [hexPairLower, List.mem_cons, List.mem_singleton] at hc
    rcases hc with rfl | rfl
    · exact decide_eq_false (hdigit ⟨b.toNat / 16, by omega⟩)
    · exact decide_eq_false (hdigit ⟨b.toNat % 16, by omega⟩)
  unfold Guid.chars
  generalize g.octets.flatMap hexPairLower = digits at hread hlength hdigits ⊢
  let groups : List (List Char) :=
    [digits.take 8, (digits.drop 8).take 4, (digits.drop 12).take 4, (digits.drop 16).take 4,
      digits.drop 20]
  have hflatten : digits.take 8 ++ (digits.drop 8).take 4 ++ (digits.drop 12).take 4 ++
      (digits.drop 16).take 4 ++ digits.drop 20 = digits := by
    have hnext (n : Nat) : (digits.drop n).take 4 ++ digits.drop (n + 4) = digits.drop n := by
      rw [← List.drop_drop, List.take_append_drop]
    simp only [List.append_assoc]
    rw [hnext 16, hnext 12, hnext 8, List.take_append_drop]
  have hfree : ∀ cs ∈ groups, ∀ c ∈ cs, decide (c = '-') = false := by
    have htake {n m : Nat} : ∀ c ∈ (digits.drop n).take m, decide (c = '-') = false :=
      fun c hc ↦ hdigits c (List.mem_of_mem_drop (List.mem_of_mem_take hc))
    simp only [groups, List.forall_mem_cons, List.not_mem_nil, false_implies, implies_true, and_true]
    exact ⟨fun c hc ↦ hdigits c (List.mem_of_mem_take hc), htake, htake, htake,
      fun c hc ↦ hdigits c (List.mem_of_mem_drop hc)⟩
  have hpieces := pieces_intercalate (p := (· = '-')) (c := '-') rfl (List.cons_ne_nil _ _) hfree
  have hgroups : List.intercalate ['-'] groups = digits.take 8 ++ '-' :: (digits.drop 8).take 4 ++
      '-' :: (digits.drop 12).take 4 ++ '-' :: (digits.drop 16).take 4 ++ '-' :: digits.drop 20 := by
    simp [groups, List.intercalate_cons_cons]
  have hlengths : groups.map List.length = [8, 4, 4, 4, 12] := by
    simp [groups, hlength]
  rw [ofGroups?, ← hgroups, hpieces]
  dsimp only
  rw [if_pos hlengths, hflatten, hread]

theorem chars_injective {g g' : Guid} (h : g.chars = g'.chars) : g = g' := by
  have hread := congrArg ofGroups? h
  rw [ofGroups?_chars, ofGroups?_chars] at hread
  exact Option.some.inj hread

end Guid

theorem Text.signedDecimal_injective {m n : Int} (h : signedDecimal m = signedDecimal n) : m = n := by
  have hread (k : Int) (hk : k = m ∨ k = n) :
      Number.readInteger (min 0 (min m n)) (max 0 (max m n)) (signedDecimal k) = .ok k :=
    Number.readInteger_signedDecimal (by omega) (by omega) (by omega) (by omega)
  have hm := hread m (.inl rfl)
  rw [h, hread n (.inr rfl)] at hm
  exact (Except.ok.inj hm).symm

end OData
