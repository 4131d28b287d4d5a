import OData.Text.Percent

/-!
Percent encoding read back: an escaped text holds no mark that structures an address, and it can be
decoded to the text that was escaped.
-/

namespace OData.Text

/-- The octets that a text with percent encoding stands for; characters that are not encoded stand for
their UTF-8 form. -/
def percentOctets? : List Char → Option (List UInt8)
  | [] => some []
  | '%' :: high :: low :: rest => do
    let h ← hexValue? high
    let l ← hexValue? low
    (percentOctets? rest).map (UInt8.ofNat (16 * h + l) :: ·)
  | c :: rest =>
    if c = '%' then none else (percentOctets? rest).map (String.utf8EncodeChar c ++ ·)

/-- The text that was percent encoded. -/
def unescape? (cs : List Char) : Option (List Char) := do
  let octets ← percentOctets? cs
  octets.toByteArray.utf8Decode?.map Array.toList

theorem percentOctets?_cons {c : Char} (h : c ≠ '%') (cs : List Char) :
    percentOctets? (c :: cs) = (percentOctets? cs).map (String.utf8EncodeChar c ++ ·) := by
  rw [percentOctets?, if_neg h]
  simp [h]

theorem percentOctets?_pair (b : UInt8) (cs : List Char) :
    percentOctets? ('%' :: hexPairUpper b ++ cs) = (percentOctets? cs).map (b :: ·) := by
  have hb := b.toNat_lt
  have hvalue : UInt8.ofNat (16 * (b.toNat / 16) + b.toNat % 16) = b := by
    rw [Nat.div_add_mod, UInt8.ofNat_toNat]
  simp only [hexPairUpper, List.cons_append, List.nil_append, percentOctets?]
  rw [hexValue?_hexDigitUpper (by omega), hexValue?_hexDigitUpper (by omega), Option.bind_eq_bind,
    Option.bind_some, Option.bind_some, hvalue]

theorem percentOctets?_pairs (octets : List UInt8) (cs : List Char) :
    percentOctets? (octets.flatMap (fun b ↦ '%' :: hexPairUpper b) ++ cs) =
      (percentOctets? cs).map (octets ++ ·) := by
  induction octets with
  | nil => simp
  | cons b octets ih =>
    rw [List.flatMap_cons, List.append_assoc, percentOctets?_pair, ih]
    simp [Function.comp_def]

theorem percentOctets?_escapeChar (mode : EscapeMode) (c : Char) (cs : List Char) :
    percentOctets? (escapeChar mode c ++ cs) =
      (percentOctets? cs).map (String.utf8EncodeChar c ++ ·) := by
  rw [escapeChar]
  split
  · rename_i hk
    refine percentOctets?_cons ?_ cs
    rintro rfl
    cases mode <;> simp [EscapeMode.keeps] at hk
  · exact percentOctets?_pairs _ cs

theorem percentOctets?_escapeChars (mode : EscapeMode) (cs : List Char) :
    percentOctets? (escapeChars mode cs) = some (cs.flatMap String.utf8EncodeChar) := by
  induction cs with
  | nil => rfl
  | cons c cs ih =>
    rw [escapeChars, List.flatMap_cons, percentOctets?_escapeChar, ← escapeChars, ih]
    rfl

/-- Decoding gives back what was escaped. -/
theorem unescape?_escapeChars (mode : EscapeMode) (cs : List Char) :
    unescape? (escapeChars mode cs) = some cs := by
  have hdecode : (cs.flatMap String.utf8EncodeChar).toByteArray.utf8Decode? = some cs.toArray :=
    List.utf8Decode?_utf8Encode
  rw [unescape?, percentOctets?_escapeChars]
  simp [hdecode]

theorem escape_injective (mode : EscapeMode) : Function.Injective (escape mode) := by
  intro s t h
  have hchars : escapeChars mode s.toList = escapeChars mode t.toList := String.ofList_injective h
  have hsome := unescape?_escapeChars mode s.toList
  rw [hchars, unescape?_escapeChars] at hsome
  exact String.toList_injective (Option.some.inj hsome).symm

/-- What stands in an escaped text: characters that are kept, percent signs and digits. -/
theorem keeps_or_eq_of_mem_escapeChars {mode : EscapeMode} {c : Char} {cs : List Char}
    (h : c ∈ escapeChars mode cs) : mode.keeps c ∨ c = '%' := by
  obtain ⟨d, -, hd⟩ := List.mem_flatMap.1 h
  rw [escapeChar] at hd
  split at hd
  · rename_i hk
    obtain rfl := List.mem_singleton.1 hd
    exact .inl hk
  · obtain ⟨b, -, hb⟩ := List.mem_flatMap.1 hd
    have hdigits : ∀ n : Fin 16, (hexDigitUpper n).isAlphanum := by decide
    have hlt := b.toNat_lt
    rcases List.mem_cons.1 hb with hb | hb
    · exact .inr hb
    refine .inl ?_
    rw [EscapeMode.keeps, Bool.or_assoc, Bool.or_eq_true]
    refine .inl ?_
    rcases List.mem_cons.1 hb with rfl | hb
    · exact hdigits ⟨b.toNat / 16, by omega⟩
    · obtain rfl := List.mem_singleton.1 hb
      exact hdigits ⟨b.toNat % 16, by omega⟩

/-- The marks that structure an address, and line breaks. -/
def addressMarks : List Char :=
  ['&', '=', '#', '?', '/', '\r', '\n']

theorem not_mem_escapeChars {c : Char} (hc : c ∈ addressMarks) (mode : EscapeMode) (cs : List Char) :
    c ∉ escapeChars mode cs := by
  intro h
  have hmarks : ∀ mode, ∀ c ∈ addressMarks, ¬ (EscapeMode.keeps mode c ∨ c = '%') := by
    intro mode
    cases mode <;> simp [addressMarks, EscapeMode.keeps]
  exact hmarks mode c hc (keeps_or_eq_of_mem_escapeChars h)

end OData.Text
