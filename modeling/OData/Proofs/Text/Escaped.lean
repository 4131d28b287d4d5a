import Mathlib
import OData.Proofs.Text.Percent

/-!
What escaped texts are made of: plain characters, and percent signs with two digits each. Escaping goes
octet by octet over the UTF-8 form of a text, and nothing of the text is lost in it.
-/

namespace OData.Text

/-- The characters that are plain in addresses: letters and digits of ASCII and four signs, with the older
rules also five marks. -/
def EscapeMode.Plain (mode : EscapeMode) (c : Char) : Prop :=
  ('A' ≤ c ∧ c ≤ 'Z') ∨ ('a' ≤ c ∧ c ≤ 'z') ∨ ('0' ≤ c ∧ c ≤ '9') ∨ c ∈ ['-', '.', '_', '~'] ∨
    mode = .legacy ∧ c ∈ ['\'', '(', ')', '*', '!']

def IsUpperHex (c : Char) : Prop :=
  ('0' ≤ c ∧ c ≤ '9') ∨ ('A' ≤ c ∧ c ≤ 'F')

/-- Plain characters, and percent signs with two digits each. -/
inductive EscapeMode.Escaped (mode : EscapeMode) : List Char → Prop
  | nil : Escaped mode []
  | plain {c : Char} {cs : List Char} (hc : mode.Plain c) (h : Escaped mode cs) : Escaped mode (c :: cs)
  | octet {high low : Char} {cs : List Char} (hhigh : IsUpperHex high) (hlow : IsUpperHex low)
    (h : Escaped mode cs) : Escaped mode ('%' :: high :: low :: cs)

instance (mode : EscapeMode) (c : Char) : Decidable (mode.Plain c) :=
  inferInstanceAs (Decidable (_ ∨ _))

/-- An octet as it stands in an escaped text: itself where it is a plain character, and else two
digits. -/
def EscapeMode.octetChars (mode : EscapeMode) (b : UInt8) : List Char :=
  if mode.Plain (Char.ofNat b.toNat) then [Char.ofNat b.toNat] else '%' :: hexPairUpper b

variable {mode : EscapeMode} {c : Char}

theorem EscapeMode.keeps_iff : mode.keeps c ↔ mode.Plain c := by
  simp only [keeps, Plain, Char.isAlphanum, Char.isAlpha, Char.isUpper, Char.isLower, Char.isDigit,
    Bool.or_eq_true, Bool.and_eq_true, decide_eq_true_eq, Char.le_def, ge_iff_le, or_assoc]

theorem EscapeMode.Plain.toNat_lt (h : mode.Plain c) : c.toNat < 128 := by
  have hle {d e : Char} (hd : d ≤ e) (he : e.toNat < 128) : d.toNat < 128 :=
    Nat.lt_of_le_of_lt (Char.le_def.1 hd) he
  rcases h with h | h | h | h | h
  · exact hle h.2 (by decide)
  · exact hle h.2 (by decide)
  · exact hle h.2 (by decide)
  · simp only [List.mem_cons, List.not_mem_nil, or_false] at h
    rcases h with rfl | rfl | rfl | rfl <;> decide
  · have hmark := h.2
    simp only [List.mem_cons, List.not_mem_nil, or_false] at hmark
    rcases hmark with rfl | rfl | rfl | rfl | rfl <;> decide

/-- A character of ASCII is one octet, and the others have none of ASCII in their form. -/
theorem utf8EncodeChar_of_lt (h : c.toNat < 128) : String.utf8EncodeChar c = [UInt8.ofNat c.toNat] := by
  have hle : c.val.toNat ≤ 127 := Nat.le_of_lt_succ h
  rw [String.utf8EncodeChar, if_pos hle]
  rfl

theorem le_of_mem_utf8EncodeChar (h : 128 ≤ c.toNat) {b : UInt8} (hb : b ∈ String.utf8EncodeChar c) :
    128 ≤ b.toNat := by
  have hnot : ¬ c.val.toNat ≤ 127 := Nat.not_le.2 h
  have hofNat (n : Nat) (hn : 128 ≤ n) (hn' : n < 256) : 128 ≤ (UInt8.ofNat n).toNat := by
    rw [UInt8.toNat_ofNat_of_lt' hn']
    exact hn
  rw [String.utf8EncodeChar, if_neg hnot] at hb
  split at hb
  · simp only [List.mem_cons, List.not_mem_nil, or_false] at hb
    rcases hb with rfl | rfl <;> exact hofNat _ (by omega) (by omega)
  · split at hb
    · simp only [List.mem_cons, List.not_mem_nil, or_false] at hb
      rcases hb with rfl | rfl | rfl <;> exact hofNat _ (by omega) (by omega)
    · simp only [List.mem_cons, List.not_mem_nil, or_false] at hb
      rcases hb with rfl | rfl | rfl | rfl <;> exact hofNat _ (by omega) (by omega)

theorem toNat_char_ofNat {n : Nat} (h : n < 256) : (Char.ofNat n).toNat = n := by
  have hvalid : n.isValidChar := .inl (by omega)
  rw [Char.ofNat, dif_pos hvalid]
  rfl

/-- A character is escaped octet by octet. -/
theorem escapeChar_eq (mode : EscapeMode) (c : Char) :
    escapeChar mode c = (String.utf8EncodeChar c).flatMap mode.octetChars := by
  by_cases hlt : c.toNat < 128
  · have hsame : Char.ofNat (UInt8.ofNat c.toNat).toNat = c := by
      rw [UInt8.toNat_ofNat_of_lt' (Nat.lt_trans hlt (by decide)), Char.ofNat_toNat]
    rw [escapeChar, utf8EncodeChar_of_lt hlt, List.flatMap_singleton, List.flatMap_singleton,
      EscapeMode.octetChars, hsame]
    simp only [EscapeMode.keeps_iff]
  · have hnot : ¬ mode.keeps c := fun h ↦ hlt (EscapeMode.keeps_iff.1 h).toNat_lt
    rw [escapeChar, if_neg hnot]
    refine List.flatMap_congr fun b hb ↦ ?_
    have hle := le_of_mem_utf8EncodeChar (Nat.not_lt.1 hlt) hb
    refine (if_neg fun hplain ↦ ?_).symm
    have hlt := hplain.toNat_lt
    rw [toNat_char_ofNat b.toNat_lt] at hlt
    omega

theorem escapeChars_eq (mode : EscapeMode) (cs : List Char) :
    escapeChars mode cs = (cs.flatMap String.utf8EncodeChar).flatMap mode.octetChars := by
  rw [escapeChars, List.flatMap_assoc]
  exact List.flatMap_congr fun c _ ↦ escapeChar_eq mode c

theorem isUpperHex_hexDigitUpper {n : Nat} (h : n < 16) : IsUpperHex (hexDigitUpper n) := by
  have hall : ∀ m : Fin 16, ('0' ≤ hexDigitUpper m ∧ hexDigitUpper m ≤ '9') ∨
      ('A' ≤ hexDigitUpper m ∧ hexDigitUpper m ≤ 'F') := by
    decide
  exact hall ⟨n, h⟩

theorem EscapeMode.Escaped.octetChars_append (b : UInt8) {cs : List Char} (h : mode.Escaped cs) :
    mode.Escaped (mode.octetChars b ++ cs) := by
  have hb := b.toNat_lt
  rw [EscapeMode.octetChars]
  split
  · exact .plain ‹_› h
  · exact .octet (isUpperHex_hexDigitUpper (by omega)) (isUpperHex_hexDigitUpper (by omega)) h

theorem EscapeMode.escaped_escapeChars (mode : EscapeMode) (cs : List Char) :
    mode.Escaped (escapeChars mode cs) := by
  rw [escapeChars_eq]
  induction cs.flatMap String.utf8EncodeChar with
  | nil => exact .nil
  | cons b octets ih => exact ih.octetChars_append b

/-- In either mode an escaped text is made of plain characters and of percent signs with two digits, in
upper case; it goes octet by octet, those of plain characters as they are and all others as digits.
Decoding gives the text back, a text of two parts is escaped by its parts, and different texts stay
different. -/
theorem escape_confined_and_lossless (mode : EscapeMode) (s t : String) :
    mode.Escaped (escape mode s).toList ∧
      (escape mode s).toList = (s.toList.flatMap String.utf8EncodeChar).flatMap mode.octetChars ∧
      unescape? (escape mode s).toList = some s.toList ∧
      escape mode (s ++ t) = escape mode s ++ escape mode t ∧
      (escape mode s = escape mode t ↔ s = t) := by
  have hchars : (escape mode s).toList = escapeChars mode s.toList := String.toList_ofList
  refine ⟨?_, ?_, ?_, ?_, (escape_injective mode).eq_iff⟩
  · rw [hchars]
    exact mode.escaped_escapeChars s.toList
  · rw [hchars, escapeChars_eq]
  · rw [hchars, unescape?_escapeChars]
  · rw [escape, String.toList_append, escapeChars_append, String.ofList_append]
    rfl

end OData.Text
