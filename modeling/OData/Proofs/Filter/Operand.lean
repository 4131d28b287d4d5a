import OData.Proofs.Filter.Spelling
import OData.Proofs.Text.Digits

/-!
How the operands of filters are read: strings, integers and the other literals, and paths of
identifiers.
-/

namespace OData.Filter

open Text

variable {version : Version}

theorem doubleQuotes_cons (c : Char) (cs : List Char) : Literal.doubleQuotes (c :: cs) =
    (if c = '\'' then ['\'', '\''] else [c]) ++ Literal.doubleQuotes cs :=
  List.flatMap_cons

theorem readString_of_ne {c : Char} (h : c ≠ '\'') (cs : List Char) :
    readString (c :: cs) = (readString cs).map fun (s, rest) ↦ (c :: s, rest) := by
  rw [readString.eq_4] <;> simp [h]

/-- The scanner of strings undoes quoting, if no further quote follows. -/
theorem readString_doubleQuotes (s : List Char) {rest : List Char} (h : rest.head? ≠ some '\'') :
    readString (Literal.doubleQuotes s ++ '\'' :: rest) = some (s, rest) := by
  induction s with
  | nil =>
    cases rest with
    | nil => rfl
    | cons c rest =>
      have hc : c ≠ '\'' := by simpa using h
      rw [Literal.doubleQuotes, List.flatMap_nil, List.nil_append, readString.eq_3]
      simpa using hc
  | cons c s ih =>
    rw [doubleQuotes_cons]
    by_cases hc : c = '\''
    · subst hc
      simp only [if_true, List.cons_append, List.nil_append, readString, ih, Option.map_some]
    · simp only [if_neg hc, List.cons_append, List.nil_append]
      rw [readString_of_ne hc, ih, Option.map_some]

theorem quoteChars_append (s rest : List Char) :
    Literal.quoteChars s ++ rest = '\'' :: (Literal.doubleQuotes s ++ '\'' :: rest) := by
  simp [Literal.quoteChars]

/-- A quoted string is one token, and the text behind it begins the next one. -/
theorem scan_quoteChars (s : String) {rest : List Char} (h : rest.head? ≠ some '\'') :
    scan version (Literal.quoteChars s.toList ++ rest) =
      (scan version rest).map (.operand (.literal (.string s)) :: ·) := by
  have ht : Token.read? version '\'' (Literal.doubleQuotes s.toList ++ '\'' :: rest) =
      some (.operand (.literal (.string s)), rest) := by
    rw [Token.read?, if_pos rfl, readString_doubleQuotes s.toList h]
    simp [String.ofList_toList]
  rw [quoteChars_append, scan_of_read? (by decide) ht]

theorem spells_string (s : String) :
    Spells version (Literal.quoteChars s.toList) (.operand (.literal (.string s))) := by
  intro rest hr
  refine scan_quoteChars s fun h ↦ ?_
  rcases hr _ h with h | h | h <;> simp at h

theorem isDelimiter_of_isDigit {c : Char} (h : c.isDigit) : isDelimiter c = false := by
  have h48 := (Char.isDigit_iff_toNat.1 h).1
  simp only [isDelimiter, Bool.or_eq_false_iff, decide_eq_false_iff_not]
  refine ⟨⟨⟨⟨?_, ?_⟩, ?_⟩, ?_⟩, ?_⟩ <;> rintro rfl <;> revert h48 <;> decide

theorem isAlpha_of_isDigit {c : Char} (h : c.isDigit) : c.isAlpha = false := by
  have h57 : c.toNat ≤ 57 := (Char.isDigit_iff_toNat.1 h).2
  cases ha : c.isAlpha with
  | false => rfl
  | true =>
    have hle : 65 ≤ c.toNat := by
      rcases Bool.or_eq_true_iff.1 ha with hu | hl
      · exact UInt32.le_iff_toNat_le.1 (of_decide_eq_true hu).1
      · have h97 : 97 ≤ c.toNat :=
          UInt32.le_iff_toNat_le.1 (of_decide_eq_true (Bool.and_eq_true_iff.1 hl).1)
        omega
    omega

/-- A keyword begins with a letter. -/
theorem ofKeyword?_eq_none {c : Char} {cs : List Char} (hc : c.isAlpha = false) :
    Token.ofKeyword? (c :: cs) = none := by
  have hne (word : String) (hw : word.toList.head?.all Char.isAlpha) : word.toList ≠ c :: cs := by
    intro h
    simp [h, hc] at hw
  rw [Token.ofKeyword?, if_neg (hne negationKeyword (by decide)).symm, Option.map_eq_none_iff,
    List.find?_eq_none]
  intro op _
  simpa using hne op.keyword (by cases op <;> decide)

theorem readInteger?_signedDecimal (n : Int) : readInteger? (signedDecimal n) = some n := by
  have hd : decimal n.natAbs ≠ [] ∧ (decimal n.natAbs).all Char.isDigit :=
    ⟨decimal_ne_nil _, List.all_eq_true.2 fun _ ↦ isDigit_of_mem_decimal⟩
  unfold signedDecimal
  split
  · rw [readInteger?, if_pos hd, digitsValue_decimal]
    congr 1
    omega
  · rw [readInteger?.eq_2, if_pos hd, digitsValue_decimal]
    · congr 1
      omega
    · intro digits h
      have := isDigit_of_mem_decimal (h ▸ List.mem_cons_self : '-' ∈ decimal n.natAbs)
      revert this
      decide

theorem exists_signedDecimal_eq_cons (n : Int) (suffix : List Char) :
    ∃ c cs, signedDecimal n ++ suffix = c :: cs ∧ c.isAlpha = false := by
  obtain ⟨c, cs, hcs⟩ := List.exists_cons_of_ne_nil (signedDecimal_ne_nil n)
  refine ⟨c, cs ++ suffix, by rw [hcs, List.cons_append], ?_⟩
  rcases minus_or_isDigit_of_mem n (hcs ▸ List.mem_cons_self) with rfl | hd
  · rfl
  · exact isAlpha_of_isDigit hd

/-- A number is none of the words for other values. -/
theorem readOperand?_integer {n : Int} {suffix : List Char} {v : Value}
    (h : readNumber? version (signedDecimal n ++ suffix) = some v) :
    readOperand? version (signedDecimal n ++ suffix) = some (.literal v) := by
  obtain ⟨c, cs, hcs, hc⟩ := exists_signedDecimal_eq_cons n suffix
  rw [hcs] at h ⊢
  have hword (other : String) (ho : other.toList.head?.all Char.isAlpha) :
      c :: cs ≠ other.toList := by
    intro h
    simp [← h, hc] at ho
  rw [readOperand?, if_neg (hword "null" (by decide)), if_neg (hword "true" (by decide)),
    if_neg (hword "false" (by decide)), h]

theorem spells_integer {n : Int} {suffix : List Char} {v : Value}
    (hs : suffix.all (!isDelimiter ·))
    (h : readNumber? version (signedDecimal n ++ suffix) = some v) :
    Spells version (signedDecimal n ++ suffix) (.operand (.literal v)) := by
  obtain ⟨c, cs, hcs, hc⟩ := exists_signedDecimal_eq_cons n suffix
  refine spells_operand (by simp [hcs]) ?_ ?_ (readOperand?_integer h)
  · rw [List.all_append, hs, Bool.and_true, List.all_eq_true]
    intro d hd
    rcases minus_or_isDigit_of_mem n hd with rfl | hd
    · rfl
    · rw [isDelimiter_of_isDigit hd]
      rfl
  · rw [hcs, ofKeyword?_eq_none hc]

theorem readNumber?_bare (n : Int) :
    readNumber? version (signedDecimal n) = some (Value.ofInteger n) := by
  have hL : beforeSuffix? ['L'] (signedDecimal n) = none := by
    rw [beforeSuffix?_eq_none_iff]
    intro before hb
    have hmem : 'L' ∈ signedDecimal n := by
      rw [hb]
      simp
    rcases minus_or_isDigit_of_mem n hmem with h | h <;> revert h <;> decide
  unfold readNumber?
  rw [hL, readInteger?_signedDecimal]
  cases version <;> rfl

theorem spells_bare (version : Version) (n : Int) :
    Spells version (signedDecimal n) (.operand (.literal (Value.ofInteger n))) := by
  have h : readNumber? version (signedDecimal n ++ []) = some (Value.ofInteger n) := by
    rw [List.append_nil, readNumber?_bare]
  simpa using spells_integer rfl h

theorem readNumber?_marked (n : Int64) :
    readNumber? .v3 (signedDecimal n.toInt ++ ['L']) = some (.int64 n) := by
  unfold readNumber?
  rw [beforeSuffix?_append]
  simp [readInteger?_signedDecimal]

/-- The literals that a filter of either dialect can be read back with. -/
def isPlain : Value → Bool
  | .null | .boolean _ | .int32 _ | .int64 _ | .string _ => true
  | _ => false

/-- The value that the literal of a plain value has in writing. Only the older dialect tells the
integer types apart; the newer one leaves an integer of the narrowest type that holds it. -/
def writtenValue : Version → Value → Value
  | .v4, .int64 n => Value.ofInteger n.toInt
  | _, v => v

theorem spells_literal {v : Value} (hv : isPlain v) {cs : List Char}
    (h : Literal.chars version v = .ok cs) :
    Spells version cs (.operand (.literal (writtenValue version v))) := by
  cases v with
  | null =>
    obtain rfl := Except.ok.inj h
    cases version <;> exact spells_operand (by decide) (by decide) (by decide) rfl
  | boolean b =>
    obtain rfl := Except.ok.inj h
    cases b <;> cases version <;> exact spells_operand (by decide) (by decide) (by decide) rfl
  | int32 n =>
    obtain rfl := Except.ok.inj h
    have hb := spells_bare version n.toInt
    rw [Value.ofInteger_toInt] at hb
    cases version <;> exact hb
  | int64 n =>
    obtain rfl := Except.ok.inj h
    cases version with
    | v3 => exact spells_integer (by decide) (readNumber?_marked n)
    | v4 =>
      rw [List.append_nil]
      exact spells_bare .v4 n.toInt
  | string s =>
    obtain rfl := Except.ok.inj h
    cases version <;> exact spells_string s
  | _ => simp [isPlain] at hv

/-- The words that mean something else than a property. -/
def reservedWords : List String :=
  "null" :: "true" :: "false" :: negationKeyword :: BinaryOperator.all.map BinaryOperator.keyword

/-- An identifier that is no reserved word. -/
structure IsName (cs : List Char) : Prop where
  identifier : isIdentifier cs
  free : ∀ word ∈ reservedWords, word.toList ≠ cs

instance (cs : List Char) : Decidable (IsName cs) :=
  decidable_of_iff (isIdentifier cs = true ∧ ∀ word ∈ reservedWords, word.toList ≠ cs)
    ⟨fun h ↦ ⟨h.1, h.2⟩, fun h ↦ ⟨h.identifier, h.free⟩⟩

theorem isDelimiter_of_isNameChar {c : Char} (h : isNameChar c) :
    isDelimiter c = false ∧ c ≠ '/' ∧ c ≠ '-' := by
  refine ⟨?_, ?_, ?_⟩
  · simp only [isDelimiter, Bool.or_eq_false_iff, decide_eq_false_iff_not]
    refine ⟨⟨⟨⟨?_, ?_⟩, ?_⟩, ?_⟩, ?_⟩ <;> rintro rfl <;> revert h <;> decide
  all_goals rintro rfl; revert h; decide

theorem IsName.ne_nil {cs : List Char} (h : IsName cs) : cs ≠ [] := by
  rintro rfl
  exact absurd h.identifier (by decide)

theorem IsName.isNameChar {cs : List Char} (h : IsName cs) : ∀ c ∈ cs, isNameChar c :=
  isNameChar_of_isIdentifier h.identifier

theorem readInteger?_eq_none {cs : List Char}
    (h : ∀ c ∈ cs.head?, c.isDigit = false ∧ c ≠ '-') : readInteger? cs = none := by
  cases cs with
  | nil => rfl
  | cons c cs =>
    obtain ⟨hd, hm⟩ := h c rfl
    rw [readInteger?.eq_2 _ (fun ds hds ↦ hm (List.cons.inj hds).1), if_neg]
    simp [hd]

theorem readNumber?_eq_none {word : List Char}
    (h : ∀ c ∈ word.head?, c.isDigit = false ∧ c ≠ '-') : readNumber? version word = none := by
  unfold readNumber?
  split
  · rename_i digits hL
    rw [readInteger?_eq_none, Option.map_none]
    intro c hc
    refine h c ?_
    rw [eq_append_of_beforeSuffix? hL, List.head?_append, Option.mem_def.1 hc]
    rfl
  · rw [readInteger?_eq_none h, Option.map_none]

section

variable {segments : List (List Char)}

theorem pieces_path (hne : segments ≠ []) (h : ∀ s ∈ segments, IsName s) :
    pieces (· = '/') (List.intercalate ['/'] segments) = segments := by
  refine pieces_intercalate (by decide) hne fun s hs c hc ↦ ?_
  exact decide_eq_false (isDelimiter_of_isNameChar ((h s hs).isNameChar c hc)).2.1

theorem path_ne_reserved (hne : segments ≠ []) (h : ∀ s ∈ segments, IsName s) {word : String}
    (hw : word ∈ reservedWords) : List.intercalate ['/'] segments ≠ word.toList := by
  intro he
  have hp := pieces_path hne h
  have hr : ∀ word ∈ reservedWords, pieces (· = '/') word.toList = [word.toList] := by decide
  rw [he, hr word hw] at hp
  exact (h word.toList (by simp [← hp])).free word hw rfl

theorem ofKeyword?_path (hne : segments ≠ []) (h : ∀ s ∈ segments, IsName s) :
    Token.ofKeyword? (List.intercalate ['/'] segments) = none := by
  rw [Token.ofKeyword?, if_neg (path_ne_reserved hne h (by simp [reservedWords])),
    Option.map_eq_none_iff, List.find?_eq_none]
  intro op hop
  have hr : op.keyword ∈ reservedWords := by
    simp only [reservedWords, List.mem_cons]
    exact .inr (.inr (.inr (.inr (List.mem_map_of_mem hop))))
  simpa using (path_ne_reserved hne h hr).symm

/-- A path begins with a character that begins no number. -/
theorem head?_path (hne : segments ≠ []) (h : ∀ s ∈ segments, IsName s) :
    ∃ c cs, List.intercalate ['/'] segments = c :: cs ∧ c.isDigit = false ∧ c ≠ '-' := by
  obtain ⟨s, rest, rfl⟩ := List.exists_cons_of_ne_nil hne
  have hs := h s (by simp)
  obtain ⟨c, cs, rfl⟩ := List.exists_cons_of_ne_nil hs.ne_nil
  obtain ⟨tail, ht⟩ := exists_intercalate_cons '/' (c :: cs) rest
  refine ⟨c, cs ++ tail, ht, ?_, (isDelimiter_of_isNameChar (hs.isNameChar c (by simp))).2.2⟩
  have hi := hs.identifier
  rw [isIdentifier, Bool.and_eq_true] at hi
  simpa using hi.1

theorem readOperand?_path (hne : segments ≠ []) (h : ∀ s ∈ segments, IsName s) :
    readOperand? version (List.intercalate ['/'] segments) =
      some (.reference (String.ofList (List.intercalate ['/'] segments))) := by
  have hpath : isPath (List.intercalate ['/'] segments) := by
    rw [isPath, pieces_path hne h]
    exact List.all_eq_true.2 fun s hs ↦ (h s hs).identifier
  have hnumber : readNumber? version (List.intercalate ['/'] segments) = none := by
    obtain ⟨c, cs, hc, hd⟩ := head?_path hne h
    refine readNumber?_eq_none fun d hd' ↦ ?_
    rw [hc] at hd'
    exact Option.mem_some.1 hd' ▸ hd
  rw [readOperand?, if_neg (path_ne_reserved hne h (by decide)),
    if_neg (path_ne_reserved hne h (by decide)), if_neg (path_ne_reserved hne h (by decide)),
    hnumber]
  exact if_pos hpath

theorem spells_path (hne : segments ≠ []) (h : ∀ s ∈ segments, IsName s) :
    Spells version (List.intercalate ['/'] segments)
      (.operand (.reference (String.ofList (List.intercalate ['/'] segments)))) := by
  refine spells_operand ?_ (List.all_eq_true.2 fun c hc ↦ ?_) (ofKeyword?_path hne h)
    (readOperand?_path hne h)
  · obtain ⟨c, cs, hc, -⟩ := head?_path hne h
    simp [hc]
  · rcases mem_of_mem_intercalate hc with rfl | ⟨s, hs, hc⟩
    · rfl
    · rw [(isDelimiter_of_isNameChar ((h s hs).isNameChar c hc)).1]
      rfl

end

end OData.Filter
