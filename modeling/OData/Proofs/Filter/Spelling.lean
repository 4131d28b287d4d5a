import OData.Format.Filter
import OData.Proofs.Filter.Token

/-!
Which texts are read as which tokens: the words, strings and marks that filters are written with.
-/

namespace OData.Filter

open Text

variable {version : Version}

/-- What may follow an operand: a blank, a closing parenthesis, a comma, or nothing. -/
def Follows (rest : List Char) : Prop :=
  ∀ c ∈ rest.head?, c = ' ' ∨ c = ')' ∨ c = ','

/-- A text is read as one token, whatever follows it. -/
def Spells (version : Version) (cs : List Char) (token : Token) : Prop :=
  ∀ rest, Follows rest → scan version (cs ++ rest) = (scan version rest).map (token :: ·)

theorem follows_blank (cs : List Char) : Follows (' ' :: cs) := by
  simp [Follows]

theorem follows_closing (cs : List Char) : Follows (')' :: cs) := by
  simp [Follows]

theorem follows_comma (cs : List Char) : Follows (',' :: cs) := by
  simp [Follows]

theorem isDelimiter_of_follows {rest : List Char} (h : Follows rest) :
    ∀ c ∈ rest.head?, isDelimiter c := by
  intro c hc
  rcases h c hc with rfl | rfl | rfl <;> rfl

/-- Reading a word stops at the delimiter behind it. -/
theorem read?_word {c : Char} {cs rest : List Char} (hc : (c :: cs).all (!isDelimiter ·))
    (hr : ∀ d ∈ rest.head?, isDelimiter d) :
    Token.read? version c (cs ++ rest) = Token.ofWord? version (c :: cs) rest := by
  rw [List.all_cons, Bool.and_eq_true, Bool.not_eq_true', List.all_eq_true] at hc
  obtain ⟨hd, hcs⟩ := hc
  simp only [isDelimiter, Bool.or_eq_false_iff, decide_eq_false_iff_not] at hd
  have hrest : rest.takeWhile (!isDelimiter ·) = [] ∧ rest.dropWhile (!isDelimiter ·) = rest := by
    cases rest with
    | nil => exact ⟨rfl, rfl⟩
    | cons d rest =>
      have := hr d rfl
      simp [this]
  rw [Token.read?, if_neg hd.2]
  simp only [Token.ofMark?, hd.1.1.1.2, hd.1.1.2, hd.1.2, if_false]
  rw [List.takeWhile_append_of_pos hcs, List.dropWhile_append_of_pos hcs, hrest.1, hrest.2,
    List.append_nil]

theorem scan_word {word rest rest' : List Char} {token : Token} (hne : word ≠ [])
    (hw : word.all (!isDelimiter ·)) (hr : ∀ d ∈ rest.head?, isDelimiter d)
    (h : Token.ofWord? version word rest = some (token, rest')) :
    scan version (word ++ rest) = (scan version rest').map (token :: ·) := by
  cases word with
  | nil => contradiction
  | cons c cs =>
    have hc : c ≠ ' ' := by
      rintro rfl
      simp [isDelimiter] at hw
    exact scan_of_read? hc ((read?_word hw hr).trans h)

theorem ofKeyword?_keyword (op : BinaryOperator) :
    Token.ofKeyword? op.keyword.toList = some (.operator op) := by
  cases op <;> rfl

theorem scan_keyword {word rest : List Char} {token : Token} (hne : word ≠ [])
    (hw : word.all (!isDelimiter ·)) (hr : ∀ d ∈ rest.head?, isDelimiter d)
    (h : Token.ofKeyword? word = some token) :
    scan version (word ++ rest) = (scan version rest).map (token :: ·) :=
  scan_word hne hw hr (by simp [Token.ofWord?, h])

theorem scan_negation {rest : List Char} (hr : ∀ d ∈ rest.head?, isDelimiter d) :
    scan version (negationKeyword.toList ++ rest) = (scan version rest).map (.negation :: ·) :=
  scan_keyword (by decide) (by decide) hr rfl

theorem scan_operator (op : BinaryOperator) (rest : List Char) :
    scan version (op.keyword.toList ++ ' ' :: rest) =
      (scan version rest).map (.operator op :: ·) := by
  rw [scan_keyword (by cases op <;> decide) (by cases op <;> decide) (by simp [isDelimiter])
    (ofKeyword?_keyword op), scan_blank]

theorem scan_mark {c : Char} {token : Token} (cs : List Char) (h : Token.ofMark? c = some token) :
    scan version (c :: cs) = (scan version cs).map (token :: ·) := by
  have hc : c ≠ ' ' ∧ c ≠ '\'' := by
    constructor <;> rintro rfl <;> simp [Token.ofMark?] at h
  exact scan_of_read? hc.1 (by rw [Token.read?, if_neg hc.2, h])

theorem scan_call {name : String} {rest : List Char} (hne : name.toList ≠ [])
    (hw : name.toList.all (!isDelimiter ·)) (hk : Token.ofKeyword? name.toList = none) :
    scan version (name.toList ++ '(' :: rest) = (scan version rest).map (.call name :: ·) :=
  scan_word hne hw (by simp [isDelimiter]) (by simp [Token.ofWord?, hk, String.ofList_toList])

/-- A word that is no keyword is read as the value or the property that it stands for. -/
theorem spells_operand {word : List Char} {e : Expr} (hne : word ≠ [])
    (hw : word.all (!isDelimiter ·)) (hk : Token.ofKeyword? word = none)
    (h : readOperand? version word = some e) : Spells version word (.operand e) := by
  intro rest hr
  have ht : Token.ofWord? version word rest = some (.operand e, rest) := by
    rw [Token.ofWord?.eq_3 _ _ _ hk, h, Option.map_some]
    rintro cs rfl
    have := hr '(' rfl
    simp at this
  exact scan_word hne hw (isDelimiter_of_follows hr) ht

end OData.Filter
