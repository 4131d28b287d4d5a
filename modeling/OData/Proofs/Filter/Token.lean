import OData.Expr.Basic
import OData.Text.Search
import OData.Value.Literal

/-!
The tokens of filter texts: words, quoted strings and marks. A word is a keyword, a literal, a path of
identifiers, or the name of a function where a parenthesis follows it.
-/

namespace OData.Filter

inductive Token
  | operand (e : Expr)
  /-- The name of a function with the parenthesis behind it. -/
  | call (name : String)
  | opening
  | closing
  | comma
  | negation
  | operator (op : BinaryOperator)

/-- The characters that end a word. -/
def isDelimiter (c : Char) : Bool :=
  c = ' ' || c = '(' || c = ')' || c = ',' || c = '\''

/-- The characters of identifiers: Latin letters, digits, the underscore, and all beyond ASCII. -/
def isNameChar (c : Char) : Bool :=
  c.isAlphanum || c = '_' || 128 ≤ c.toNat

def isIdentifier : List Char → Bool
  | [] => false
  | c :: cs => !c.isDigit && (c :: cs).all isNameChar

/-- Identifiers with slashes between them. -/
def isPath (cs : List Char) : Bool :=
  (Text.pieces (· = '/') cs).all isIdentifier

/-- A string up to its closing quote, where two quotes stand for one, and what follows it. -/
def readString : List Char → Option (List Char × List Char)
  | [] => none
  | '\'' :: '\'' :: cs => (readString cs).map fun (s, rest) ↦ ('\'' :: s, rest)
  | '\'' :: cs => some ([], cs)
  | c :: cs => (readString cs).map fun (s, rest) ↦ (c :: s, rest)

/-- Digits, with a minus sign below zero. -/
def readInteger? : List Char → Option Int
  | '-' :: digits =>
    if digits ≠ [] ∧ digits.all Char.isDigit then some (-(Text.digitsValue digits : Int)) else none
  | digits =>
    if digits ≠ [] ∧ digits.all Char.isDigit then some (Text.digitsValue digits : Int) else none

/-- An integer literal. The older dialect marks the wide integers; without a mark the value has the
narrowest type that holds it. -/
def readNumber? (version : Version) (word : List Char) : Option Value :=
  match version, Text.beforeSuffix? ['L'] word with
  | .v3, some digits => (readInteger? digits).map fun n ↦ .int64 (Int64.ofInt n)
  | _, _ => (readInteger? word).map Value.ofInteger

/-- A word that stands for a value or for a property. -/
def readOperand? (version : Version) (word : List Char) : Option Expr :=
  if word = "null".toList then some (.literal .null)
  else if word = "true".toList then some (.literal (.boolean true))
  else if word = "false".toList then some (.literal (.boolean false))
  else
    match readNumber? version word with
    | some v => some (.literal v)
    | none => if isPath word then some (.reference (String.ofList word)) else none

namespace Token

def ofKeyword? (word : List Char) : Option Token :=
  if word = negationKeyword.toList then some negation
  else (BinaryOperator.all.find? fun op ↦ op.keyword.toList = word).map operator

def ofMark? (c : Char) : Option Token :=
  if c = '(' then some opening
  else if c = ')' then some closing
  else if c = ',' then some comma
  else none

/-- The token that a word begins, and what follows it. -/
def ofWord? (version : Version) (word rest : List Char) : Option (Token × List Char) :=
  match ofKeyword? word, rest with
  | some token, _ => some (token, rest)
  | none, '(' :: rest => some (call (String.ofList word), rest)
  | none, _ => (readOperand? version word).map fun e ↦ (operand e, rest)

/-- The first token of a text without blanks in front, and what follows it. -/
def read? (version : Version) (c : Char) (cs : List Char) : Option (Token × List Char) :=
  if c = '\'' then
    (readString cs).map fun (s, rest) ↦ (operand (.literal (.string (String.ofList s))), rest)
  else
    match ofMark? c with
    | some token => some (token, cs)
    | none =>
      ofWord? version (c :: cs.takeWhile (!isDelimiter ·)) (cs.dropWhile (!isDelimiter ·))

end Token

theorem isNameChar_of_isIdentifier {cs : List Char} (h : isIdentifier cs) :
    ∀ c ∈ cs, isNameChar c := by
  cases cs with
  | nil => simp
  | cons c cs =>
    rw [isIdentifier, Bool.and_eq_true] at h
    exact List.all_eq_true.1 h.2

theorem not_mem_of_isIdentifier {cs : List Char} {c : Char} (h : isIdentifier cs)
    (hc : isNameChar c = false) : c ∉ cs := by
  intro hmem
  rw [isNameChar_of_isIdentifier h c hmem] at hc
  contradiction

theorem ne_nil_of_isIdentifier {cs : List Char} (h : isIdentifier cs) : cs ≠ [] := by
  rintro rfl
  exact absurd h (by decide)

theorem readString_length {cs s rest : List Char} (h : readString cs = some (s, rest)) :
    rest.length ≤ cs.length := by
  fun_induction readString cs generalizing s with
  | case1 => simp at h
  | case2 cs ih =>
    obtain ⟨p, hp, he⟩ := Option.map_eq_some_iff.1 h
    obtain ⟨-, rfl⟩ := Prod.mk.inj he
    exact Nat.le_add_right_of_le (Nat.le_add_right_of_le (ih hp))
  | case3 cs =>
    obtain ⟨-, rfl⟩ := Prod.mk.inj (Option.some.inj h)
    exact Nat.le_add_right _ 1
  | case4 c cs _ _ ih =>
    obtain ⟨p, hp, he⟩ := Option.map_eq_some_iff.1 h
    obtain ⟨-, rfl⟩ := Prod.mk.inj he
    exact Nat.le_add_right_of_le (ih hp)

theorem Token.ofWord?_length {version : Version} {word cs rest : List Char} {token : Token}
    (h : ofWord? version word cs = some (token, rest)) : rest.length ≤ cs.length := by
  unfold ofWord? at h
  split at h
  · obtain ⟨-, rfl⟩ := Prod.mk.inj (Option.some.inj h)
    exact Nat.le_refl _
  · obtain ⟨-, rfl⟩ := Prod.mk.inj (Option.some.inj h)
    exact Nat.le_add_right _ 1
  · obtain ⟨e, -, he⟩ := Option.map_eq_some_iff.1 h
    obtain ⟨-, rfl⟩ := Prod.mk.inj he
    exact Nat.le_refl _

theorem Token.read?_length {version : Version} {c : Char} {cs rest : List Char} {token : Token}
    (h : read? version c cs = some (token, rest)) : rest.length ≤ cs.length := by
  unfold read? at h
  split at h
  · obtain ⟨p, hp, he⟩ := Option.map_eq_some_iff.1 h
    obtain ⟨-, rfl⟩ := Prod.mk.inj he
    exact readString_length hp
  · split at h
    · obtain ⟨-, rfl⟩ := Prod.mk.inj (Option.some.inj h)
      exact Nat.le_refl _
    · exact Nat.le_trans (ofWord?_length h) (List.dropWhile_sublist _).length_le

/-- The tokens of a text, blanks between them dropped. -/
def scan (version : Version) : List Char → Option (List Token)
  | [] => some []
  | c :: cs =>
    if c = ' ' then scan version cs
    else
      match _h : Token.read? version c cs with
      | some (token, rest) => (scan version rest).map (token :: ·)
      | none => none
termination_by cs => cs.length
decreasing_by
  · simp
  · exact Nat.lt_add_one_of_le (Token.read?_length _h)

section

variable {version : Version}

theorem scan_nil : scan version [] = some [] := by
  rw [scan]

theorem scan_blank (cs : List Char) : scan version (' ' :: cs) = scan version cs := by
  rw [scan, if_pos rfl]

theorem scan_of_read? {c : Char} {cs rest : List Char} {token : Token} (hc : c ≠ ' ')
    (h : Token.read? version c cs = some (token, rest)) :
    scan version (c :: cs) = (scan version rest).map (token :: ·) := by
  rw [scan, if_neg hc]
  split
  · rename_i token' rest' h'
    obtain ⟨rfl, rfl⟩ := Prod.mk.inj (Option.some.inj (h'.symm.trans h))
    rfl
  · rename_i h'
    simp [h] at h'

end

end OData.Filter
