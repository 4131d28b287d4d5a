import OData.Text.Octets

/-!
Percent encoding: the octets of a character's UTF-8 form, each as `%` and two digits, unless the
character belongs to a class that is left alone.
-/

namespace OData.Text

/-- Which characters beyond letters and digits stay as they are. -/
inductive EscapeMode
  /-- Only `-`, `.`, `_` and `~`. -/
  | canonical
  /-- Also the marks `'`, `(`, `)`, `*` and `!`. -/
  | legacy
  deriving DecidableEq, Repr, Inhabited

/-- The characters that are written as themselves. -/
def EscapeMode.keeps (mode : EscapeMode) (c : Char) : Bool :=
  c.isAlphanum || c ∈ ['-', '.', '_', '~'] ||
    (mode = .legacy && c ∈ ['\'', '(', ')', '*', '!'])

def escapeChar (mode : EscapeMode) (c : Char) : List Char :=
  if mode.keeps c then [c]
  else (String.utf8EncodeChar c).flatMap fun b ↦ '%' :: hexPairUpper b

def escapeChars (mode : EscapeMode) (cs : List Char) : List Char :=
  cs.flatMap (escapeChar mode)

/-- The value of a clause as it stands in a request address. -/
def escape (mode : EscapeMode) (s : String) : String :=
  String.ofList (escapeChars mode s.toList)

theorem escapeChars_append (mode : EscapeMode) (cs ds : List Char) :
    escapeChars mode (cs ++ ds) = escapeChars mode cs ++ escapeChars mode ds := by
  simp [escapeChars]

end OData.Text
