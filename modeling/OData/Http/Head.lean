import OData.Http
import OData.Text.Blank
import OData.Text.Search

/-!
The lines in front of a body: headers up to a blank line. Lines are written with a carriage return
and a line feed; a line feed alone is read as well.
-/

namespace OData

def lineBreak : List Char := ['\r', '\n']

def Headers.chars (headers : Headers) : List Char :=
  headers.flatMap fun (name, value) ↦ name.toList ++ ": ".toList ++ value.toList ++ lineBreak

/-- A line with a colon is a header, without the blanks around name and value. -/
def Headers.ofLine? (line : List Char) : Option (String × String) :=
  (Text.cutWhere? (· = ':') line).map fun (name, value) ↦
    (String.ofList (Text.trim name), String.ofList (Text.trim value))

/-- The headers among some lines; other lines do not count. -/
def Headers.ofLines (head : List Char) : Headers :=
  (Text.pieces (· = '\n') head).filterMap ofLine?

/-- The texts before and after the first blank line; there may be nothing behind. -/
def cutAtBlankLine : List Char → List Char × List Char
  | '\r' :: '\n' :: '\r' :: '\n' :: rest => ([], rest)
  | '\n' :: '\n' :: rest => ([], rest)
  | c :: cs =>
    let (head, body) := cutAtBlankLine cs
    (c :: head, body)
  | [] => ([], [])

/-- The text behind one line break at the head. -/
def afterLineBreak? : List Char → Option (List Char)
  | '\r' :: '\n' :: rest => some rest
  | '\n' :: rest => some rest
  | _ => none

/-- Without one line break at the end. -/
def withoutFinalLineBreak (cs : List Char) : List Char :=
  (Text.beforeSuffix? lineBreak cs <|> Text.beforeSuffix? ['\n'] cs).getD cs

end OData
