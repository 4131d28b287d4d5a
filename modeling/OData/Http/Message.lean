import OData.Http.Head
import OData.Text.Digits

/-!
Requests and responses as text: a first line, headers, a blank line, and the body.
-/

namespace OData

/-- The request line, the headers and the body, which is empty where there is none. -/
def Request.chars (r : Request) : List Char :=
  r.method.name.toList ++ ' ' :: r.uri.toList ++ " HTTP/1.1".toList ++ lineBreak ++
    r.headers.chars ++ lineBreak ++ (r.body.getD "").toList

/-- A first line that states no status. -/
structure InvalidStatusLine where
  line : String
  deriving DecidableEq, Repr

def InvalidStatusLine.message (e : InvalidStatusLine) : String :=
  "invalid status line '" ++ e.line ++ "'"

/-- What follows a version number: one digit, or two with a point between them. -/
def afterVersionNumber? : List Char → Option (List Char)
  | major :: '.' :: minor :: rest =>
    if Text.isUnicodeDigit major && Text.isUnicodeDigit minor then some rest else none
  | major :: rest => if Text.isUnicodeDigit major then some rest else none
  | [] => none

/-- The number of the first three characters, where they are digits. -/
def statusCode? : List Char → Option Nat
  | a :: b :: c :: _ =>
    if [a, b, c].all Char.isDigit then some (Text.digitsValue [a, b, c]) else none
  | _ => none

/-- The status in a first line, behind the version and at least one blank. -/
def statusOfLine? (line : List Char) : Option Nat := do
  let rest ← Text.afterPrefix? "HTTP/".toList line
  let rest ← afterVersionNumber? rest
  guard ((rest.head?.map Text.isBlank).getD false)
  statusCode? (Text.trimLeftWhile Text.isBlank rest)

def cutFirstLine (cs : List Char) : List Char × List Char :=
  (Text.cutWhere? (· = '\n') cs).getD (cs, [])

/-- Reads a response. Line breaks in front of it do not count, and what follows the status in the
first line is free. -/
def Response.ofChars (cs : List Char) : Except InvalidStatusLine Response :=
  let (line, rest) := cutFirstLine (Text.trimLeftWhile (fun c ↦ c = '\r' || c = '\n') cs)
  let line := Text.trimRightWhile (· = '\r') line
  match statusOfLine? line with
  | none => .error ⟨String.ofList line⟩
  | some status =>
    let (head, body) :=
      match afterLineBreak? rest with
      | some body => ([], body)
      | none => cutAtBlankLine rest
    .ok ⟨status, Headers.ofLines head, String.ofList body⟩

end OData
