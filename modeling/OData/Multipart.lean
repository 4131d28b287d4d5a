import OData.Http.Head

/-!
Documents of several parts between delimiter lines: how they are written, and how one is split into
its parts again.
-/

namespace OData

/-- Why a document of several parts cannot be read. -/
inductive MultipartFault
  | noBoundary (contentType : String)
  | unclosed (boundary : String)
  deriving DecidableEq, Repr

def MultipartFault.message : MultipartFault → String
  | noBoundary contentType => "no boundary in content type '" ++ contentType ++ "'"
  | unclosed boundary =>
    "multipart body is missing the closing delimiter for '" ++ boundary ++ "'"

namespace Multipart

structure Part where
  headers : Headers
  body : String
  deriving DecidableEq, Repr

def Part.header? (p : Part) (name : String) : Option String :=
  Headers.value? name p.headers

def Part.contentType? (p : Part) : Option String :=
  p.header? "Content-Type"

def delimiter (boundary : String) : List Char :=
  '-' :: '-' :: boundary.toList

/-- A delimiter line, the headers, a blank line, and the body with a line break behind it. -/
def Part.chars (boundary : String) (p : Part) : List Char :=
  delimiter boundary ++ lineBreak ++ p.headers.chars ++ lineBreak ++ p.body.toList ++ lineBreak

/-- The delimiter line behind the last part. -/
def closing (boundary : String) : List Char :=
  delimiter boundary ++ '-' :: '-' :: lineBreak

def chars (boundary : String) (parts : List Part) : List Char :=
  parts.flatMap (Part.chars boundary) ++ closing boundary

def text (boundary : String) (parts : List Part) : String :=
  String.ofList (chars boundary parts)

def contentType (boundary : String) : String :=
  "multipart/mixed; boundary=" ++ boundary

/-- A document as a part of another one. -/
def nested (boundary : String) (parts : List Part) : Part :=
  ⟨[("Content-Type", contentType boundary)], text boundary parts⟩

def quotedBoundary? : List Char → Option (List Char)
  | '"' :: rest =>
    (Text.cutWhere? (· = '"') rest).bind fun (name, _) ↦ if name = [] then none else some name
  | _ => none

/-- A boundary up to a semicolon or a blank. -/
def bareBoundary? (cs : List Char) : Option (List Char) :=
  let name := cs.takeWhile fun c ↦ c ≠ ';' && !Text.isBlank c
  if name = [] then none else some name

/-- The first boundary in a text, behind its name in any letter case. -/
def boundaryIn? : List Char → Option (List Char)
  | [] => none
  | c :: cs =>
    let name := "boundary=".toList
    let here :=
      if Text.lower ((c :: cs).take name.length) = name then
        let value := (c :: cs).drop name.length
        quotedBoundary? value <|> bareBoundary? value
      else none
    here <|> boundaryIn? cs

def boundary (contentType : String) : Except MultipartFault String :=
  match boundaryIn? contentType.toList with
  | some name => .ok (String.ofList name)
  | none => .error (.noBoundary contentType)

/-- A part from what stands between two delimiters. -/
def Part.ofSection (cs : List Char) : Part :=
  let (head, body) := cutAtBlankLine (withoutFinalLineBreak ((afterLineBreak? cs).getD cs))
  ⟨Headers.ofLines head, String.ofList body⟩

/-- The parts before the closing delimiter, which is the first with two hyphens behind it. -/
def partsOfSections? : List (List Char) → Option (List Part)
  | [] => none
  | ('-' :: '-' :: _) :: _ => some []
  | cs :: rest => (partsOfSections? rest).map (Part.ofSection cs :: ·)

/-- The parts of a document. What stands before the first delimiter and behind the closing one does
not count. -/
def split (boundary body : String) : Except MultipartFault (List Part) :=
  match partsOfSections? (Text.sections (delimiter boundary) body.toList).tail with
  | some parts => .ok parts
  | none => .error (.unclosed boundary)

end Multipart
end OData
