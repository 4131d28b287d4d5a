import OData.Json.Number
import OData.Text.Blank

/-!
Reading JSON text. A document is refused when it nests 128 levels or more, when a number exceeds
every double, or when an escape names half of a surrogate pair.
-/

namespace OData.Json

def skipBlanks (cs : List Char) : List Char :=
  Text.trimLeftWhile Text.isMarkupBlank cs

def readUnit? : List Char → Option (Nat × List Char)
  | a :: b :: c :: d :: rest => do
    let a ← Text.hexValue? a
    let b ← Text.hexValue? b
    let c ← Text.hexValue? c
    let d ← Text.hexValue? d
    return (((a * 16 + b) * 16 + c) * 16 + d, rest)
  | _ => none

/-- The character of a `\u` escape whose digits come next; a high surrogate needs a low one in a
second escape. -/
def readEscapedUnit? (cs : List Char) : Option (Char × List Char) := do
  let (unit, rest) ← readUnit? cs
  if 0xD800 ≤ unit ∧ unit < 0xDC00 then
    match rest with
    | '\\' :: 'u' :: rest =>
      let (low, rest) ← readUnit? rest
      guard (0xDC00 ≤ low ∧ low < 0xE000)
      return (Char.ofNat (0x10000 + (unit - 0xD800) * 0x400 + (low - 0xDC00)), rest)
    | _ => none
  else
    guard (¬ (0xDC00 ≤ unit ∧ unit < 0xE000))
    return (Char.ofNat unit, rest)

/-- The character of an escape whose backslash has been read. -/
def readEscape? : List Char → Option (Char × List Char)
  | '"' :: rest => some ('"', rest)
  | '\\' :: rest => some ('\\', rest)
  | '/' :: rest => some ('/', rest)
  | 'b' :: rest => some ('\x08', rest)
  | 'f' :: rest => some ('\x0c', rest)
  | 'n' :: rest => some ('\n', rest)
  | 'r' :: rest => some ('\r', rest)
  | 't' :: rest => some ('\t', rest)
  | 'u' :: rest => readEscapedUnit? rest
  | _ => none

/-- The characters of a string up to its closing quote. Each step takes at least one character, so
as many steps as characters are enough. -/
def readString? : (steps : Nat) → List Char → Option (List Char × List Char)
  | 0, _ => none
  | _ + 1, [] => none
  | steps + 1, c :: cs =>
    if c = '"' then some ([], cs)
    else if c = '\\' then do
      let (d, rest) ← readEscape? cs
      let (ds, rest) ← readString? steps rest
      return (d :: ds, rest)
    else if c.toNat < 32 then none
    else do
      let (ds, rest) ← readString? steps cs
      return (c :: ds, rest)

/-- Digits before a point: a zero alone, or digits that start with another one. -/
def readWhole? (cs : List Char) : Option (List Char × List Char) :=
  match Text.spanDigits cs with
  | ([], _) => none
  | (['0'], rest) => some (['0'], rest)
  | ('0' :: _, _) => none
  | (digits, rest) => some (digits, rest)

def readSomeDigits? (cs : List Char) : Option (List Char × List Char) :=
  match Text.spanDigits cs with
  | ([], _) => none
  | (digits, rest) => some (digits, rest)

def readFraction? : List Char → Option (Option (List Char) × List Char)
  | '.' :: rest => (readSomeDigits? rest).map fun (digits, rest) ↦ (some digits, rest)
  | cs => some (none, cs)

def readExponent? : List Char → Option (Option Int × List Char)
  | [] => some (none, [])
  | c :: cs =>
    if c = 'e' ∨ c = 'E' then
      match cs with
      | '-' :: rest =>
        (readSomeDigits? rest).map fun (digits, rest) ↦
          (some (-(Text.digitsValue digits : Int)), rest)
      | '+' :: rest =>
        (readSomeDigits? rest).map fun (digits, rest) ↦ (some (Text.digitsValue digits : Int), rest)
      | rest =>
        (readSomeDigits? rest).map fun (digits, rest) ↦ (some (Text.digitsValue digits : Int), rest)
    else some (none, c :: cs)

def readNumeral? (cs : List Char) : Option (Numeral × List Char) := do
  let (negative, cs) :=
    match cs with
    | '-' :: rest => (true, rest)
    | _ => (false, cs)
  let (whole, cs) ← readWhole? cs
  let (fraction, cs) ← readFraction? cs
  let (exponent, cs) ← readExponent? cs
  return (⟨negative, whole, fraction, exponent⟩, cs)

mutual

/-- Reads a value with blanks before it; arrays and objects may nest `depth` levels. -/
def readValue? (depth : Nat) : (steps : Nat) → List Char → Option (Json × List Char)
  | 0, _ => none
  | steps + 1, cs =>
    match skipBlanks cs with
    | 'n' :: 'u' :: 'l' :: 'l' :: rest => some (.null, rest)
    | 't' :: 'r' :: 'u' :: 'e' :: rest => some (.boolean true, rest)
    | 'f' :: 'a' :: 'l' :: 's' :: 'e' :: rest => some (.boolean false, rest)
    | '"' :: rest => do
      let (s, rest) ← readString? rest.length rest
      return (.string (String.ofList s), rest)
    | '[' :: rest => do
      guard (0 < depth)
      match skipBlanks rest with
      | ']' :: rest => return (.array [], rest)
      | rest =>
        let (items, rest) ← readItems? (depth - 1) steps rest
        return (.array items, rest)
    | '\x7b' :: rest => do
      guard (0 < depth)
      match skipBlanks rest with
      | '\x7d' :: rest => return (.object [], rest)
      | rest =>
        let (members, rest) ← readMembers? (depth - 1) steps rest
        return (.object (Fields.ofList members), rest)
    | rest => do
      let (numeral, rest) ← readNumeral? rest
      let number ← numeral.toJson?
      return (number, rest)

/-- Reads the items of an array up to its closing bracket. -/
def readItems? (depth : Nat) : (steps : Nat) → List Char → Option (List Json × List Char)
  | 0, _ => none
  | steps + 1, cs => do
    let (item, rest) ← readValue? depth steps cs
    match skipBlanks rest with
    | ',' :: rest =>
      let (items, rest) ← readItems? depth steps rest
      return (item :: items, rest)
    | ']' :: rest => return ([item], rest)
    | _ => none

/-- Reads the members of an object up to its closing brace. -/
def readMembers? (depth : Nat) :
    (steps : Nat) → List Char → Option (List (String × Json) × List Char)
  | 0, _ => none
  | steps + 1, cs =>
    match skipBlanks cs with
    | '"' :: rest => do
      let (name, rest) ← readString? rest.length rest
      match skipBlanks rest with
      | ':' :: rest =>
        let (value, rest) ← readValue? depth steps rest
        match skipBlanks rest with
        | ',' :: rest =>
          let (members, rest) ← readMembers? depth steps rest
          return ((String.ofList name, value) :: members, rest)
        | '\x7d' :: rest => return ([(String.ofList name, value)], rest)
        | _ => none
      | _ => none
    | _ => none

end

/-- The levels that arrays and objects may nest. -/
def maxDepth : Nat := 127

/-- Reads a document. A value takes at least one character, and so does each step to its parts, so
twice the length of the text is enough. -/
def ofText? (s : String) : Option Json :=
  let cs := s.toList
  match readValue? maxDepth (2 * cs.length + 2) cs with
  | some (value, rest) => if skipBlanks rest = [] then some value else none
  | none => none

end OData.Json
