import OData.Text.AsciiCase
import OData.Text.Octets
import OData.Text.Search

/-!
Globally unique identifiers: sixteen octets, written as 32 hexadecimal digits in five groups.
-/

namespace OData

structure Guid where
  octets : List UInt8
  length_octets : octets.length = 16
  deriving DecidableEq, Repr

namespace Guid

/-- Groups of eight, four, four, four and twelve digits in lower case. -/
def chars (g : Guid) : List Char :=
  let digits := g.octets.flatMap Text.hexPairLower
  digits.take 8 ++ '-' :: (digits.drop 8).take 4 ++ '-' :: (digits.drop 12).take 4 ++
    '-' :: (digits.drop 16).take 4 ++ '-' :: digits.drop 20

def text (g : Guid) : String :=
  String.ofList g.chars

def ofDigits? (digits : List Char) : Option Guid :=
  match Text.octetsOfHex? digits with
  | some octets => if h : octets.length = 16 then some ⟨octets, h⟩ else none
  | none => none

/-- Reads five groups with dashes between them. -/
def ofGroups? (cs : List Char) : Option Guid :=
  match Text.pieces (· = '-') cs with
  | [a, b, c, d, e] =>
    if [a, b, c, d, e].map List.length = [8, 4, 4, 4, 12] then ofDigits? (a ++ b ++ c ++ d ++ e)
    else none
  | _ => none

/-- Reads the digits alone or in groups; groups may stand in braces, or behind `urn:uuid:` in any
letter case. -/
def ofChars? (cs : List Char) : Option Guid :=
  let name := "urn:uuid:".toList
  if Text.lower (cs.take name.length) = name then ofGroups? (cs.drop name.length)
  else
    match cs with
    | '\x7b' :: rest => if rest.getLast? = some '\x7d' then ofGroups? rest.dropLast else none
    | _ => if cs.length = 32 then ofDigits? cs else ofGroups? cs

end Guid
end OData
