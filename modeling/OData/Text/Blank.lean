/-!
White space: the characters of the Unicode property White_Space, those of the smaller class that
markup trims, and trimming by such a class.
-/

namespace OData.Text

/-- The Unicode property White_Space. -/
def isBlank (c : Char) : Bool :=
  let n := c.toNat
  (9 ≤ n && n ≤ 13) || n = 0x20 || n = 0x85 || n = 0xA0 || n = 0x1680 ||
    (0x2000 ≤ n && n ≤ 0x200A) || n = 0x2028 || n = 0x2029 || n = 0x202F || n = 0x205F ||
    n = 0x3000

/-- Space, tab, line feed and carriage return. -/
def isMarkupBlank (c : Char) : Bool :=
  c = ' ' || c = '\t' || c = '\n' || c = '\r'

variable (p : Char → Bool)

def trimLeftWhile (cs : List Char) : List Char :=
  cs.dropWhile p

def trimRightWhile (cs : List Char) : List Char :=
  (cs.reverse.dropWhile p).reverse

def trimWhile (cs : List Char) : List Char :=
  trimRightWhile p (trimLeftWhile p cs)

def trim (cs : List Char) : List Char :=
  trimWhile isBlank cs

end OData.Text
