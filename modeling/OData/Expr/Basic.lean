import OData.Expr.Operator
import OData.Value

/-!
Expressions of filters: references to properties, literals, calls and operations.
-/

namespace OData

/-- An expression. A reference is a path of property names, with points or slashes between them. -/
inductive Expr
  | reference (path : String)
  | literal (v : Value)
  | call (name : String) (target : Expr) (arguments : List Expr)
  | binary (op : BinaryOperator) (left right : Expr)
  | not (operand : Expr)
  deriving Inhabited

namespace Expr

/-- The rank of the outermost operator, if there is one. -/
def rank? : Expr → Option Nat
  | binary op _ _ => some op.rank
  | not _ => some negationRank
  | _ => none

/-- Both bounds belong to the range. -/
def between (e : Expr) (low high : Value) : Expr :=
  binary .eq e (literal (.range low high))

def contains (e needle : Expr) : Expr := call "Contains" e [needle]

def startsWith (e start : Expr) : Expr := call "StartsWith" e [start]

def endsWith (e ending : Expr) : Expr := call "EndsWith" e [ending]

def indexOf (e needle : Expr) : Expr := call "IndexOf" e [needle]

def substring (e start : Expr) : Expr := call "Substring" e [start]

def length (e : Expr) : Expr := call "Length" e []

def toLower (e : Expr) : Expr := call "ToLower" e []

def toUpper (e : Expr) : Expr := call "ToUpper" e []

def trim (e : Expr) : Expr := call "Trim" e []

def year (e : Expr) : Expr := call "Year" e []

def month (e : Expr) : Expr := call "Month" e []

def day (e : Expr) : Expr := call "Day" e []

end Expr
end OData
