/-!
Operators of filter expressions, their keywords and how tightly they bind.
-/

namespace OData

inductive BinaryOperator
  | eq
  | ne
  | lt
  | gt
  | le
  | ge
  | add
  | sub
  | mul
  | div
  | mod
  | and
  | or
  deriving DecidableEq, Repr

namespace BinaryOperator

def all : List BinaryOperator :=
  [eq, ne, lt, gt, le, ge, add, sub, mul, div, mod, and, or]

def keyword : BinaryOperator → String
  | eq => "eq"
  | ne => "ne"
  | lt => "lt"
  | gt => "gt"
  | le => "le"
  | ge => "ge"
  | add => "add"
  | sub => "sub"
  | mul => "mul"
  | div => "div"
  | mod => "mod"
  | and => "and"
  | or => "or"

/-- The lower the rank, the tighter an operator binds. -/
def rank : BinaryOperator → Nat
  | mul | div | mod => 2
  | add | sub => 3
  | lt | gt | le | ge => 4
  | eq | ne => 5
  | and => 6
  | or => 7

def isComparison : BinaryOperator → Bool
  | eq | ne | lt | gt | le | ge => true
  | _ => false

theorem mem_all (op : BinaryOperator) : op ∈ all := by
  cases op <;> decide

end BinaryOperator

/-- Negation is the only operator with one operand. -/
def negationKeyword : String := "not"

/-- Negation binds tighter than every operator with two operands. -/
def negationRank : Nat := 1

end OData
