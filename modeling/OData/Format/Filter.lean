import OData.Expr.Basic
import OData.Format.Reference

/-!
The text of filter expressions. An operand whose operator binds looser than its parent is put into
parentheses; a range is a pair of bounds; in the older dialect a string is not compared with null
but tested for presence.
-/

namespace OData.Filter

variable (r : Resolver) (version : Version) (collection : Option String)

def parenthesized (cs : List Char) : List Char :=
  '(' :: cs ++ [')']

/-- The text of an operand under an operator of some rank. -/
def grouped (parentRank : Nat) (e : Expr) (cs : List Char) : List Char :=
  match e.rank? with
  | some rank => if parentRank < rank then parenthesized cs else cs
  | none => cs

def literal (v : Value) : Except FormatError (List Char) :=
  (Literal.chars version v).mapError .invalidLiteral

def joined (left : List Char) (keyword : String) (right : List Char) : List Char :=
  left ++ ' ' :: keyword.toList ++ ' ' :: right

/-- The test that stands for a comparison of a string property with null in the older dialect. -/
def presenceTest? (op : BinaryOperator) (left right : Expr) :
    Except FormatError (Option (List Char)) :=
  match version, left, right with
  | .v3, .reference path, .literal .null => do
    let p ← resolvePath r .v3 collection path
    let isString :=
      match p.field with
      | some (owner, name) => !p.wrapped && r.isStringField owner name
      | none => false
    let present := joined p.chars "ge" (Literal.quoteChars [])
    return (
      match isString, op with
      | true, .eq => some (negationKeyword.toList ++ parenthesized present)
      | true, .ne => some (parenthesized present)
      | _, _ => none)
  | _, _, _ => .ok none

def range? (op : BinaryOperator) (right : Expr) : Option (Value × Value) :=
  match op, right with
  | .eq, .literal (.range low high) => some (low, high)
  | _, _ => none

/-- The arguments of a call with the target among them. -/
def placed {α : Type} (target : α) (arguments : List α) : TargetPlace → List α
  | .first => target :: arguments
  | .last => arguments ++ [target]
  | .only => [target]

mutual

/-- The text of an expression whose paths start from a collection. -/
def chars : Expr → Except FormatError (List Char)
  | .reference path => (resolvePath r version collection path).map ResolvedPath.chars
  | .literal v => literal version v
  | .call name target arguments =>
    match lookupFunction version name arguments.length with
    | none => .error (.unsupportedFunction name arguments.length)
    | some form => do
      let target ← chars target
      let arguments ← charsAll arguments
      return form.name.toList ++
        parenthesized (List.intercalate [','] (placed target arguments form.target))
  | .binary op left right =>
    match range? op right with
    | some (low, high) => do
      let subject := grouped BinaryOperator.ge.rank left (← chars left)
      let low ← literal version low
      let high ← literal version high
      return parenthesized (joined (joined subject "ge" low) "and" (joined subject "le" high))
    | none => do
      match ← presenceTest? r version collection op left right with
      | some test => return test
      | none =>
        let left := grouped op.rank left (← chars left)
        let right := grouped op.rank right (← chars right)
        return joined left op.keyword right
  | .not operand => do
    let inner ← chars operand
    return negationKeyword.toList ++
      if (operand.rank?.any fun rank ↦ negationRank < rank) then parenthesized inner
      else ' ' :: inner

def charsAll : List Expr → Except FormatError (List (List Char))
  | [] => .ok []
  | e :: rest => do
    let first ← chars e
    let others ← charsAll rest
    return first :: others

end

/-- The text of a filter, not escaped. -/
def text (e : Expr) : Except FormatError String :=
  (chars r version collection e).map String.ofList

end OData.Filter
