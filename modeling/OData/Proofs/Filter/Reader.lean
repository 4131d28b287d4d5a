import OData.Expr.Function
import OData.Proofs.Filter.Chain
import OData.Proofs.Filter.Token

/-!
A reader of filters: tokens go one by one into frames, one for every open parenthesis. Negation binds
tightest, the operators with two operands bind by their ranks, and those of equal rank from the left.
-/

namespace OData.Filter

/-- The target of a call and its other arguments, from the arguments in the order of a dialect. -/
def unplaced? : TargetPlace → List Expr → Option (Expr × List Expr)
  | .first, target :: arguments => some (target, arguments)
  | .last, arguments => arguments.getLast?.map fun target ↦ (target, arguments.dropLast)
  | .only, [target] => some (target, [])
  | _, _ => none

/-- The call that a dialect writes with a name and some arguments. -/
def call? (version : Version) (name : String) (arguments : List Expr) : Option Expr := do
  let entry ← FunctionEntry.table.find? fun entry ↦
    entry.arity + 1 = arguments.length && (entry.form? version).any (·.name = name)
  let form ← entry.form? version
  let (target, arguments) ← unplaced? form.target arguments
  return .call entry.name target arguments

def negated : Nat → Expr → Expr
  | 0, e => e
  | n + 1, e => negated n (.not e)

/-- An expression that is being read, where an operand is expected. `function` is the function whose
argument it is, with the arguments before it; `before` is what stands in front of the operand. -/
structure Frame where
  function : Option (String × List Expr)
  before : Option (Chain × BinaryOperator) := none
  negations : Nat := 0

/-- Whether an operand or an operator is expected, with the frames further out. -/
inductive ReadState
  | operand (frame : Frame) (outer : List Frame)
  | operator (chain : Chain) (function : Option (String × List Expr)) (outer : List Frame)

def ReadState.start : ReadState :=
  .operand { function := none } []

def Frame.append (f : Frame) (c : Chain) : Chain :=
  match f.before with
  | none => c
  | some (before, op) => before.join op c

/-- The state behind an operand. -/
def Frame.complete (f : Frame) (e : Expr) (outer : List Frame) : ReadState :=
  .operator (f.append (.single (negated f.negations e))) f.function outer

variable (version : Version)

def readToken : Token → ReadState → Option ReadState
  | .operand e, .operand f outer => some (f.complete e outer)
  | .negation, .operand f outer => some (.operand { f with negations := f.negations + 1 } outer)
  | .opening, .operand f outer => some (.operand { function := none } (f :: outer))
  | .call name, .operand f outer => some (.operand { function := some (name, []) } (f :: outer))
  | .operator op, .operator c function outer =>
    some (.operand { function, before := some (c, op) } outer)
  | .comma, .operator c (some (name, arguments)) outer =>
    some (.operand { function := some (name, arguments ++ [c.tree]) } outer)
  | .closing, .operator c none (f :: outer) => some (f.complete c.tree outer)
  | .closing, .operator c (some (name, arguments)) (f :: outer) =>
    (call? version name (arguments ++ [c.tree])).map (f.complete · outer)
  | _, _ => none

def readTokens : List Token → ReadState → Option ReadState
  | [], s => some s
  | token :: tokens, s => (readToken version token s).bind (readTokens tokens)

def readChars (cs : List Char) (s : ReadState) : Option ReadState :=
  (scan version cs).bind (readTokens version · s)

def ReadState.result? : ReadState → Option Expr
  | .operator c none [] => some c.tree
  | _ => none

/-- The expression that a filter text denotes, with references as they stand. -/
def parse (text : String) : Option Expr :=
  (readChars version text.toList .start).bind ReadState.result?

end OData.Filter
