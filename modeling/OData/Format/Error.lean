import OData.Schema.Resolver
import OData.Value.Literal

/-!
Why a command or an expression cannot be formatted.
-/

namespace OData

/-- Clauses that do not go together, or that are missing. -/
inductive CommandFault
  | filterWithKey
  | functionWithAction
  | rootNavigation (name : String)
  | emptyExpandPath
  | noFunction
  | noAction
  | notInserted
  deriving DecidableEq, Repr

def CommandFault.message : CommandFault → String
  | filterWithKey => "filter and key cannot be combined"
  | functionWithAction => "function and action cannot be combined"
  | rootNavigation name => "navigation '" ++ name ++ "' has no parent collection"
  | emptyExpandPath => "empty expand path"
  | noFunction => "command has no function to execute"
  | noAction => "command has no action to execute"
  | notInserted => "referenced entity was not inserted earlier in this batch"

inductive FormatError
  | malformedCommand (fault : CommandFault)
  /-- A segment of a path that means nothing where it stands. -/
  | unresolvedReference (segment path : String)
  | nameNotFound (e : NameNotFound)
  | unsupportedFunction (name : String) (arity : Nat)
  | invalidLiteral (fault : LiteralFault)
  deriving DecidableEq, Repr

namespace FormatError

def message : FormatError → String
  | malformedCommand fault => "Malformed command: " ++ fault.message
  | unresolvedReference segment path =>
    "Cannot resolve '" ++ segment ++ "' in reference '" ++ path ++ "'"
  | nameNotFound e => e.message
  | unsupportedFunction name arity =>
    "Unsupported function: " ++ name ++ " with " ++ toString arity ++ " argument(s)"
  | invalidLiteral fault => "Invalid literal: " ++ fault.message

def ofName {α : Type} (answer : Except NameNotFound α) : Except FormatError α :=
  answer.mapError nameNotFound

end FormatError
end OData
