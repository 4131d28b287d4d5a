import OData.Expr.Basic

/-!
Commands: which resource a request addresses and what it asks of it. Clauses that do not go together
are accepted here; formatting refuses them.
-/

namespace OData

inductive Key
  | single (v : Value)
  | composite (parts : List (String × Value))

inductive Direction
  | ascending
  | descending
  deriving DecidableEq, Repr

/-- Whether the number of entities is asked for: not at all, beside the entities, or alone. -/
inductive CountMode
  | none
  | inline
  | only
  deriving DecidableEq, Repr

abbrev OrderBy := List (String × Direction)

structure ExpandOptions where
  select : List String := []
  filter : Option Expr := none
  orderBy : OrderBy := []
  top : Option Nat := none

/-- A navigation to be expanded, with options and further navigations below it. -/
inductive Expand
  | node (path : String) (options : ExpandOptions) (nested : List Expand)

namespace Expand

def path : Expand → String
  | node path _ _ => path

def options : Expand → ExpandOptions
  | node _ options _ => options

def nested : Expand → List Expand
  | node _ _ nested => nested

end Expand

structure Invocation where
  name : String
  arguments : List (String × Value)

structure Clauses where
  key : Option Key := none
  filter : Option Expr := none
  search : Option String := none
  select : List String := []
  expand : List Expand := []
  orderBy : OrderBy := []
  skip : Option Nat := none
  top : Option Nat := none
  count : CountMode := .none
  derivedType : Option String := none
  function : Option Invocation := none
  action : Option String := none
  media : Bool := false
  queryOptions : List (String × String) := []
  expressionOptions : List (String × Expr) := []

/-- A command addresses the service itself, a collection, or what a navigation of another command
leads to. -/
inductive Command
  | service (clauses : Clauses)
  | collection (name : String) (clauses : Clauses)
  | navigation (parent : Command) (name : String) (clauses : Clauses)

/-- Filters that are given one after the other hold together. -/
def conjoin (filter : Option Expr) (e : Expr) : Option Expr :=
  match filter with
  | some other => some (.binary .and other e)
  | none => some e

namespace Command

def clauses : Command → Clauses
  | service clauses => clauses
  | collection _ clauses => clauses
  | navigation _ _ clauses => clauses

def withClauses (clauses : Clauses) : Command → Command
  | service _ => service clauses
  | collection name _ => collection name clauses
  | navigation parent name _ => navigation parent name clauses

/-- Whether there is a resource that functions and actions are bound to. -/
def isBound : Command → Bool
  | service _ => false
  | _ => true

def resourceName? : Command → Option String
  | service _ => none
  | collection name _ => some name
  | navigation _ name _ => some name

/-- The command for what a navigation leads to, without clauses. -/
def navigate (c : Command) (name : String) : Command :=
  navigation c name {}

end Command
end OData
