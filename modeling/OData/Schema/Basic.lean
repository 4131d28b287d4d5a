import OData.Schema.Resolver
import OData.Text.AsciiCase
import OData.Text.Search

/-!
A schema in memory. A name is looked for in its exact spelling, then in any letter case, then in its
other grammatical number.
-/

namespace OData

/-- Whether a property holds strings. -/
inductive FieldKind
  | string
  | other
  deriving DecidableEq, Repr

/-- A link from the entities of one collection to those of another. -/
structure Navigation where
  name : String
  target : String
  multivalued : Bool
  deriving DecidableEq, Repr

structure EntitySet where
  name : String
  fields : List (String × FieldKind)
  navigations : List Navigation
  deriving DecidableEq, Repr

/-- The collections and functions of a service. The functions are listed by name, each one once. -/
structure Schema where
  space : String
  collections : List EntitySet
  functions : List String
  deriving DecidableEq, Repr

/-- The other grammatical number of an English noun in lower case, as far as its ending tells. -/
def numberVariants (name : List Char) : List (List Char) :=
  let noun := Text.lower name
  let singular :=
    match Text.beforeSuffix? "ies".toList noun with
    | some stem => [stem ++ ['y']]
    | none =>
      match Text.beforeSuffix? "es".toList noun with
      | some stem => [stem, stem ++ ['e']]
      | none =>
        match Text.beforeSuffix? ['s'] noun with
        | some stem => [stem]
        | none => []
  let plural :=
    match Text.beforeSuffix? ['y'] noun with
    | some stem => [stem ++ "ies".toList]
    | none => []
  singular ++ plural ++ [noun ++ ['s'], noun ++ "es".toList]

/-- The first item with the exact name, else the first that differs in case only, else the first in
another grammatical number. -/
def findByName {α : Type} (key : α → String) (name : String) (items : List α) : Option α :=
  items.find? (fun item ↦ key item = name) <|>
    items.find? (fun item ↦ Text.sameIgnoringCase (key item) name) <|>
    items.find? fun item ↦ Text.lower (key item).toList ∈ numberVariants name.toList

namespace Schema

def empty (space : String) : Schema :=
  ⟨space, [], []⟩

variable (s : Schema)

def findCollection? (name : String) : Option EntitySet :=
  findByName EntitySet.name name s.collections

/-- Declares a collection, unless its name leads to one already. -/
def addCollection (name : String) : Schema :=
  if (s.findCollection? name).isSome then s
  else { s with collections := s.collections ++ [⟨name, [], []⟩] }

def changeFirst {α : Type} (p : α → Bool) (f : α → α) : List α → List α
  | [] => []
  | a :: rest => if p a then f a :: rest else a :: changeFirst p f rest

/-- Changes the collection of exactly this name, if there is one. -/
def changeCollection (name : String) (f : EntitySet → EntitySet) : Schema :=
  { s with collections := changeFirst (fun c ↦ c.name = name) f s.collections }

/-- Declares a field of a collection, which is declared too where its name leads to none. -/
def addField (collection name : String) (kind : FieldKind) : Schema :=
  (s.addCollection collection).changeCollection collection fun c ↦
    { c with fields := c.fields ++ [(name, kind)] }

/-- Declares a navigation of a collection, which is declared too where its name leads to none. -/
def addNavigation (collection name target : String) (multivalued : Bool) : Schema :=
  (s.addCollection collection).changeCollection collection fun c ↦
    { c with navigations := c.navigations ++ [⟨name, target, multivalued⟩] }

def addFunction (name : String) : Schema :=
  if name ∈ s.functions then s else { s with functions := s.functions ++ [name] }

def qualified (name : String) : String :=
  s.space ++ "." ++ name

def collection (name : String) : Except NameNotFound EntitySet :=
  match s.findCollection? name with
  | some c => .ok c
  | none => .error ⟨name⟩

def field (collection name : String) : Except NameNotFound (String × FieldKind) := do
  let c ← s.collection collection
  match findByName Prod.fst name c.fields with
  | some field => .ok field
  | none => .error ⟨c.name ++ "." ++ name⟩

def navigation (collection name : String) : Except NameNotFound Navigation := do
  let c ← s.collection collection
  match findByName Navigation.name name c.navigations with
  | some navigation => .ok navigation
  | none => .error ⟨c.name ++ "." ++ name⟩

/-- The first function whose name differs in case only. -/
def function (name : String) : Except NameNotFound String :=
  match s.functions.find? fun f ↦ Text.sameIgnoringCase f name with
  | some f => .ok (s.qualified f)
  | none => .error ⟨name⟩

/-- A name with a point in it is taken to have its namespace. -/
def type (name : String) : String :=
  if '.' ∈ name.toList then name else s.qualified name

def isStringField (collection name : String) : Bool :=
  match s.field collection name with
  | .ok (_, kind) => kind = .string
  | .error _ => false

def resolver : Resolver where
  collection name := (s.collection name).map EntitySet.name
  field collection name := (s.field collection name).map Prod.fst
  navigation collection name := (s.navigation collection name).map Navigation.name
  isMultivalued collection name := (s.navigation collection name).map Navigation.multivalued
  target collection name := do
    let navigation ← s.navigation collection name
    let target ← s.collection navigation.target
    return target.name
  function := s.function
  type name := .ok (s.type name)
  isStringField := s.isStringField

end Schema
end OData
