/-!
What formatting asks of a service's schema: the exact spelling of names, and what they stand for.
-/

namespace OData

/-- A name that the schema does not know. -/
structure NameNotFound where
  name : String
  deriving DecidableEq, Repr

def NameNotFound.message (e : NameNotFound) : String :=
  "Name not found: '" ++ e.name ++ "'"

/-- A view of a schema. Names are asked for in any spelling that the schema accepts, and answered in
the exact one. -/
structure Resolver where
  collection : (name : String) → Except NameNotFound String
  field : (collection name : String) → Except NameNotFound String
  navigation : (collection name : String) → Except NameNotFound String
  isMultivalued : (collection navigation : String) → Except NameNotFound Bool
  /-- The collection that a navigation leads to. -/
  target : (collection navigation : String) → Except NameNotFound String
  /-- The name of a function or action with its namespace. -/
  function : (name : String) → Except NameNotFound String
  /-- The name of an entity type with its namespace. -/
  type : (name : String) → Except NameNotFound String := fun name ↦ .ok name
  isStringField : (collection name : String) → Bool := fun _ _ ↦ false

/-- The same names, without knowledge of types. -/
def Resolver.withoutTypes (r : Resolver) : Resolver where
  collection := r.collection
  field := r.field
  navigation := r.navigation
  isMultivalued := r.isMultivalued
  target := r.target
  function := r.function

end OData
