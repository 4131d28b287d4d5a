import OData.Command

/-!
What a request addresses: an entity of a command, one known by its address, or one that an earlier
request of the same batch inserts.
-/

namespace OData

/-- Who an entity is. Two entities with equal fields are still two. -/
structure EntityId where
  number : Nat
  deriving DecidableEq, Repr

inductive Target
  | entity (command : Command)
  /-- An address that a response gave. -/
  | uri (uri : String)
  /-- An entity without a key yet. -/
  | pending (entity : EntityId)

/-- A navigation of an entity that is written, with what it is to lead to. -/
structure Link where
  navigation : String
  target : Target

/-- An entity that a batch inserts: the number of the part that does, and the collection it goes to.
-/
structure PendingEntity where
  entity : EntityId
  contentId : Nat
  collection : String
  deriving DecidableEq, Repr

/-- The first entity with an identity. -/
def PendingEntity.find? (entity : EntityId) : List PendingEntity → Option PendingEntity
  | [] => none
  | p :: rest => if p.entity = entity then some p else find? entity rest

/-- Where a target is, as far as it is known. -/
structure Location where
  uri : String
  collection : Option String := none
  key : Option Key := none

/-- The reference to the part of a batch with a number. -/
def contentReference (contentId : Nat) : String :=
  "$" ++ toString contentId

end OData
