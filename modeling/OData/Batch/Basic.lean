import OData.Batch.Error
import OData.Service.Request

/-!
Batches: operations in the order of their calls, each as the request that it becomes. Writes are
numbered, and entities that are inserted can be referred to by the number of their part.
-/

namespace OData

/-- An operation that waits in a batch. A write has the number of its part; `callback` is what hears
of the operation's response. -/
structure Operation (κ : Type) where
  request : Request
  contentId : Option Nat
  callback : Option κ := none

/-- Whether an operation belongs to the changeset. -/
def Operation.isWrite {κ : Type} (op : Operation κ) : Bool :=
  op.contentId.isSome

/-- An operation by its place in the batch, and by the number of its part if it is a write. -/
structure PartHandle where
  index : Nat
  contentId : Option Nat
  deriving DecidableEq, Repr

/-- How later operations refer to the entity of this one. -/
def PartHandle.reference? (h : PartHandle) : Option String :=
  h.contentId.map contentReference

/-- A batch under construction, with the boundaries of its document and of the changeset in it. -/
structure Batch (κ : Type) where
  service : Service
  boundary : String
  changesetBoundary : String
  operations : List (Operation κ) := []
  pending : List PendingEntity := []
  nextContentId : Nat := 1

inductive BatchCall
  | insert (entity : EntityId) (collection : String) (entry : Record) (links : List Link)
  | update (target : Target) (entry : Record) (links : List Link)
  | delete (target : Target)
  | link (source : Target) (navigation : String) (target : Target)
  | unlink (source : Target) (navigation : String) (target : Option Target)
  | action (command : Command) (arguments : Record)
  | get (command : Command)

namespace Batch

variable {κ : Type} (b : Batch κ)

def size : Nat :=
  b.operations.length

def isEmpty : Bool :=
  b.operations.isEmpty

def pushWrite (request : Request) : PartHandle × Batch κ :=
  (⟨b.size, some b.nextContentId⟩,
    { b with
      operations := b.operations ++ [{ request, contentId := some b.nextContentId }]
      nextContentId := b.nextContentId + 1 })

def pushRead (request : Request) : PartHandle × Batch κ :=
  (⟨b.size, none⟩, { b with operations := b.operations ++ [{ request, contentId := none }] })

/-- An entity is inserted once; later operations can refer to it. -/
def insert (entity : EntityId) (collection : String) (entry : Record) (links : List Link) :
    Except BatchError (PartHandle × Batch κ) := do
  if b.pending.any (·.entity = entity) then throw (.malformed .alreadyInserted)
  let (request, exact) ←
    BatchError.ofFormat (b.service.insertRequest b.pending collection entry links)
  let (handle, after) := b.pushWrite request
  return (handle, { after with pending := b.pending ++ [⟨entity, b.nextContentId, exact⟩] })

def write (request : Except FormatError Request) : Except BatchError (PartHandle × Batch κ) :=
  (BatchError.ofFormat request).map b.pushWrite

/-- Puts an operation into the batch. A call that fails leaves the batch as it is. -/
def call : BatchCall → Except BatchError (PartHandle × Batch κ)
  | .insert entity collection entry links => b.insert entity collection entry links
  | .update target entry links => b.write (b.service.updateRequest b.pending target entry links)
  | .delete target => b.write (b.service.deleteRequest b.pending target)
  | .link source navigation target =>
    b.write (b.service.linkRequest b.pending source navigation target)
  | .unlink source navigation target =>
    b.write (b.service.unlinkRequest b.pending source navigation target)
  | .action command arguments => b.write (b.service.actionRequest command arguments)
  | .get command => (BatchError.ofFormat (b.service.queryRequest command)).map b.pushRead

/-- Sets what hears of the response to an operation, in place of what did before. -/
def onResponse (handle : PartHandle) (callback : κ) : Batch κ :=
  { b with
    operations := b.operations.modify handle.index fun op ↦ { op with callback := some callback } }

end Batch
end OData
