import OData.Batch.Basic

/-!
Where the operations of a batch stand in its document: every read in a part of its own, and all
writes in one changeset at the place of the first.
-/

namespace OData

/-- A part of the document: one read, or the writes of the changeset. -/
inductive Slot (α : Type)
  | read (a : α)
  | changeset (writes : List α)
  deriving DecidableEq, Repr

namespace Slot

variable {α β : Type}

def map (f : α → β) : Slot α → Slot β
  | read a => read (f a)
  | changeset writes => changeset (writes.map f)

def toList : Slot α → List α
  | read a => [a]
  | changeset writes => writes

/-- Items in slots: the first write takes all later ones with it. -/
def arrange (isWrite : α → Bool) : List α → List (Slot α)
  | [] => []
  | a :: rest =>
    if isWrite a then
      changeset (a :: rest.filter isWrite) :: (rest.filter (!isWrite ·)).map read
    else read a :: arrange isWrite rest

end Slot

def Operation.part {κ : Type} (op : Operation κ) : Multipart.Part where
  headers := [("Content-Type", "application/http"), ("Content-Transfer-Encoding", "binary")] ++
    match op.contentId with
    | some n => [("Content-ID", toString n)]
    | none => []
  body := String.ofList op.request.chars

/-- A batch as the body of a request. -/
structure BatchPayload where
  contentType : String
  body : String
  deriving DecidableEq, Repr

namespace Batch

variable {κ : Type} (b : Batch κ)

/-- The places of the operations in the batch, as they stand in the document. -/
def layout : List (Slot Nat) :=
  (Slot.arrange (fun (op, _) ↦ Operation.isWrite op) b.operations.zipIdx).map (Slot.map Prod.snd)

def slotPart : Slot (Operation κ) → Multipart.Part
  | .read op => op.part
  | .changeset writes => Multipart.nested b.changesetBoundary (writes.map Operation.part)

def payload : BatchPayload where
  contentType := Multipart.contentType b.boundary
  body := Multipart.text b.boundary ((Slot.arrange Operation.isWrite b.operations).map b.slotPart)

end Batch
end OData
