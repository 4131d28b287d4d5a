import OData.Batch.Layout
import OData.Batch.Response

/-!
The response to a batch, brought back to its operations: every part goes to the operation that it
answers, and callbacks hear of it in the order of the operations, up to the first that failed.
-/

namespace OData

def setOutcomes : List Nat → List PartOutcome → List (Option PartOutcome) →
    List (Option PartOutcome)
  | index :: indices, outcome :: rest, outcomes =>
    setOutcomes indices rest (outcomes.set index (some outcome))
  | _, _, outcomes => outcomes

/-- The outcomes after one part. A changeset that is answered as a whole is answered at its first
operation. -/
def correlatePart (outcomes : List (Option PartOutcome)) :
    Slot Nat → ResponsePart → Except BatchError (List (Option PartOutcome))
  | .read index, .single outcome => .ok (outcomes.set index (some outcome))
  | .changeset indices, .changeset answers =>
    if indices.length = answers.length then .ok (setOutcomes indices answers outcomes)
    else .error (.partCountMismatch indices.length answers.length)
  | .changeset indices, .single outcome => .ok (setOutcomes indices [outcome] outcomes)
  | .read index, .changeset _ => .error (.malformed (.changesetForRead index))

def correlateParts : List (Slot Nat) → List ResponsePart → List (Option PartOutcome) →
    Except BatchError (List (Option PartOutcome))
  | slot :: slots, part :: parts, outcomes => do
    let outcomes ← correlatePart outcomes slot part
    correlateParts slots parts outcomes
  | _, _, outcomes => .ok outcomes

/-- The outcome of each of `count` operations, where the response has one. -/
def correlate (layout : List (Slot Nat)) (parts : List ResponsePart) (count : Nat) :
    Except BatchError (List (Option PartOutcome)) :=
  if layout.length = parts.length then
    correlateParts layout parts (List.replicate count none)
  else .error (.partCountMismatch layout.length parts.length)

/-- What an outcome means for the operation at an index. -/
def PartOutcome.result (index : Nat) : Option PartOutcome → Except BatchError PartResponse
  | some (.response p) =>
    if p.isSuccess then .ok p
    else .error (.remoteOperation index p.response.status p.response.body)
  | some (.fault e) => .error (.partFault index e)
  | none => .error (.malformed (.noResponse index))

structure Notification (κ : Type) where
  callback : κ
  result : Except BatchError PartResponse

/-- The callbacks that hear of a response, in order, and what the call as a whole comes to. -/
structure Dispatch (κ ε : Type) where
  notifications : List (Notification κ)
  result : Except ε (List PartResponse)

/-- Hands out the outcomes of operations from an index on. The first failure ends it: the callback
of that operation is the last to hear, and the failure is the result. -/
def dispatchFrom {κ : Type} (index : Nat) :
    List (Option PartOutcome) → List (Option κ) → Dispatch κ BatchError
  | outcome :: outcomes, callback :: callbacks =>
    let result := PartOutcome.result index outcome
    let notification := callback.toList.map fun c ↦ ⟨c, result⟩
    match result with
    | .ok response =>
      let later := dispatchFrom (index + 1) outcomes callbacks
      ⟨notification ++ later.notifications, later.result.map (response :: ·)⟩
    | .error e => ⟨notification, .error e⟩
  | _, _ => ⟨[], .ok []⟩

namespace Batch

variable {κ : Type} (b : Batch κ)

/-- The outcomes of the operations, from the body of a response. -/
def outcomes (contentType body : String) : Except BatchError (List (Option PartOutcome)) := do
  let parts ← BatchError.ofMultipart (ResponsePart.ofBody contentType body)
  correlate b.layout parts b.size

def dispatch (contentType body : String) : Dispatch κ BatchError :=
  match b.outcomes contentType body with
  | .ok outcomes => dispatchFrom 0 outcomes (b.operations.map Operation.callback)
  | .error e => ⟨[], .error e⟩

end Batch
end OData
