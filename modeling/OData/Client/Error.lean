import OData.Batch.Error
import OData.Response.Error

/-!
Why an exchange with a service fails.
-/

namespace OData

/-- A request that brought no response. -/
structure TransportFault where
  reason : String
  deriving DecidableEq, Repr

def TransportFault.message (fault : TransportFault) : String :=
  "Transport fault: " ++ fault.reason

inductive ClientError
  | format (e : FormatError)
  | read (e : ReadError)
  | batch (e : BatchError)
  /-- The service answered with a status that is no success. -/
  | remoteOperation (status : Nat) (body : String)
  | transport (fault : TransportFault)

namespace ClientError

/-- Texts that are no JSON or no XML are not described. -/
def message? : ClientError → Option String
  | format e => some ("Format error: " ++ e.message)
  | read e => e.message?.map ("Read error: " ++ ·)
  | batch e => some ("Batch error: " ++ e.message)
  | remoteOperation status body =>
    some ("Remote operation failed with status " ++ toString status ++ ": " ++ body)
  | transport fault => some fault.message

/-- The failure of a batch; which of its operations failed is not kept. -/
def ofBatch : BatchError → ClientError
  | .remoteOperation _ status body => remoteOperation status body
  | .partFault _ fault => transport ⟨(BatchFault.statusLine fault).message⟩
  | .format e => format e
  | e => batch e

end ClientError
end OData
