import OData.Format.Error
import OData.Http.Message
import OData.Multipart

/-!
Why a batch cannot be built, or its response not be taken apart.
-/

namespace OData

/-- Ways in which a batch or its response breaks the rules. -/
inductive BatchFault
  | multipart (fault : MultipartFault)
  | statusLine (fault : InvalidStatusLine)
  /-- A changeset where the response to one read is expected. -/
  | changesetForRead (index : Nat)
  | noResponse (index : Nat)
  | alreadyInserted
  | noContentType
  deriving DecidableEq, Repr

def BatchFault.detail : BatchFault → String
  | multipart fault => fault.message
  | statusLine fault => fault.message
  | changesetForRead index =>
    "expected a single response for operation " ++ toString index ++ ", found a changeset"
  | noResponse index => "no response for operation " ++ toString index
  | alreadyInserted => "entity is already inserted in this batch"
  | noContentType => "batch response has no Content-Type"

def BatchFault.message (fault : BatchFault) : String :=
  "Malformed batch response: " ++ fault.detail

inductive BatchError
  | malformed (fault : BatchFault)
  | partCountMismatch (expected actual : Nat)
  | format (e : FormatError)
  /-- The service answered an operation with a status that is no success. -/
  | remoteOperation (index status : Nat) (body : String)
  /-- The answer to an operation is no HTTP response. -/
  | partFault (index : Nat) (fault : InvalidStatusLine)
  deriving DecidableEq, Repr

namespace BatchError

def message : BatchError → String
  | malformed fault => fault.message
  | partCountMismatch expected actual =>
    "Batch response has " ++ toString actual ++ " part(s), expected " ++ toString expected
  | format e => e.message
  | remoteOperation index status body =>
    "Batch operation " ++ toString index ++ " failed with status " ++ toString status ++
      ": " ++ body
  | partFault index fault =>
    "Batch operation " ++ toString index ++ " faulted: " ++ (BatchFault.statusLine fault).message

def ofMultipart {α : Type} (answer : Except MultipartFault α) : Except BatchError α :=
  answer.mapError fun fault ↦ malformed (.multipart fault)

def ofFormat {α : Type} (answer : Except FormatError α) : Except BatchError α :=
  answer.mapError format

def ofStatusLine {α : Type} (answer : Except InvalidStatusLine α) : Except BatchError α :=
  answer.mapError fun fault ↦ malformed (.statusLine fault)

end BatchError
end OData
