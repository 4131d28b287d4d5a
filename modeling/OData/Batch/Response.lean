import OData.Batch.Error
import OData.Response.Payload

/-!
The response to a batch: one part a read, and one part with several responses for all writes.
-/

namespace OData

/-- The notation that a response says it is in, else the given one. -/
def Response.payloadFormat (r : Response) (default : PayloadFormat) : PayloadFormat :=
  ((r.header? "Content-Type").bind PayloadFormat.ofContentType?).getD default

structure PartResponse where
  response : Response
  contentId : Option String
  deriving DecidableEq, Repr

namespace PartResponse

/-- Redirections count as success. -/
def isSuccess (p : PartResponse) : Bool :=
  200 ≤ p.response.status && p.response.status < 400

def header? (p : PartResponse) (name : String) : Option String :=
  p.response.header? name

def node (p : PartResponse) (default : PayloadFormat) : Except ReadError Node :=
  Node.ofBody (p.response.payloadFormat default) p.response.body

end PartResponse

/-- What came back for one operation: a response, or a text that is none. -/
inductive PartOutcome
  | response (p : PartResponse)
  | fault (e : InvalidStatusLine)
  deriving DecidableEq, Repr

inductive ResponsePart
  | single (outcome : PartOutcome)
  | changeset (outcomes : List PartOutcome)
  deriving DecidableEq, Repr

def PartOutcome.ofPart (p : Multipart.Part) : PartOutcome :=
  match Response.ofChars p.body.toList with
  | .ok r => .response ⟨r, p.header? "Content-ID"⟩
  | .error e => .fault e

namespace ResponsePart

/-- Whether a content type is that of a document with parts of its own. -/
def isMultipart (contentType : String) : Bool :=
  (Text.afterPrefix? "multipart/mixed".toList (Text.lower contentType.toList)).isSome

/-- A part with parts of its own is a changeset. -/
def ofPart (p : Multipart.Part) : Except MultipartFault ResponsePart :=
  let contentType := p.contentType?.getD ""
  if isMultipart contentType then do
    let boundary ← Multipart.boundary contentType
    let parts ← Multipart.split boundary p.body
    return .changeset (parts.map PartOutcome.ofPart)
  else .ok (.single (PartOutcome.ofPart p))

def ofBody (contentType body : String) : Except MultipartFault (List ResponsePart) := do
  let boundary ← Multipart.boundary contentType
  let parts ← Multipart.split boundary body
  parts.mapM ofPart

end ResponsePart
end OData
