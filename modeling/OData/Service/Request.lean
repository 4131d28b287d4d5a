import OData.Service.Body

/-!
The requests for reading and writing the entities of a service, for the links between them, and for
functions and actions.
-/

namespace OData.Service

variable (s : Service)

/-- A request that says in which notation the answer is to be. -/
def request (method : Method) (uri : String) : Request :=
  { method, uri, headers := [("Accept", s.format.mediaType)] }

/-- A request with a body; entities are always written as JSON. -/
def writeRequest (method : Method) (uri body : String) : Request :=
  let contentType :=
    match s.version with
    | .v3 => "application/json;odata=verbose"
    | .v4 => "application/json"
  { (s.request method uri).withHeader "Content-Type" contentType with body := some body }

/-- A request that asks for the written entity, where that is preferred. -/
def withPreference (r : Request) : Request :=
  if s.prefersRepresentation then
    match s.version with
    | .v3 => r.withHeader "Prefer" "return-content"
    | .v4 => r.withHeader "Prefer" "return=representation"
  else r

def queryRequest (command : Command) : Except FormatError Request := do
  let uri ← s.formatting.uri command
  return s.request .get (s.absolute uri)

variable (pending : List PendingEntity)

/-- Inserts an entity; the exact name of the collection that it goes to comes with the request. -/
def insertRequest (collection : String) (entry : Record) (links : List Link) :
    Except FormatError (Request × String) := do
  let exact ← FormatError.ofName (s.resolver.collection collection)
  let body ← s.entityBody pending (some exact) entry links
  return (s.withPreference (s.writeRequest .post (s.absolute exact) body), exact)

/-- Changes the given fields of an entity, whatever its version. -/
def updateRequest (target : Target) (entry : Record) (links : List Link) :
    Except FormatError Request := do
  let location ← s.locate pending target
  let method :=
    match s.version with
    | .v3 => Method.merge
    | .v4 => Method.patch
  let body ← s.entityBody pending location.collection entry links
  return s.withPreference ((s.writeRequest method location.uri body).withHeader "If-Match" "*")

/-- Deletes an entity, whatever its version. -/
def deleteRequest (target : Target) : Except FormatError Request := do
  let location ← s.locate pending target
  return (s.request .delete location.uri).withHeader "If-Match" "*"

def referencesUri (source navigation : String) : String :=
  match s.version with
  | .v4 => source ++ "/" ++ navigation ++ "/$ref"
  | .v3 => source ++ "/$links/" ++ navigation

/-- Makes a navigation of the source lead to the target. -/
def linkRequest (source : Target) (navigation : String) (target : Target) :
    Except FormatError Request := do
  let source ← s.locate pending source
  let target ← s.locate pending target
  let (navigation, multivalued) ← s.navigation source.collection navigation
  let method := if multivalued then Method.post else Method.put
  return s.writeRequest method (s.referencesUri source.uri navigation) (s.referenceBody target.uri)

/-- What tells the target from the other entities that a navigation leads to. -/
def member (target : Location) : Except FormatError String :=
  match s.version, target.key with
  | .v4, _ => .ok ("?$id=" ++ Text.escape s.formatting.escapeMode target.uri)
  | .v3, some key => (s.formatting.key target.collection key).map String.ofList
  | .v3, none => .ok ""

/-- Makes a navigation of the source lead to the target no longer. A navigation to one entity needs
no target. -/
def unlinkRequest (source : Target) (navigation : String) (target : Option Target) :
    Except FormatError Request := do
  let source ← s.locate pending source
  let (navigation, multivalued) ← s.navigation source.collection navigation
  let member ←
    match multivalued, target with
    | true, some target => do s.member (← s.locate pending target)
    | _, _ => pure ""
  return s.request .delete (s.referencesUri source.uri navigation ++ member)

def actionRequest (command : Command) (arguments : Record) : Except FormatError Request :=
  match command.clauses.action with
  | none => .error (.malformedCommand .noAction)
  | some _ => do
    let uri ← s.formatting.uri command
    let body := (Json.object (s.fieldsJson arguments)).text
    return s.withPreference (s.writeRequest .post (s.absolute uri) body)

def batchRequest (contentType body : String) : Request :=
  { (s.request .post (s.absolute "$batch")).withHeader "Content-Type" contentType with
    body := some body }

end OData.Service
