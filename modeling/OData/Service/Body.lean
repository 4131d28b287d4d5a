import OData.Service.Basic
import OData.Value.Json

/-!
The bodies of requests: the fields of an entity, followed by the navigations that are bound with it.
-/

namespace OData.Service

variable (s : Service)

def fieldsJson (record : Record) : List (String × Json) :=
  Value.fieldsToJson s.version record

/-- The member that binds a navigation, and what it refers to the target with. -/
def binding (navigation uri : String) : String × Json :=
  match s.version with
  | .v4 => (navigation ++ "@odata.bind", .string uri)
  | .v3 => (navigation, .object [("__metadata", .object [("uri", .string uri)])])

/-- A body with one more binding: the references of a navigation to several entities stand in an
array, any other has the reference of its last binding. -/
def bind (multivalued : Bool) (member : String) (reference : Json) (body : List (String × Json)) :
    List (String × Json) :=
  if multivalued then
    match Fields.find? member body with
    | some (.array items) => Fields.put member (.array (items ++ [reference])) body
    | _ => Fields.put member (.array [reference]) body
  else Fields.put member reference body

def bindLinks (pending : List PendingEntity) (collection : Option String) :
    List Link → List (String × Json) → Except FormatError (List (String × Json))
  | [], body => .ok body
  | link :: rest, body => do
    let location ← s.locate pending link.target
    let (navigation, multivalued) ← s.navigation collection link.navigation
    let (member, reference) := s.binding navigation location.uri
    bindLinks pending collection rest (bind multivalued member reference body)

def entityBody (pending : List PendingEntity) (collection : Option String) (entry : Record)
    (links : List Link) : Except FormatError String := do
  let body ← s.bindLinks pending collection links (s.fieldsJson entry)
  return (Json.object body).text

def referenceBody (uri : String) : String :=
  match s.version with
  | .v4 => (Json.object [("@odata.id", .string uri)]).text
  | .v3 => (Json.object [("uri", .string uri)]).text

end OData.Service
