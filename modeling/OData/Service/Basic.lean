import OData.Format.Command
import OData.Http
import OData.Response.Payload
import OData.Service.Target

/-!
A service as its client sees it, and where the targets of requests are.
-/

namespace OData

/-- A service: its schema and dialect, its address, and how it is asked to answer. -/
structure Service where
  formatting : Formatting
  baseUrl : String := ""
  format : PayloadFormat := .json
  /-- Whether written entities are to be sent back. -/
  prefersRepresentation : Bool := false

namespace Service

variable (s : Service)

def version : Version :=
  s.formatting.version

def resolver : Resolver :=
  s.formatting.resolver

/-- A path behind the address of the service, with one slash between them. -/
def absolute (path : String) : String :=
  if s.baseUrl = "" then path
  else String.ofList (Text.trimRightWhile (· = '/') s.baseUrl.toList) ++ "/" ++ path

/-- Where a target is. An address with a scheme stands for itself; a pending entity is known by the
part that inserts it. -/
def locate (pending : List PendingEntity) : Target → Except FormatError Location
  | .entity command => do
    let resource ← s.formatting.checkedResource command
    return ⟨s.absolute (String.ofList resource.path), resource.collection, command.clauses.key⟩
  | .uri uri =>
    .ok { uri := if Text.occursIn "://".toList uri.toList then uri else s.absolute uri }
  | .pending entity =>
    match PendingEntity.find? entity pending with
    | some p => .ok { uri := contentReference p.contentId, collection := some p.collection }
    | none => .error (.malformedCommand .notInserted)

/-- The exact name of a navigation, and whether it leads to several entities. Where no collection is
known the name stands as it is, and the navigation leads to one. -/
def navigation (collection : Option String) (name : String) : Except FormatError (String × Bool) :=
  match collection with
  | some collection => do
    let exact ← FormatError.ofName (s.resolver.navigation collection name)
    let multivalued ← FormatError.ofName (s.resolver.isMultivalued collection exact)
    return (exact, multivalued)
  | none => .ok (name, false)

end Service
end OData
