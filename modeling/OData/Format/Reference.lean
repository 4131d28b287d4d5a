import OData.Expr.Function
import OData.Format.Error
import OData.Text.Search

/-!
Paths to properties, resolved segment by segment: a segment is a field of the collection reached so
far, or a navigation to another collection, or a function of all that stands before it.
-/

namespace OData

/-- A path with exact names. `segments` is what has been written of it, `collection` where its next
segment is looked for, `field` the property that it has reached with its collection; `wrapped` tells
that a function stands around it. -/
structure ResolvedPath where
  collection : Option String
  segments : List (List Char)
  field : Option (String × String)
  wrapped : Bool
  deriving DecidableEq, Repr

namespace ResolvedPath

def start (collection : Option String) : ResolvedPath :=
  ⟨collection, [], none, false⟩

/-- The segments with slashes between them. -/
def chars (p : ResolvedPath) : List Char :=
  List.intercalate ['/'] p.segments

def push (p : ResolvedPath) (segment : List Char) : ResolvedPath :=
  { p with segments := p.segments ++ [segment] }

def wrap (p : ResolvedPath) (function : String) : ResolvedPath :=
  { p with segments := [function.toList ++ '(' :: p.chars ++ [')']], wrapped := true }

variable (r : Resolver) (version : Version)

/-- A segment as a function of the path. -/
def stepFunction? (segment : String) (p : ResolvedPath) : Option ResolvedPath :=
  if p.segments = [] then none
  else (lookupFunction version segment 0).map fun form ↦ p.wrap form.name

/-- A segment that is no property of the collection reached. Behind a field, and where no collection
is known, it stands as it is written. -/
def stepOther (path segment : String) (p : ResolvedPath) : Except FormatError ResolvedPath :=
  match stepFunction? version segment p with
  | some q => .ok q
  | none =>
    if p.field.isSome || p.collection.isNone then .ok (p.push segment.toList)
    else .error (.unresolvedReference segment path)

def step (path segment : String) (p : ResolvedPath) : Except FormatError ResolvedPath :=
  match p.field, p.collection with
  | none, some collection =>
    match r.field collection segment with
    | .ok name => .ok { p.push name.toList with field := some (collection, name) }
    | .error _ =>
      match r.navigation collection segment with
      | .ok name => do
        let target ← FormatError.ofName (r.target collection name)
        return { p.push name.toList with collection := some target }
      | .error _ => stepOther version path segment p
  | _, _ => stepOther version path segment p

def steps (path : String) : List (List Char) → ResolvedPath → Except FormatError ResolvedPath
  | [], p => .ok p
  | segment :: rest, p => do
    let p ← step r version path (String.ofList segment) p
    steps path rest p

end ResolvedPath

/-- The segments of a path: what stands between points and slashes, without empty pieces. -/
def pathSegments (path : String) : List (List Char) :=
  (Text.pieces (fun c ↦ c = '.' || c = '/') path.toList).filter (· ≠ [])

/-- Resolves a path from a collection, or from nowhere. -/
def resolvePath (r : Resolver) (version : Version) (collection : Option String) (path : String) :
    Except FormatError ResolvedPath :=
  ResolvedPath.steps r version path (pathSegments path) (.start collection)

end OData
