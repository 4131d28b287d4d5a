import OData.Command
import OData.Format.Filter
import OData.Text.Percent

/-!
The address of a command: the path of its resource, and the clauses of its query in a fixed order.

The newer dialect passes function arguments in the path and nests the options of expanded
navigations; the older one passes arguments in the query and has paths of navigations only.
-/

namespace OData

/-- What formatting depends on beside the command. -/
structure Formatting where
  resolver : Resolver
  version : Version
  escapeMode : Text.EscapeMode := .canonical

/-- A name with a value, in a query or among the options of an expanded navigation. -/
structure Clause where
  name : List Char
  value : List Char
  deriving DecidableEq, Repr

def Clause.chars (c : Clause) : List Char :=
  c.name ++ '=' :: c.value

/-- The path of a resource, and the collection that it leads to. -/
structure Resource where
  path : List Char
  collection : Option String
  deriving DecidableEq, Repr

structure Address where
  path : List Char
  query : List Clause
  deriving DecidableEq, Repr

/-- The clauses stand behind a question mark with ampersands between them. -/
def Address.chars (a : Address) : List Char :=
  if a.query = [] then a.path
  else a.path ++ '?' :: List.intercalate ['&'] (a.query.map Clause.chars)

def addSegment (path segment : List Char) : List Char :=
  if path = [] then segment else path ++ '/' :: segment

/-- Refuses clauses that exclude each other. -/
def Clauses.check (c : Clauses) : Except FormatError Unit :=
  if c.filter.isSome && c.key.isSome then .error (.malformedCommand .filterWithKey)
  else if c.function.isSome && c.action.isSome then .error (.malformedCommand .functionWithAction)
  else .ok ()

namespace Formatting

variable (f : Formatting)

def literal (v : Value) : Except FormatError (List Char) :=
  Filter.literal f.version v

def escaped (cs : List Char) : List Char :=
  Text.escapeChars f.escapeMode cs

def resolve (collection : Option String) (path : String) : Except FormatError (List Char) :=
  (resolvePath f.resolver f.version collection path).map ResolvedPath.chars

def filter (collection : Option String) (e : Expr) : Except FormatError (List Char) :=
  Filter.chars f.resolver f.version collection e

def keyPart (collection : Option String) (part : String × Value) : Except FormatError Clause := do
  let name ←
    match collection with
    | some collection => FormatError.ofName (f.resolver.field collection part.1)
    | none => .ok part.1
  let value ← f.literal part.2
  return ⟨name.toList, value⟩

/-- The key of an entity in parentheses; the name of a part is left out where there is only one. -/
def key (collection : Option String) : Key → Except FormatError (List Char)
  | .single v => (f.literal v).map Filter.parenthesized
  | .composite [(_, v)] => (f.literal v).map Filter.parenthesized
  | .composite parts => do
    let parts ← parts.mapM (f.keyPart collection)
    return Filter.parenthesized (List.intercalate [','] (parts.map Clause.chars))

/-- A resource with the key and the derived type of its clauses. -/
def refine (resource : Resource) (c : Clauses) : Except FormatError Resource := do
  let path ←
    match c.key with
    | some key => (f.key resource.collection key).map (resource.path ++ ·)
    | none => .ok resource.path
  let path ←
    match c.derivedType with
    | some type =>
      (FormatError.ofName (f.resolver.type type)).map fun name ↦ addSegment path name.toList
    | none => .ok path
  return ⟨path, resource.collection⟩

def resource : Command → Except FormatError Resource
  | .service c => f.refine ⟨[], none⟩ c
  | .collection name c => do
    let exact ← FormatError.ofName (f.resolver.collection name)
    f.refine ⟨exact.toList, some exact⟩ c
  | .navigation parent name c => do
    let parent ← resource parent
    match parent.collection with
    | none => .error (.malformedCommand (.rootNavigation name))
    | some collection =>
      let link ← FormatError.ofName (f.resolver.navigation collection name)
      let target ← FormatError.ofName (f.resolver.target collection link)
      f.refine ⟨parent.path ++ '/' :: link.toList, some target⟩ c

/-- The name of a function or action; without a resource it goes by the last part of its name. -/
def operationName (bound : Bool) (name : String) : Except FormatError (List Char) := do
  let qualified ← FormatError.ofName (f.resolver.function name)
  return if bound then qualified.toList
    else (qualified.toList.reverse.takeWhile (· ≠ '.')).reverse

def queryArgument (argument : String × Value) : Except FormatError Clause := do
  let value ← f.literal argument.2
  return ⟨argument.1.toList, f.escaped value⟩

/-- The name that stands for the collection with number `n` among the arguments. -/
def parameterAlias (n : Nat) : List Char :=
  '@' :: 'p' :: Text.decimal n

/-- Arguments in the path, with `used` names for collections given out before; the collections
follow in the query under such names. -/
def pathArguments (used : Nat) :
    List (String × Value) → Except FormatError (List Clause × List Clause)
  | [] => .ok ([], [])
  | (name, v) :: rest => do
    let value ← f.literal v
    match v with
    | .collection _ =>
      let (inline, bound) ← pathArguments (used + 1) rest
      return (⟨name.toList, parameterAlias (used + 1)⟩ :: inline,
        ⟨parameterAlias (used + 1), f.escaped value⟩ :: bound)
    | _ =>
      let (inline, bound) ← pathArguments used rest
      return (⟨name.toList, value⟩ :: inline, bound)

/-- The segment of a function with the clauses that its arguments take. -/
def invocation (bound : Bool) (i : Invocation) : Except FormatError (List Char × List Clause) := do
  let name ← f.operationName bound i.name
  match f.version with
  | .v3 =>
    let arguments ← i.arguments.mapM f.queryArgument
    return (name, arguments)
  | .v4 =>
    let (inline, aliases) ← f.pathArguments 0 i.arguments
    let list := List.intercalate [','] (inline.map Clause.chars)
    return (name ++ Filter.parenthesized list, aliases)

/-- A selected path; an asterisk selects everything. -/
def selected (collection : Option String) (path : String) : Except FormatError (List Char) :=
  if path = "*" then .ok ['*'] else f.resolve collection path

def ordered (collection : Option String) (item : String × Direction) :
    Except FormatError (List Char) := do
  let path ← f.resolve collection item.1
  return match item.2 with
    | .ascending => path
    | .descending => path ++ " desc".toList

def commaSeparated (items : List (List Char)) : List Char :=
  List.intercalate [','] items

/-- The exact segments of a path of navigations, and the collection it leads to. -/
def navigationPath : Option String → List (List Char) →
    Except FormatError (List (List Char) × Option String)
  | collection, [] => .ok ([], collection)
  | none, segment :: rest => do
    let (segments, target) ← navigationPath none rest
    return (segment :: segments, target)
  | some collection, segment :: rest => do
    let name ← FormatError.ofName (f.resolver.navigation collection (String.ofList segment))
    let target ← FormatError.ofName (f.resolver.target collection name)
    let (segments, target) ← navigationPath (some target) rest
    return (name.toList :: segments, target)

/-- The clauses of an expanded navigation, those for the navigations below it apart. -/
def expandOptions (target : Option String) (o : ExpandOptions) :
    Except FormatError (List Clause) := do
  let select ←
    if o.select = [] then .ok []
    else (o.select.mapM (f.selected target)).map fun fields ↦
      [⟨"$select".toList, commaSeparated fields⟩]
  let filter ←
    match o.filter with
    | some e => (f.filter target e).map fun text ↦ [⟨"$filter".toList, f.escaped text⟩]
    | none => .ok []
  let orderBy ←
    if o.orderBy = [] then .ok []
    else (o.orderBy.mapM (f.ordered target)).map fun items ↦
      [⟨"$orderby".toList, commaSeparated items⟩]
  let top :=
    match o.top with
    | some n => [⟨"$top".toList, Text.decimal n⟩]
    | none => []
  return select ++ filter ++ orderBy ++ top

/-- An expanded path: each segment but the first stands among the options of the one before it, and
the options belong to the last. -/
def nestedSegments (options : List Clause) : List (List Char) → Except FormatError (List Char)
  | [] => .error (.malformedCommand .emptyExpandPath)
  | [last] =>
    .ok (if options = [] then last
      else last ++ Filter.parenthesized (List.intercalate [';'] (options.map Clause.chars)))
  | segment :: rest => do
    let inner ← nestedSegments options rest
    return segment ++ Filter.parenthesized (Clause.chars ⟨"$expand".toList, inner⟩)

mutual

/-- An expanded navigation with its options in parentheses. -/
def nestedExpand (collection : Option String) : Expand → Except FormatError (List Char)
  | .node path options nested => do
    let (segments, target) ← f.navigationPath collection (pathSegments path)
    let options ← f.expandOptions target options
    let below ← nestedExpands target nested
    let below := if below = [] then [] else [⟨"$expand".toList, commaSeparated below⟩]
    nestedSegments (options ++ below) segments

def nestedExpands (collection : Option String) : List Expand → Except FormatError (List (List Char))
  | [] => .ok []
  | e :: rest => do
    let first ← nestedExpand collection e
    let others ← nestedExpands collection rest
    return first :: others

end

mutual

/-- The paths of an expanded navigation and of those below it, and the fields selected on the way;
every path starts from the top. -/
def flatExpand (collection : Option String) (above : List Char) :
    Expand → Except FormatError (List (List Char) × List (List Char))
  | .node path options nested => do
    let (segments, target) ← f.navigationPath collection (pathSegments path)
    let own := List.intercalate ['/'] segments
    let path := if above = [] then own else above ++ '/' :: own
    let fields ← options.select.mapM (f.selected target)
    let fields := fields.map fun field ↦ path ++ '/' :: field
    match nested with
    | [] => return ([path], fields)
    | first :: others =>
      let (paths, more) ← flatExpand target path first
      let (otherPaths, evenMore) ← flatExpands target path others
      return (paths ++ otherPaths, fields ++ more ++ evenMore)

def flatExpands (collection : Option String) (above : List Char) :
    List Expand → Except FormatError (List (List Char) × List (List Char))
  | [] => .ok ([], [])
  | e :: rest => do
    let (paths, fields) ← flatExpand collection above e
    let (otherPaths, otherFields) ← flatExpands collection above rest
    return (paths ++ otherPaths, fields ++ otherFields)

end

/-- The clause that expands navigations, and the fields that it adds to the selected ones. -/
def expandClause (collection : Option String) (expands : List Expand) :
    Except FormatError (List Clause × List (List Char)) := do
  if expands.isEmpty then return ([], [])
  match f.version with
  | .v4 =>
    let items ← f.nestedExpands collection expands
    return ([⟨"$expand".toList, commaSeparated items⟩], [])
  | .v3 =>
    let (paths, fields) ← f.flatExpands collection [] expands
    return ([⟨"$expand".toList, commaSeparated paths⟩], fields)

def filterClause (collection : Option String) (filter : Option Expr) :
    Except FormatError (List Clause) :=
  match filter with
  | none => .ok []
  | some e => do
    let text ← f.filter collection e
    return if text = [] then [] else [⟨"$filter".toList, f.escaped text⟩]

/-- Only the newer dialect can search. -/
def searchClause (search : Option String) : List Clause :=
  match f.version, search with
  | .v4, some terms => if terms = "" then [] else [⟨"$search".toList, f.escaped terms.toList⟩]
  | _, _ => []

def expressionClause (collection : Option String) (option : String × Expr) :
    Except FormatError Clause := do
  let text ← f.filter collection option.2
  return ⟨option.1.toList, f.escaped text⟩

def numberClause (name : String) : Option Nat → List Clause
  | some n => [⟨name.toList, Text.decimal n⟩]
  | none => []

def listClause (name : String) (items : List (List Char)) : List Clause :=
  if items = [] then [] else [⟨name.toList, commaSeparated items⟩]

/-- The clause that asks for the number of entities beside them. -/
def countClause : CountMode → List Clause
  | .inline =>
    match f.version with
    | .v3 => [⟨"$inlinecount".toList, "allpages".toList⟩]
    | .v4 => [⟨"$count".toList, "true".toList⟩]
  | _ => []

/-- The clauses of a query but for the arguments of a function. -/
def clauses (collection : Option String) (c : Clauses) : Except FormatError (List Clause) := do
  let filter ← f.filterClause collection c.filter
  let expressions ← c.expressionOptions.mapM (f.expressionClause collection)
  let select ← c.select.mapM (f.selected collection)
  let (expand, fields) ← f.expandClause collection c.expand
  let orderBy ← c.orderBy.mapM (f.ordered collection)
  return filter ++ f.searchClause c.search ++
    c.queryOptions.map (fun (name, value) ↦ ⟨name.toList, value.toList⟩) ++ expressions ++
    numberClause "$skip" c.skip ++ numberClause "$top" c.top ++ expand ++
    listClause "$select" (select ++ fields) ++ listClause "$orderby" orderBy ++
    f.countClause c.count

/-- What stands behind the resource: the count alone, or the raw content. -/
def finalSegment (c : Clauses) (path : List Char) : List Char :=
  match c.count with
  | .only => addSegment path "$count".toList
  | _ => if c.media then addSegment path "$value".toList else path

def address (command : Command) : Except FormatError Address := do
  let c := command.clauses
  c.check
  let resource ← f.resource command
  let (path, arguments) ←
    match c.function with
    | some i =>
      (f.invocation command.isBound i).map fun (segment, arguments) ↦
        (addSegment resource.path segment, arguments)
    | none => .ok (resource.path, [])
  let path ←
    match c.action with
    | some name => (f.operationName command.isBound name).map (addSegment path)
    | none => .ok path
  let clauses ← f.clauses resource.collection c
  return ⟨finalSegment c path, arguments ++ clauses⟩

/-- The path of a command's resource, and the collection that it leads to. -/
def checkedResource (command : Command) : Except FormatError Resource := do
  command.clauses.check
  f.resource command

/-- The address of a command relative to the service. -/
def uri (command : Command) : Except FormatError String :=
  (f.address command).map fun a ↦ String.ofList a.chars

/-- The path of a command relative to the service: its resource with key and derived type. -/
def path (command : Command) : Except FormatError String :=
  (f.checkedResource command).map fun r ↦ String.ofList r.path

end Formatting
end OData
