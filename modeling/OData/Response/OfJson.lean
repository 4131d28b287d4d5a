import OData.Json.Depth
import OData.Json.Parser
import OData.Number.Reading
import OData.Response.Event
import OData.Response.VerboseDate

/-!
Responses in JSON. A feed is an array of objects, which may stand under `value`, under `d`, or under
`results` within `d`; members with `@odata.` or `odata.` in front, those that start with an `@`, and
`__metadata` are annotations. A nested object, and a nested array of objects, is an expanded link.
-/

namespace OData.OfJson

abbrev Members := List (String × Json)

def startsWith (pattern : String) (name : List Char) : Bool :=
  (Text.afterPrefix? pattern.toList name).isSome

/-- Whether a member is an annotation of the object it stands in. -/
def isMarked (name : String) : Bool :=
  startsWith "odata." name.toList || startsWith "@" name.toList

/-- The name of an annotation without its marks. -/
def annotationName (name : List Char) : String :=
  String.ofList (Text.withoutLeading "odata.".toList (name.dropWhile (· = '@')))

/-- The text of an annotation; what is no string is written as JSON. -/
def textOf : Json → Option String
  | .string s => some s
  | .null => none
  | other => some other.text

/-- A number of entities, which may be written as a string. -/
def countOf : Json → Option Nat
  | .integer n => if 0 ≤ n then some n.toNat else none
  | .string s => (Number.readNatural (UInt64.size - 1) s.toList).toOption
  | _ => none

def feedNote? (name : String) (v : Json) : Option FeedNote :=
  if name = "count" ∨ name = "__count" then some (.count (countOf v))
  else if name = "nextLink" ∨ name = "__next" then some (.nextLink (textOf v))
  else if name = "deltaLink" ∨ name = "__delta" then some (.deltaLink (textOf v))
  else none

/-- An annotation of a feed that stands beside the link it belongs to. -/
def linkNote? (name : String) (v : Json) : Option FeedNote :=
  if name = "count" ∨ name = "nextLink" ∨ name = "deltaLink" then feedNote? name v else none

def entryNote? (name : String) (v : Json) : Option EntryNote :=
  let text := textOf v
  match name with
  | "id" => some (.id text)
  | "type" => some (.typeName (text.map fun t ↦ String.ofList (t.toList.dropWhile (· = '#'))))
  | "etag" => some (.etag text)
  | "editLink" => some (.editLink text)
  | "readLink" => some (.readLink text)
  | "mediaReadLink" => some (.mediaReadLink text)
  | "mediaEditLink" => some (.mediaEditLink text)
  | "mediaContentType" => some (.mediaContentType text)
  | "mediaEtag" => some (.mediaEtag text)
  | _ => none

/-- The annotations of an entry that a member of its `__metadata` makes. -/
def metadataAnnotations (name : String) (v : Json) : List EntryNote :=
  let text := textOf v
  match name with
  | "uri" => [.editLink text, .id text]
  | "type" => [.typeName text]
  | "etag" => [.etag text]
  | "media_src" => [.mediaReadLink text]
  | "edit_media" => [.mediaEditLink text]
  | "content_type" => [.mediaContentType text]
  | "media_etag" => [.mediaEtag text]
  | _ => []

def annotating (annotations : List EntryNote) : List Signal :=
  annotations.map fun a ↦ .event (.entryNote a)

/-- The signals for the annotations of a feed among some members. -/
def feedAnnotations (members : Members) : List Signal :=
  members.filterMap fun (name, v) ↦
    (feedNote? (annotationName name.toList) v).map fun a ↦ .event (.feedNote a)

/-- The properties that some member annotates from beside them. -/
def annotatedProperties (members : Members) : List (List Char) :=
  members.filterMap fun (name, _) ↦
    match Text.cutWhere? (· = '@') name.toList with
    | some ([], _) => none
    | some (property, _) => some property
    | none => none

/-- What a member is to the entry that it stands in. -/
inductive Role
  | metadata
  | ownNote
  /-- An annotation of another member. -/
  | noteOn (property name : List Char)
  | property
  deriving DecidableEq, Repr

def roleOf (name : String) : Role :=
  if name = "__metadata" then .metadata
  else if isMarked name then .ownNote
  else
    match Text.cutWhere? (· = '@') name.toList with
    | some (property, name) => .noteOn property name
    | none => .property

/-- The signals of a member that is no property. -/
def annotationSignals (name : String) (v : Json) : Role → List Signal
  | .metadata =>
    match v with
    | .object members => annotating (members.flatMap fun (name, v) ↦ metadataAnnotations name v)
    | _ => []
  | .ownNote => annotating (entryNote? (annotationName name.toList) v).toList
  | .noteOn property note =>
    match linkNote? (annotationName note) v with
    | some a => [.event (.linkNote (String.ofList property) a)]
    | none => []
  | .property => []

/-- The members of an object, the one of a given name last. -/
def movedLast (name : String) (members : Members) : Members :=
  match Fields.take? name members with
  | some (v, others) => others ++ [(name, v)]
  | none => members

/-- The items of the feed that an object holds under `results`, with the members beside it. -/
def resultsFeed? (members : Members) : Option (List Json × Members) :=
  match Fields.take? "results" members with
  | some (.array items, others) => some (items, others)
  | _ => none

theorem mem_of_mem_movedLast {name : String} {members : Members} {m : String × Json}
    (h : m ∈ movedLast name members) : m ∈ members := by
  unfold movedLast at h
  split at h
  · rename_i v others hv
    obtain ⟨h₁, h₂⟩ := Fields.mem_of_take? hv
    rcases List.mem_append.1 h with h | h
    · exact h₂ m h
    · rw [List.mem_singleton.1 h]
      exact h₁
  · exact h

theorem mem_of_resultsFeed? {members others : Members} {items : List Json}
    (h : resultsFeed? members = some (items, others)) :
    ("results", Json.array items) ∈ members := by
  unfold resultsFeed? at h
  split at h
  · rename_i items' others' hv
    simp only [Option.some.injEq, Prod.mk.injEq] at h
    obtain ⟨rfl, rfl⟩ := h
    exact (Fields.mem_of_take? hv).1
  · simp at h

mutual

/-- The signals of an entry whose members are given. -/
def entrySignals (members : Members) : List Signal :=
  .event .startEntry ::
    members.attach.flatMap
      (fun ⟨(name, v), _⟩ ↦ memberSignals (annotatedProperties members) name v) ++
    [.event .endEntry]
termination_by 2 * Json.membersDepth members + 1
decreasing_by
  rename_i h
  have := Json.depth_le_membersDepth h
  simp only at this
  omega

/-- The signals of a feed whose items are given, with members that may annotate it. -/
def feedSignals (items : List Json) (annotations : Members) : List Signal :=
  .event .startFeed :: feedAnnotations annotations ++
    items.attach.flatMap (fun ⟨item, _⟩ ↦
      match item with
      | .object members => entrySignals members
      | other => [.stop (.malformed (.itemNotObject other))]) ++
    [.event .endFeed]
termination_by 2 * Json.itemsDepth items
decreasing_by
  rename_i h
  have := Json.depth_le_itemsDepth h
  simp only [Json.depth] at this
  omega

/-- The signals of a member of an entry, some of whose properties are annotated from beside them. An
object is a link, unless its content is deferred; an array is one if it holds objects only, and
where it is empty, if it is annotated. -/
def memberSignals (annotated : List (List Char)) (name : String) (v : Json) : List Signal :=
  match roleOf name with
  | .property =>
    match v with
    | .object members =>
      if Fields.contains "__deferred" members then []
      else
        .event (.startLink name) ::
          (match _h : resultsFeed? members with
          | some (items, others) => feedSignals items others
          | none => entrySignals (movedLast "results" members)) ++
          [.event .endLink]
    | .array items =>
      if items.all Json.isObject && (!items.isEmpty || annotated.contains name.toList) then
        .event (.startLink name) :: feedSignals items [] ++ [.event .endLink]
      else [.event (.field name (VerboseDate.ofField (.array items)))]
    | other => [.event (.field name (VerboseDate.ofField other))]
  | role => annotationSignals name v role
termination_by 2 * v.depth
decreasing_by
  · have := Json.depth_le_membersDepth (mem_of_resultsFeed? _h)
    simp only [Json.depth] at this ⊢
    omega
  · have := Json.membersDepth_le
      fun m (hm : m ∈ movedLast "results" members) ↦ mem_of_mem_movedLast hm
    simp only [Json.depth]
    omega
  · simp only [Json.depth]
    omega

end

def valueSignals (v : Json) : List Signal :=
  [.event (.value (VerboseDate.ofField v))]

/-- The signals of a document with an object at its root: a feed or a value that stands under
`value` among annotations only, or else an entry. -/
def rootSignals (members : Members) : List Signal :=
  match Fields.take? "value" members with
  | some (v, others) =>
    if others.all (fun (name, _) ↦ isMarked name) then
      match v with
      | .array items =>
        if items.all Json.isObject then feedSignals items others else valueSignals v
      | _ => valueSignals v
    else entrySignals members
  | none => entrySignals members

/-- The signals of an object in verbose notation; one member that is a plain value is the result. -/
def verboseObjectSignals (members : Members) : List Signal :=
  match members with
  | [(name, v)] =>
    if name ≠ "__metadata" ∧ !v.isObject ∧ !v.isArray then valueSignals v else entrySignals members
  | _ => entrySignals members

/-- The signals of what stands under `d` in verbose notation. -/
def verboseSignals : Json → List Signal
  | .array items => feedSignals items []
  | .object members =>
    match resultsFeed? members with
    | some (items, others) => feedSignals items others
    | none => verboseObjectSignals (movedLast "results" members)
  | other => valueSignals other

def signals : Json → List Signal
  | .object members =>
    match Fields.take? "d" members with
    | some (v, []) => verboseSignals v
    | _ => rootSignals (movedLast "d" members)
  | .array items => feedSignals items []
  | other => valueSignals other

def ofText (body : String) : List Signal :=
  match Json.ofText? body with
  | some document => signals document
  | none => [.stop .json]

end OData.OfJson
