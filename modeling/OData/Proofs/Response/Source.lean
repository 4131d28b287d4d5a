import OData.Proofs.Response.Document
import OData.Proofs.Xml.Written
import OData.Response.OfJson

/-!
Responses before they are written in a notation: entries with an id, expanded links and plain fields,
and feeds of them. Each has a text in light JSON, in verbose JSON and in Atom, and a node that all three
texts stand for.
-/

namespace OData.Source

/-- A field of a type that every notation has a form for. -/
inductive Scalar
  | null
  | boolean (b : Bool)
  | int32 (n : Int32)
  | string (s : String)

structure Paging where
  count : Option UInt64
  next : Option String

/-- An entry, or a feed of entries. -/
inductive Extent (ε : Type)
  | entry (e : ε)
  | feed (paging : Paging) (entries : List ε)

/-- An entry, by what its links expand to. -/
structure Shape (ε : Type) where
  id : String
  etag : Option String
  links : List (String × Extent ε)
  fields : List (String × Scalar)

/-- An entry with all that its links expand to, at any depth. -/
inductive Item
  | mk (shape : Shape Item)

section

variable {ε α : Type}

def Extent.map (f : ε → α) : Extent ε → Extent α
  | entry e => .entry (f e)
  | feed paging entries => .feed paging (entries.map f)

def Extent.entries : Extent ε → List ε
  | entry e => [e]
  | feed _ entries => entries

def Shape.map (f : ε → α) (s : Shape ε) : Shape α :=
  ⟨s.id, s.etag, s.links.map fun (name, extent) ↦ (name, extent.map f), s.fields⟩

def Shape.names (s : Shape ε) : List String :=
  s.links.map Prod.fst ++ s.fields.map Prod.fst

end

def Item.shape : Item → Shape Item
  | mk shape => shape

section

variable {α : Type} (f : Shape α → α)

mutual

/-- Goes through an entry from the innermost entries out. -/
def Item.fold : Item → α
  | .mk shape => f (foldShape shape)

def foldShape : Shape Item → Shape α
  | ⟨id, etag, links, fields⟩ => ⟨id, etag, foldLinks links, fields⟩

def foldLinks : List (String × Extent Item) → List (String × Extent α)
  | [] => []
  | link :: rest => foldLink link :: foldLinks rest

def foldLink : String × Extent Item → String × Extent α
  | (name, extent) => (name, foldExtent extent)

def foldExtent : Extent Item → Extent α
  | .entry item => .entry item.fold
  | .feed paging items => .feed paging (foldItems items)

def foldItems : List Item → List α
  | [] => []
  | item :: rest => item.fold :: foldItems rest

end

theorem foldItems_eq (items : List Item) : foldItems f items = items.map (Item.fold f) := by
  induction items with
  | nil => rfl
  | cons item rest ih => rw [foldItems, List.map_cons, ih]

theorem foldExtent_eq (extent : Extent Item) : foldExtent f extent = extent.map (Item.fold f) := by
  cases extent with
  | entry item => rfl
  | feed paging items => rw [foldExtent, Extent.map, foldItems_eq]

theorem foldLinks_eq (links : List (String × Extent Item)) :
    foldLinks f links = links.map fun (name, extent) ↦ (name, extent.map (Item.fold f)) := by
  induction links with
  | nil => rfl
  | cons link rest ih =>
    obtain ⟨name, extent⟩ := link
    rw [foldLinks, foldLink, foldExtent_eq, ih, List.map_cons]

theorem Item.fold_mk (s : Shape Item) : fold f (.mk s) = f (s.map (fold f)) := by
  obtain ⟨id, etag, links, fields⟩ := s
  rw [fold, foldShape, foldLinks_eq, Shape.map]

end

/-! ### The node -/

def Scalar.value : Scalar → Value
  | null => .null
  | boolean b => .boolean b
  | int32 n => .int32 n
  | string s => .string s

def Paging.annotations (p : Paging) : FeedAnnotations :=
  { count := p.count.map UInt64.toNat, nextLink := p.next }

def Extent.node : Extent Entry → Node
  | entry e => .entry e
  | feed paging entries => .feed ⟨entries, paging.annotations⟩

/-- What a link assigns to the field of its name, and the annotations that it brings along. -/
def linkField? (link : String × Extent Entry) : Option (String × Value) :=
  (linkValue? (some link.2.node)).map (link.1, ·)

def linkAnnotations? (link : String × Extent Entry) : Option (String × LinkAnnotations) :=
  let annotations := annotationsIn (some link.2.node)
  if annotations.isEmpty then none else some (link.1, annotations)

def Shape.facts {ε : Type} (s : Shape ε) : EntryFacts :=
  { id := some s.id, etag := s.etag, editLink := some s.id }

def entryOf (s : Shape Entry) : Entry where
  data := s.links.filterMap linkField? ++ s.fields.map fun (name, v) ↦ (name, v.value)
  annotations := ⟨s.facts, s.links.filterMap linkAnnotations?⟩

def Item.entry (item : Item) : Entry :=
  item.fold entryOf

def node (d : Extent Item) : Node :=
  (d.map Item.entry).node

/-! ### JSON -/

open OfJson (Members)

def Scalar.json : Scalar → Json
  | null => .null
  | boolean b => .boolean b
  | int32 n => .integer n.toInt
  | string s => .string s

def Shape.fieldMembers {ε : Type} (s : Shape ε) : Members :=
  s.fields.map fun (name, v) ↦ (name, v.json)

/-- The annotations of a feed in light notation, their names behind a mark. -/
def Paging.lightMembers (mark : String) (p : Paging) : Members :=
  (p.count.toList.map fun n ↦ (mark ++ "count", .integer n.toNat)) ++
    p.next.toList.map fun address ↦ (mark ++ "nextLink", .string address)

/-- The annotations of a link to a feed. One that would have none gets an address, which sets an empty
feed apart from an empty collection. -/
def lightNotes (name : String) (paging : Paging) (entries : List Members) : Members :=
  if entries.isEmpty && paging.count.isNone && paging.next.isNone then
    [(name ++ "@odata.navigationLink", .string name)]
  else paging.lightMembers (name ++ "@odata.")

def lightLink : String × Extent Members → Members
  | (name, .entry members) => [(name, .object members)]
  | (name, .feed paging entries) =>
    lightNotes name paging entries ++ [(name, .array (entries.map .object))]

def lightOwn {ε : Type} (s : Shape ε) : Members :=
  ("@odata.id", .string s.id) :: ("@odata.editLink", .string s.id) ::
    s.etag.toList.map fun etag ↦ ("@odata.etag", .string etag)

def lightEntry (s : Shape Members) : Members :=
  lightOwn s ++ s.links.flatMap lightLink ++ s.fieldMembers

def lightExtent : Extent Members → Json
  | .entry members => .object members
  | .feed paging entries =>
    .object (paging.lightMembers "@odata." ++ [("value", .array (entries.map .object))])

def light (d : Extent Item) : Json :=
  lightExtent (d.map (Item.fold lightEntry))

def Paging.verboseMembers (p : Paging) : Members :=
  (p.count.toList.map fun n ↦ ("__count", .string (String.ofList (Text.decimal n.toNat)))) ++
    p.next.toList.map fun address ↦ ("__next", .string address)

def verboseExtent : Extent Members → Json
  | .entry members => .object members
  | .feed paging entries =>
    .object (paging.verboseMembers ++ [("results", .array (entries.map .object))])

def verboseOwn {ε : Type} (s : Shape ε) : Members :=
  [("__metadata", .object (("uri", .string s.id) ::
    s.etag.toList.map fun etag ↦ ("etag", .string etag)))]

def verboseEntry (s : Shape Members) : Members :=
  verboseOwn s ++ (s.links.map fun (name, extent) ↦ (name, verboseExtent extent)) ++ s.fieldMembers

def verbose (d : Extent Item) : Json :=
  .object [("d", verboseExtent (d.map (Item.fold verboseEntry)))]

/-! ### Atom -/

open Xml (Tree)

def namespaces : List (String × String) :=
  [("xmlns", "http://www.w3.org/2005/Atom"),
    ("xmlns:d", "http://schemas.microsoft.com/ado/2007/08/dataservices"),
    ("xmlns:m", "http://schemas.microsoft.com/ado/2007/08/dataservices/metadata")]

def Scalar.property (name : String) : Scalar → Tree
  | null => .empty ("d:" ++ name) [("m:null", "true")]
  | boolean b => .leaf ("d:" ++ name) [("m:type", "Edm.Boolean")] (if b then "true" else "false")
  | int32 n =>
    .leaf ("d:" ++ name) [("m:type", "Edm.Int32")] (String.ofList (Text.signedDecimal n.toInt))
  | string s => .leaf ("d:" ++ name) [] s

def Paging.trees (p : Paging) : List Tree :=
  (p.count.toList.map fun n ↦ .leaf "m:count" [] (String.ofList (Text.decimal n.toNat))) ++
    p.next.toList.map fun address ↦ .empty "link" [("rel", "next"), ("href", address)]

def atomExtent : Extent Tree → Tree
  | .entry t => t
  | .feed paging entries => .element "feed" namespaces (paging.trees ++ entries)

def atomLink (name : String) (extent : Extent Tree) : Tree :=
  .element "link"
    [("rel", "http://schemas.microsoft.com/ado/2007/08/dataservices/related/" ++ name),
      ("title", name)]
    [.element "m:inline" [] [atomExtent extent]]

def atomEntry (s : Shape Tree) : Tree :=
  .element "entry" (namespaces ++ s.etag.toList.map fun etag ↦ ("m:etag", etag))
    (.leaf "id" [] s.id :: .empty "link" [("rel", "edit"), ("href", s.id)] ::
      (s.links.map fun (name, extent) ↦ atomLink name extent) ++
      [.element "content" [("type", "application/xml")]
        [.element "m:properties" [] (s.fields.map fun (name, v) ↦ v.property name)]])

def atom (d : Extent Item) : String :=
  (atomExtent (d.map (Item.fold atomEntry))).document

/-! ### Well-formedness -/

/-- A name that no notation has a use of its own for. -/
structure IsFieldName (name : String) : Prop where
  isName : Xml.isName name.toList
  notReserved : name ∉ ["value", "results", "__metadata"]
  notMarked : ¬ "odata.".toList <+: name.toList

instance (name : String) : Decidable (IsFieldName name) :=
  decidable_of_iff (Xml.isName name.toList ∧ name ∉ ["value", "results", "__metadata"] ∧
      ¬ "odata.".toList <+: name.toList)
    ⟨fun h ↦ ⟨h.1, h.2.1, h.2.2⟩, fun h ↦ ⟨h.isName, h.notReserved, h.notMarked⟩⟩

/-- Something that holds of an entry and of all entries inside it. -/
inductive Item.Every (P : Shape Item → Prop) : Item → Prop
  | mk {s : Shape Item} (h : P s)
    (inner : ∀ link ∈ s.links, ∀ item ∈ link.2.entries, Every P item) : Every P (.mk s)

def Extent.Every (P : Shape Item → Prop) (d : Extent Item) : Prop :=
  ∀ item ∈ d.entries, item.Every P

/-- Names that stand once in an entry, and texts without blanks at their ends that are no moments. -/
structure Shape.WellFormed (s : Shape Item) : Prop where
  nodup : s.names.Nodup
  names : ∀ name ∈ s.names, IsFieldName name
  id : Xml.Unpadded s.id.toList
  texts : ∀ name text, (name, .string text) ∈ s.fields →
    Xml.Unpadded text.toList ∧ VerboseDate.ofString? text = none

/-- No link leads to an entry that looks deferred. -/
def Shape.Undeferred (s : Shape Item) : Prop :=
  ∀ name item, (name, .entry item) ∈ s.links → "__deferred" ∉ item.shape.names

def WellFormed (d : Extent Item) : Prop :=
  d.Every Shape.WellFormed

def Undeferred (d : Extent Item) : Prop :=
  d.Every Shape.Undeferred

theorem Extent.entries_map {ε α : Type} (f : ε → α) (extent : Extent ε) :
    (extent.map f).entries = extent.entries.map f := by
  cases extent <;> rfl

theorem Item.Every.shape {P : Shape Item → Prop} {item : Item} (h : item.Every P) : P item.shape := by
  cases h with
  | mk h _ => exact h

theorem Item.Every.imp {P Q : Shape Item → Prop} (himp : ∀ s, P s → Q s) {item : Item}
    (h : item.Every P) : item.Every Q := by
  induction h with
  | mk hs _ ih => exact .mk (himp _ hs) ih

theorem Item.Every.and {P Q : Shape Item → Prop} {item : Item} (h : item.Every P)
    (h' : item.Every Q) : item.Every fun s ↦ P s ∧ Q s := by
  induction h with
  | mk hs _ ih =>
    obtain ⟨hs', hinner⟩ := h'
    exact .mk ⟨hs, hs'⟩ fun link hlink item hitem ↦ ih link hlink item hitem (hinner link hlink item hitem)

theorem Shape.WellFormed.not_mem_names {s : Shape Item} (h : s.WellFormed) {name : String}
    (hname : ¬ IsFieldName name) : name ∉ s.names :=
  fun hmem ↦ hname (h.names name hmem)

theorem Shape.WellFormed.fieldNames {s : Shape Item} (h : s.WellFormed) :
    ∀ f ∈ s.fields, IsFieldName f.1 := fun _ hf ↦
  h.names _ (List.mem_append_right _ (List.mem_map_of_mem hf))

theorem Shape.WellFormed.linkNames {s : Shape Item} (h : s.WellFormed) :
    ∀ link ∈ s.links, IsFieldName link.1 := fun _ hlink ↦
  h.names _ (List.mem_append_left _ (List.mem_map_of_mem hlink))

end OData.Source
