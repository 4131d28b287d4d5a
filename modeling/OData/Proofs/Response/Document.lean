import OData.Response.Builder

/-!
The grammar of responses. A document is a value, or a tree of entries and feeds; it has a sequence of
events, and it denotes a node. An entry's fields pass through a converter after those of the entries
inside it.
-/

namespace OData

mutual

/-- An entry or a feed, by what is between its start and its end. -/
inductive NodeTree
  | entry (items : List EntryItem)
  | feed (items : List FeedItem)

inductive EntryItem
  | field (name : String) (v : Value)
  | note (a : EntryNote)
  | linkNote (name : String) (a : FeedNote)
  | link (name : String) (content : Option NodeTree)

inductive FeedItem
  | note (a : FeedNote)
  | entry (items : List EntryItem)

end

inductive Document
  | value (v : Value)
  | tree (t : NodeTree)

mutual

def NodeTree.events : NodeTree → List Event
  | .entry items => .startEntry :: EntryItem.allEvents items ++ [.endEntry]
  | .feed items => .startFeed :: FeedItem.allEvents items ++ [.endFeed]

def NodeTree.eventsOf? : Option NodeTree → List Event
  | none => []
  | some t => t.events

def EntryItem.events : EntryItem → List Event
  | .field name v => [.field name v]
  | .note a => [.entryNote a]
  | .linkNote name a => [.linkNote name a]
  | .link name content => .startLink name :: NodeTree.eventsOf? content ++ [.endLink]

def EntryItem.allEvents : List EntryItem → List Event
  | [] => []
  | item :: rest => item.events ++ EntryItem.allEvents rest

def FeedItem.events : FeedItem → List Event
  | .note a => [.feedNote a]
  | .entry items => .startEntry :: EntryItem.allEvents items ++ [.endEntry]

def FeedItem.allEvents : List FeedItem → List Event
  | [] => []
  | item :: rest => item.events ++ FeedItem.allEvents rest

end

def Document.events : Document → List Event
  | .value v => [.value v]
  | .tree t => t.events

/-- What happens to the annotations of a link. -/
inductive LinkMark
  | note (a : FeedNote)
  | closed (annotations : LinkAnnotations)

def LinkMark.apply (link : LinkAnnotations) : LinkMark → LinkAnnotations
  | .note a => { link with feed := a.apply link.feed }
  | closed annotations => link.merge annotations

/-- What an item does to its entry. -/
inductive Effect
  | assign (name : String) (v : Value)
  | note (a : EntryNote)
  | mark (name : String) (m : LinkMark)

namespace Effect

def assignment? : Effect → Option (String × Value)
  | assign name v => some (name, v)
  | _ => none

def note? : Effect → Option EntryNote
  | .note a => some a
  | _ => none

def mark? : Effect → Option (String × LinkMark)
  | mark name m => some (name, m)
  | _ => none

/-- The fields in the order of their first assignment, each with the value of its last. -/
def fields (effects : List Effect) : Record :=
  Fields.ofList (effects.filterMap assignment?)

def annotations (effects : List Effect) : EntryAnnotations where
  own := (effects.filterMap note?).foldl EntryNote.apply {}
  links := (effects.filterMap mark?).foldl
    (fun links (name, m) ↦ Fields.alter name .empty (m.apply ·) links) []

end Effect

/-- The value of a link: the record of an entry, or the records of a feed. An entry without fields
and a feed without entries have none. -/
def linkValue? : Option Node → Option Value
  | some (.entry e) => if e.data.isEmpty then none else some (.record e.data)
  | some (.feed f) =>
    if f.entries.isEmpty then none else some (.collection (f.entries.map fun e ↦ .record e.data))
  | _ => none

/-- The annotations that a link brings along. Those of an entry go where its record goes. -/
def annotationsIn : Option Node → LinkAnnotations
  | some (.entry e) => ⟨{}, if e.data.isEmpty then [] else [e.annotations]⟩
  | some (.feed f) => ⟨f.annotations, f.entries.map Entry.annotations⟩
  | _ => .empty

def linkEffects (name : String) (content : Option Node) : List Effect :=
  (linkValue? content).toList.map (.assign name) ++
    if (annotationsIn content).isEmpty then [] else [.mark name (.closed (annotationsIn content))]

section

-- What the converter makes of the fields of an entry.
variable (f : Record → Record)

def Effect.entry (effects : List Effect) : Entry :=
  ⟨f (fields effects), annotations effects⟩

def FeedItem.annotations (items : List FeedItem) : FeedAnnotations :=
  (items.filterMap fun | note a => some a | entry _ => none).foldl FeedNote.apply {}

mutual

def NodeTree.node : NodeTree → Node
  | .entry items => .entry (Effect.entry f (EntryItem.allEffects items))
  | .feed items => .feed ⟨FeedItem.allEntries items, FeedItem.annotations items⟩

def NodeTree.node? : Option NodeTree → Option Node
  | none => none
  | some t => some t.node

def EntryItem.effects : EntryItem → List Effect
  | .field name v => [.assign name v]
  | .note a => [.note a]
  | .linkNote name a => [.mark name (.note a)]
  | .link name content => linkEffects name (NodeTree.node? content)

def EntryItem.allEffects : List EntryItem → List Effect
  | [] => []
  | item :: rest => item.effects ++ EntryItem.allEffects rest

def FeedItem.entries : FeedItem → List Entry
  | .note _ => []
  | .entry items => [Effect.entry f (EntryItem.allEffects items)]

def FeedItem.allEntries : List FeedItem → List Entry
  | [] => []
  | item :: rest => item.entries ++ FeedItem.allEntries rest

end

def Document.node : Document → Node
  | .value v => .value v
  | .tree t => t.node f

mutual

/-- The fields of every entry as they come to the converter, inner entries first. -/
def NodeTree.conversions : NodeTree → List Record
  | .entry items => EntryItem.allConversions items ++ [Effect.fields (EntryItem.allEffects f items)]
  | .feed items => FeedItem.allConversions items

def NodeTree.conversionsOf? : Option NodeTree → List Record
  | none => []
  | some t => t.conversions

def EntryItem.conversions : EntryItem → List Record
  | .link _ content => NodeTree.conversionsOf? content
  | _ => []

def EntryItem.allConversions : List EntryItem → List Record
  | [] => []
  | item :: rest => item.conversions ++ EntryItem.allConversions rest

def FeedItem.conversions : FeedItem → List Record
  | .note _ => []
  | .entry items =>
    EntryItem.allConversions items ++ [Effect.fields (EntryItem.allEffects f items)]

def FeedItem.allConversions : List FeedItem → List Record
  | [] => []
  | item :: rest => item.conversions ++ FeedItem.allConversions rest

end

def Document.conversions : Document → List Record
  | .value _ => []
  | .tree t => t.conversions f

end

theorem eq_flatMap {α β : Type} {g : List α → List β} {h : α → List β} (hnil : g [] = [])
    (hcons : ∀ a rest, g (a :: rest) = h a ++ g rest) (l : List α) : g l = l.flatMap h := by
  induction l with
  | nil => exact hnil
  | cons a rest ih => rw [hcons, ih, List.flatMap_cons]

section

variable (f : Record → Record) (items : List EntryItem) (feedItems : List FeedItem)

@[simp]
theorem EntryItem.allEvents_eq : allEvents items = items.flatMap events :=
  eq_flatMap rfl (fun _ _ ↦ rfl) items

@[simp]
theorem EntryItem.allEffects_eq : allEffects f items = items.flatMap (effects f) :=
  eq_flatMap rfl (fun _ _ ↦ rfl) items

@[simp]
theorem EntryItem.allConversions_eq : allConversions f items = items.flatMap (conversions f) :=
  eq_flatMap rfl (fun _ _ ↦ rfl) items

@[simp]
theorem FeedItem.allEvents_eq : allEvents feedItems = feedItems.flatMap events :=
  eq_flatMap rfl (fun _ _ ↦ rfl) feedItems

@[simp]
theorem FeedItem.allEntries_eq : allEntries f feedItems = feedItems.flatMap (entries f) :=
  eq_flatMap rfl (fun _ _ ↦ rfl) feedItems

@[simp]
theorem FeedItem.allConversions_eq :
    allConversions f feedItems = feedItems.flatMap (conversions f) :=
  eq_flatMap rfl (fun _ _ ↦ rfl) feedItems

end

end OData
