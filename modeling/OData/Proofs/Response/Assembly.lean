import OData.Proofs.Answer
import OData.Proofs.Response.Document

/-!
Putting events together to a document, and the builder beside it: while events are read, every open
part of the builder is what the items read so far of one part of the document denote. So the builder
accepts the events of a document and nothing else, and its result is the node of the document.
-/

namespace OData

/-- A part of a document whose end has not been read. -/
inductive OpenTree
  | feed (items : List FeedItem)
  | entry (items : List EntryItem)
  | link (name : String) (content : Option NodeTree)

/-- What has been read of a document: all of it, and the parts that are open, the innermost first. -/
structure Assembly where
  root : Option Document
  parts : List OpenTree

namespace Assembly

def empty : Assembly := ⟨none, []⟩

def opened (a : Assembly) (part : OpenTree) : Assembly :=
  ⟨a.root, part :: a.parts⟩

/-- Puts a tree that has ended where it belongs. -/
def close (a : Assembly) (t : NodeTree) : Option Assembly :=
  match a.parts with
  | [] => if a.root.isSome then none else some ⟨some (.tree t), []⟩
  | .feed items :: below =>
    match t with
    | .entry inner => some ⟨a.root, .feed (items ++ [.entry inner]) :: below⟩
    | .feed _ => none
  | .link name none :: below => some ⟨a.root, .link name (some t) :: below⟩
  | .link _ (some _) :: _ => none
  | .entry _ :: _ => none

def addToEntry (a : Assembly) (item : EntryItem) : Option Assembly :=
  match a.parts with
  | .entry items :: below => some ⟨a.root, .entry (items ++ [item]) :: below⟩
  | _ => none

def addToFeed (a : Assembly) (item : FeedItem) : Option Assembly :=
  match a.parts with
  | .feed items :: below => some ⟨a.root, .feed (items ++ [item]) :: below⟩
  | _ => none

def next (a : Assembly) : Event → Option Assembly
  | .startFeed => some (a.opened (.feed []))
  | .endFeed =>
    match a.parts with
    | .feed items :: below => close ⟨a.root, below⟩ (.feed items)
    | _ => none
  | .startEntry => some (a.opened (.entry []))
  | .endEntry =>
    match a.parts with
    | .entry items :: below => close ⟨a.root, below⟩ (.entry items)
    | _ => none
  | .startLink name => some (a.opened (.link name none))
  | .endLink =>
    match a.parts with
    | .link name content :: below => addToEntry ⟨a.root, below⟩ (.link name content)
    | _ => none
  | .field name v => a.addToEntry (.field name v)
  | .value v => if a.parts.isEmpty && a.root.isNone then some ⟨some (.value v), []⟩ else none
  | .entryNote n => a.addToEntry (.note n)
  | .feedNote n => a.addToFeed (.note n)
  | .linkNote name n => a.addToEntry (.linkNote name n)

def read (a : Assembly) : List Event → Option Assembly
  | [] => some a
  | e :: rest => (a.next e).bind (read · rest)

end Assembly

namespace OpenTree

def events : OpenTree → List Event
  | feed items => .startFeed :: FeedItem.allEvents items
  | entry items => .startEntry :: EntryItem.allEvents items
  | link name content => .startLink name :: NodeTree.eventsOf? content

variable (f : Record → Record)

/-- What the builder keeps of an open part. -/
def frame : OpenTree → Frame
  | feed items => .feed ⟨FeedItem.allEntries f items, FeedItem.annotations items⟩
  | entry items =>
    .entry (Effect.fields (EntryItem.allEffects f items))
      (Effect.annotations (EntryItem.allEffects f items))
  | link name content => .link name (NodeTree.node? f content)

def conversions : OpenTree → List Record
  | feed items => FeedItem.allConversions f items
  | entry items => EntryItem.allConversions f items
  | link _ content => NodeTree.conversionsOf? f content

end OpenTree

namespace Assembly

def events (a : Assembly) : List Event :=
  a.root.elim [] Document.events ++ a.parts.reverse.flatMap OpenTree.events

variable (f : Record → Record)

def conversions (a : Assembly) : List Record :=
  a.root.elim [] (Document.conversions f) ++ a.parts.reverse.flatMap (OpenTree.conversions f)

def builder (a : Assembly) : Builder :=
  ⟨a.parts.map (OpenTree.frame f), a.root.map (Document.node f)⟩

end Assembly

namespace Builder

/-- The fields that go to the converter at an event. -/
def conversion? (b : Builder) : Event → Option Record
  | .endEntry =>
    match b.stack with
    | .entry fields _ :: _ => some fields
    | _ => none
  | _ => none

/-- The fields that go to the converter in the course of some events, in order. -/
def conversions (convert : Converter) (b : Builder) : List Event → List Record
  | [] => []
  | e :: rest => (b.conversion? e).toList ++ conversions convert (b.step convert e).1 rest

end Builder

section

/-- The places where a tree can belong, and what is there once it has ended. -/
inductive Assembly.Closed : Assembly → NodeTree → Assembly → Prop
  | whole (t : NodeTree) : Closed .empty t ⟨some (.tree t), []⟩
  | inFeed (root : Option Document) (items : List FeedItem) (below : List OpenTree)
    (inner : List EntryItem) :
    Closed ⟨root, .feed items :: below⟩ (.entry inner)
      ⟨root, .feed (items ++ [.entry inner]) :: below⟩
  | inLink (root : Option Document) (name : String) (below : List OpenTree) (t : NodeTree) :
    Closed ⟨root, .link name none :: below⟩ t ⟨root, .link name (some t) :: below⟩

variable {a a' : Assembly} {e : Event} {t : NodeTree} {v : Value} {f : Record → Record}

theorem Assembly.closed_of_close (h : a.close t = some a') : Closed a t a' := by
  obtain ⟨root, parts⟩ := a
  match parts with
  | [] =>
    simp only [close] at h
    split at h
    · contradiction
    · rename_i hroot
      obtain rfl := Option.some.inj h
      obtain rfl := Option.not_isSome_iff_eq_none.1 hroot
      exact .whole t
  | .feed items :: below =>
    cases t with
    | feed inner => contradiction
    | entry inner =>
      obtain rfl := Option.some.inj h
      exact .inFeed root items below inner
  | .link name none :: below =>
    obtain rfl := Option.some.inj h
    exact .inLink root name below t

/-- A value is a document of its own. -/
theorem Assembly.of_next_value (h : a.next (.value v) = some a') :
    a = .empty ∧ a' = ⟨some (.value v), []⟩ := by
  obtain ⟨root, parts⟩ := a
  simp only [next] at h
  split at h
  · rename_i hempty
    simp only [Bool.and_eq_true, List.isEmpty_iff, Option.isNone_iff_eq_none] at hempty
    obtain ⟨rfl, rfl⟩ := hempty
    exact ⟨rfl, (Option.some.inj h).symm⟩
  · contradiction

theorem Assembly.of_close (h : a.close t = some a') :
    a'.events = a.events ++ t.events ∧ a'.conversions f = a.conversions f ++ t.conversions f := by
  cases closed_of_close h with
  | whole => simp [empty, events, conversions, Document.events, Document.conversions]
  | inFeed =>
    simp [events, conversions, OpenTree.events, OpenTree.conversions, FeedItem.events,
      FeedItem.conversions, NodeTree.events, NodeTree.conversions]
  | inLink =>
    simp [events, conversions, OpenTree.events, OpenTree.conversions, NodeTree.eventsOf?,
      NodeTree.conversionsOf?]

theorem Assembly.of_addToEntry {item : EntryItem} (h : a.addToEntry item = some a') :
    a'.events = a.events ++ item.events ∧
      a'.conversions f = a.conversions f ++ item.conversions f := by
  obtain ⟨root, parts⟩ := a
  match parts with
  | .entry items :: below =>
    obtain rfl := Option.some.inj h
    simp [events, conversions, OpenTree.events, OpenTree.conversions]

theorem Assembly.of_addToFeed {n : FeedNote} (h : a.addToFeed (.note n) = some a') :
    a'.events = a.events ++ [.feedNote n] ∧ a'.conversions f = a.conversions f := by
  obtain ⟨root, parts⟩ := a
  match parts with
  | .feed items :: below =>
    obtain rfl := Option.some.inj h
    simp [events, conversions, OpenTree.events, OpenTree.conversions, FeedItem.events,
      FeedItem.conversions]

/-- An event that is read is the last of the events that have been read, and what it gives to the
converter is the last that was given to it. -/
theorem Assembly.of_next (h : a.next e = some a') :
    a'.events = a.events ++ [e] ∧
      a'.conversions f = a.conversions f ++ ((a.builder f).conversion? e).toList := by
  obtain ⟨root, parts⟩ := a
  cases e with
  | startFeed | startEntry | startLink name =>
    obtain rfl := Option.some.inj h
    simp [opened, events, conversions, OpenTree.events, OpenTree.conversions,
      Builder.conversion?, NodeTree.eventsOf?, NodeTree.conversionsOf?]
  | endFeed =>
    match parts with
    | .feed items :: below =>
      obtain ⟨hevents, hconversions⟩ := of_close (f := f) h
      rw [hevents, hconversions]
      simp [events, conversions, OpenTree.events, OpenTree.conversions, NodeTree.events,
        NodeTree.conversions, Builder.conversion?]
  | endEntry =>
    match parts with
    | .entry items :: below =>
      obtain ⟨hevents, hconversions⟩ := of_close (f := f) h
      rw [hevents, hconversions]
      simp [events, conversions, OpenTree.events, OpenTree.conversions, NodeTree.events,
        NodeTree.conversions, Builder.conversion?, builder, OpenTree.frame]
  | endLink =>
    match parts with
    | .link name content :: below =>
      obtain ⟨hevents, hconversions⟩ := of_addToEntry (f := f) h
      rw [hevents, hconversions]
      simp [events, conversions, OpenTree.events, OpenTree.conversions, EntryItem.events,
        EntryItem.conversions, Builder.conversion?]
  | field | entryNote | linkNote =>
    obtain ⟨hevents, hconversions⟩ := of_addToEntry (f := f) h
    exact ⟨hevents, hconversions⟩
  | feedNote n =>
    obtain ⟨hevents, hconversions⟩ := of_addToFeed (f := f) h
    exact ⟨hevents, hconversions.trans (List.append_nil _).symm⟩
  | value v =>
    obtain ⟨hempty, rfl⟩ := of_next_value h
    rw [hempty]
    simp [empty, events, conversions, Document.events, Document.conversions, Builder.conversion?]

theorem Assembly.of_read {es : List Event} (h : a.read es = some a') :
    a'.events = a.events ++ es ∧ a.conversions f <+: a'.conversions f := by
  induction es generalizing a with
  | nil =>
    obtain rfl := Option.some.inj h
    exact ⟨(List.append_nil _).symm, List.prefix_rfl⟩
  | cons e rest ih =>
    obtain ⟨b, hb, h⟩ := Option.bind_eq_some_iff.1 h
    obtain ⟨hevents, hconversions⟩ := of_next (f := f) hb
    obtain ⟨hrest, hinitial⟩ := ih h
    refine ⟨?_, List.IsPrefix.trans ?_ hinitial⟩
    · rw [hrest, hevents, List.append_assoc, List.singleton_append]
    · rw [hconversions]
      exact List.prefix_append _ _

theorem Assembly.read_append (es es' : List Event) :
    a.read (es ++ es') = (a.read es).bind (read · es') := by
  induction es generalizing a with
  | nil => rfl
  | cons e rest ih =>
    rw [List.cons_append, read, read, Option.bind_assoc]
    exact congrArg _ (funext fun b ↦ ih)

end

namespace Assembly

mutual

/-- Reading the events of a tree is the same as putting the tree where it belongs. -/
theorem read_tree (a : Assembly) : (t : NodeTree) → a.read t.events = a.close t
  | .entry items => by
    rw [NodeTree.events, List.cons_append, read, next, Option.bind_some, read_append,
      read_entryItems a [] items, Option.bind_some, List.nil_append]
    exact Option.bind_fun_some _
  | .feed items => by
    rw [NodeTree.events, List.cons_append, read, next, Option.bind_some, read_append,
      read_feedItems a [] items, Option.bind_some, List.nil_append]
    exact Option.bind_fun_some _
termination_by structural t => t

theorem read_content (a : Assembly) (name : String) : (content : Option NodeTree) →
    (a.opened (.link name none)).read (NodeTree.eventsOf? content) =
      some (a.opened (.link name content))
  | none => rfl
  | some t => read_tree _ t
termination_by structural content => content

theorem read_entryItem (a : Assembly) (done : List EntryItem) : (item : EntryItem) →
    (a.opened (.entry done)).read item.events = some (a.opened (.entry (done ++ [item])))
  | .field _ _ => rfl
  | .note _ => rfl
  | .linkNote _ _ => rfl
  | .link name content => by
    rw [EntryItem.events, List.cons_append, read, next, Option.bind_some, read_append,
      read_content _ name content]
    rfl
termination_by structural item => item

theorem read_entryItems (a : Assembly) (done : List EntryItem) : (items : List EntryItem) →
    (a.opened (.entry done)).read (EntryItem.allEvents items) =
      some (a.opened (.entry (done ++ items)))
  | [] => by
    rw [List.append_nil]
    rfl
  | item :: rest => by
    rw [EntryItem.allEvents, read_append, read_entryItem a done item, Option.bind_some,
      read_entryItems a (done ++ [item]) rest, List.append_assoc, List.singleton_append]
termination_by structural items => items

theorem read_feedItem (a : Assembly) (done : List FeedItem) : (item : FeedItem) →
    (a.opened (.feed done)).read item.events = some (a.opened (.feed (done ++ [item])))
  | .note _ => rfl
  | .entry items => by
    rw [FeedItem.events, List.cons_append, read, next, Option.bind_some, read_append,
      read_entryItems _ [] items]
    rfl
termination_by structural item => item

theorem read_feedItems (a : Assembly) (done : List FeedItem) : (items : List FeedItem) →
    (a.opened (.feed done)).read (FeedItem.allEvents items) =
      some (a.opened (.feed (done ++ items)))
  | [] => by
    rw [List.append_nil]
    rfl
  | item :: rest => by
    rw [FeedItem.allEvents, read_append, read_feedItem a done item, Option.bind_some,
      read_feedItems a (done ++ [item]) rest, List.append_assoc, List.singleton_append]
termination_by structural items => items

end

/-- The grammar has one reading: a sequence of events is read as the document that it comes from. -/
theorem read_eq_some_iff {es : List Event} {d : Document} :
    empty.read es = some ⟨some d, []⟩ ↔ d.events = es := by
  constructor
  · intro h
    obtain ⟨hevents, -⟩ := of_read (f := id) h
    simpa [events, empty] using hevents
  · rintro rfl
    cases d with
    | value v => rfl
    | tree t => exact read_tree empty t

end Assembly
end OData
