import OData.Fields
import OData.Value

/-!
What a response says: an entry, a feed of entries, or a plain value, each with its annotations.
-/

namespace OData

structure FeedAnnotations where
  count : Option Nat := none
  nextLink : Option String := none
  deltaLink : Option String := none
  deriving DecidableEq, Repr

/-- What is known of an entry beside its fields, its links apart. -/
structure EntryFacts where
  id : Option String := none
  typeName : Option String := none
  etag : Option String := none
  editLink : Option String := none
  readLink : Option String := none
  mediaReadLink : Option String := none
  mediaEditLink : Option String := none
  mediaContentType : Option String := none
  mediaEtag : Option String := none
  deriving DecidableEq, Repr

mutual

/-- The annotations of an entry: its own, and those of its expanded links by name. -/
structure EntryAnnotations where
  own : EntryFacts
  links : List (String × LinkAnnotations)

/-- The annotations of an expanded link: those of its feed, and those of its entries in order. -/
structure LinkAnnotations where
  feed : FeedAnnotations
  entries : List EntryAnnotations

end

structure Entry where
  data : Record
  annotations : EntryAnnotations

structure Feed where
  entries : List Entry
  annotations : FeedAnnotations

inductive Node
  | entry (e : Entry)
  | feed (f : Feed)
  | value (v : Value)

namespace EntryAnnotations

def empty : EntryAnnotations := ⟨{}, []⟩

def isEmpty (a : EntryAnnotations) : Bool :=
  a.own = {} && a.links.isEmpty

def link? (a : EntryAnnotations) (name : String) : Option LinkAnnotations :=
  Fields.find? name a.links

end EntryAnnotations

namespace FeedAnnotations

/-- Annotations that are set later replace those set before. -/
def merge (a later : FeedAnnotations) : FeedAnnotations :=
  ⟨later.count <|> a.count, later.nextLink <|> a.nextLink, later.deltaLink <|> a.deltaLink⟩

end FeedAnnotations

namespace LinkAnnotations

def empty : LinkAnnotations := ⟨{}, []⟩

def isEmpty (a : LinkAnnotations) : Bool :=
  a.feed = {} && a.entries.all EntryAnnotations.isEmpty

/-- The annotations of a link that is closed later come after those of the ones before. -/
def merge (a later : LinkAnnotations) : LinkAnnotations :=
  ⟨a.feed.merge later.feed, a.entries ++ later.entries⟩

end LinkAnnotations

namespace Node

def entries : Node → List Entry
  | entry e => [e]
  | feed f => f.entries
  | value _ => []

def feedAnnotations? : Node → Option FeedAnnotations
  | feed f => some f.annotations
  | _ => none

end Node
end OData
