import OData.Response.Error
import OData.Response.Node

/-!
The events that a response consists of, in document order, whatever notation it is written in.
-/

namespace OData

/-- A fact about an entry with its text; no text takes the fact back. -/
inductive EntryNote
  | id (text : Option String)
  | typeName (text : Option String)
  | etag (text : Option String)
  | editLink (text : Option String)
  | readLink (text : Option String)
  | mediaReadLink (text : Option String)
  | mediaEditLink (text : Option String)
  | mediaContentType (text : Option String)
  | mediaEtag (text : Option String)
  deriving DecidableEq, Repr

inductive FeedNote
  | count (n : Option Nat)
  | nextLink (text : Option String)
  | deltaLink (text : Option String)
  deriving DecidableEq, Repr

inductive Event
  | startFeed
  | endFeed
  | startEntry
  | endEntry
  | startLink (name : String)
  | endLink
  | field (name : String) (v : Value)
  | value (v : Value)
  | entryNote (a : EntryNote)
  | feedNote (a : FeedNote)
  /-- An annotation of a link of the innermost entry, beside the link itself. -/
  | linkNote (name : String) (a : FeedNote)

/-- What a reader hands on: an event, or the error that it stops at. -/
inductive Signal
  | event (e : Event)
  | stop (e : ReadError)

def EntryNote.apply (facts : EntryFacts) : EntryNote → EntryFacts
  | id text => { facts with id := text }
  | typeName text => { facts with typeName := text }
  | etag text => { facts with etag := text }
  | editLink text => { facts with editLink := text }
  | readLink text => { facts with readLink := text }
  | mediaReadLink text => { facts with mediaReadLink := text }
  | mediaEditLink text => { facts with mediaEditLink := text }
  | mediaContentType text => { facts with mediaContentType := text }
  | mediaEtag text => { facts with mediaEtag := text }

def FeedNote.apply (feed : FeedAnnotations) : FeedNote → FeedAnnotations
  | count n => { feed with count := n }
  | nextLink text => { feed with nextLink := text }
  | deltaLink text => { feed with deltaLink := text }

end OData
