import OData.Response.Event
import OData.Response.TypedText
import OData.Xml.Token

/-!
Responses in Atom. Feeds, entries and inline links are elements of the outline; the elements that
hold a text or a block of properties are read to their end. Each token of the XML gives the signals
that it stands for.
-/

namespace OData.OfAtom

inductive Element
  | feed
  | entry
  /-- A link whose content is expanded. -/
  | link
  | other
  deriving DecidableEq, Repr

/-- A property whose end has not been read, with its text and the properties inside it so far. -/
structure OpenProperty where
  name : String
  typeName : Option String
  isNull : Bool
  text : List Char
  children : List (String × Value)

/-- What a text that is being read will be. -/
inductive TextUse
  | count
  | id
  deriving DecidableEq, Repr

/-- What is being read: the outline, a text inside some elements, or a block of properties, the
innermost open one first. -/
inductive Mode
  | outline
  | text (use : TextUse) (depth : Nat) (read : List Char)
  | properties (record : Record) (opened : List OpenProperty)

/-- The open elements of the outline, the innermost first, and what is being read inside it. -/
structure State where
  elements : List Element
  mode : Mode

def State.start : State := ⟨[], .outline⟩

/-- The state after a token, with the signals of the token. -/
abbrev Outcome := State × List Signal

def outline (elements : List Element) (signals : List Signal) : Outcome :=
  (⟨elements, .outline⟩, signals)

/-- Signals, or the end of reading where the markup is at fault. -/
def orStop (signals : Except Xml.Fault (List Signal)) : List Signal :=
  match signals with
  | .ok signals => signals
  | .error _ => [.stop .xml]

def annotatingEntry (a : EntryNote) : Signal :=
  .event (.entryNote a)

def annotatingFeed (a : FeedNote) : Signal :=
  .event (.feedNote a)

/-- What stands in front of the name of a navigation in the relation of a link. -/
def relatedMark : List Char := "/related/".toList

def navigationName (t : Xml.Tag) : Except Xml.Fault (Option String) := do
  let relation := (← t.attribute "rel").getD ""
  match Text.cutAt? relatedMark relation.toList with
  | none => return none
  | some (_, name) =>
    let title ← t.attribute "title"
    return some (title.getD (String.ofList name))

/-- A link of an entry to itself or to its media. -/
def entryLink (t : Xml.Tag) : Except Xml.Fault (List Signal) := do
  let relation := (← t.attribute "rel").getD ""
  let address ← t.attribute "href"
  match relation with
  | "edit" => return [annotatingEntry (.editLink address)]
  | "self" => return [annotatingEntry (.readLink address)]
  | "edit-media" =>
    let etag ← t.attribute "etag"
    return annotatingEntry (.mediaEditLink address) ::
      etag.toList.map fun etag ↦ annotatingEntry (.mediaEtag (some etag))
  | _ => return []

/-- A link of a feed to its next page or to its changes. -/
def feedLink (t : Xml.Tag) : Except Xml.Fault (List Signal) := do
  let relation := (← t.attribute "rel").getD ""
  let address ← t.attribute "href"
  match relation with
  | "next" => return [annotatingFeed (.nextLink address)]
  | "http://docs.oasis-open.org/odata/ns/delta" => return [annotatingFeed (.deltaLink address)]
  | _ => return []

/-- The content of a media entry, which lies elsewhere. -/
def mediaContent (t : Xml.Tag) : Except Xml.Fault (List Signal) := do
  match ← t.attribute "src" with
  | none => return []
  | some source =>
    let contentType ← t.attribute "type"
    return [annotatingEntry (.mediaReadLink (some source)),
      annotatingEntry (.mediaContentType contentType)]

def entryEtag (t : Xml.Tag) : Except Xml.Fault (List Signal) := do
  let etag ← t.attribute "etag"
  return etag.toList.map fun etag ↦ annotatingEntry (.etag (some etag))

def entryCategory (t : Xml.Tag) : Except Xml.Fault (List Signal) := do
  let term ← t.attribute "term"
  return term.toList.map fun term ↦ annotatingEntry (.typeName (some term))

def startOutline (elements : List Element) (t : Xml.Tag) : Outcome :=
  match t.localName, elements.head? with
  | "feed", _ => outline (.feed :: elements) [.event .startFeed]
  | "entry", _ => outline (.entry :: elements) (.event .startEntry :: orStop (entryEtag t))
  | "count", some .feed => (⟨elements, .text .count 0 []⟩, [])
  | "id", some .entry => (⟨elements, .text .id 0 []⟩, [])
  | "properties", _ => (⟨elements, .properties [] []⟩, [])
  | "link", some .entry =>
    match navigationName t with
    | .error _ => outline elements [.stop .xml]
    | .ok (some name) => outline (.link :: elements) [.event (.startLink name)]
    | .ok none => outline (.other :: elements) (orStop (entryLink t))
  | "link", some .feed => outline (.other :: elements) (orStop (feedLink t))
  | "content", some .entry => outline (.other :: elements) (orStop (mediaContent t))
  | _, _ => outline (.other :: elements) []

/-- An empty tag of the outline. A link to a navigation is not expanded there. -/
def emptyOutline (elements : List Element) (t : Xml.Tag) : List Signal :=
  match t.localName, elements.head? with
  | "link", some .entry =>
    match navigationName t with
    | .error _ => [.stop .xml]
    | .ok (some _) => []
    | .ok none => orStop (entryLink t)
  | "link", some .feed => orStop (feedLink t)
  | "content", some .entry => orStop (mediaContent t)
  | "category", some .entry => orStop (entryCategory t)
  | "feed", _ => [.event .startFeed, .event .endFeed]
  | _, _ => []

def endOutline (elements : List Element) : Outcome :=
  match elements with
  | [] => outline [] [.stop (.malformed .closingTagWithoutElement)]
  | .feed :: rest => outline rest [.event .endFeed]
  | .entry :: rest => outline rest [.event .endEntry]
  | .link :: rest => outline rest [.event .endLink]
  | .other :: rest => outline rest []

def ofText (use : TextUse) (read : List Char) : Signal :=
  match use with
  | .count =>
    let count := Number.readNatural (UInt64.size - 1) (Text.trim read)
    annotatingFeed (.count count.toOption)
  | .id => annotatingEntry (.id (some (String.ofList read)))

def openProperty (t : Xml.Tag) : Except Xml.Fault OpenProperty := do
  let typeName ← t.attribute "type"
  let mark ← t.attribute "null"
  return ⟨t.localName, typeName, mark = some "true", [], []⟩

def isCollectionType (typeName : Option String) : Bool :=
  typeName.any fun name ↦ (Text.afterPrefix? "Collection(".toList name.toList).isSome

/-- The value of a property that has ended: null where it is marked so, a collection or a record if
there are properties inside it, and its text otherwise. -/
def OpenProperty.value (p : OpenProperty) : Except ResponseFault Value :=
  if p.isNull then .ok .null
  else if isCollectionType p.typeName ||
      (!p.children.isEmpty && p.children.all fun (name, _) ↦ name = "element") then
    .ok (.collection (p.children.map Prod.snd))
  else if !p.children.isEmpty then .ok (.record (Fields.ofList p.children))
  else TypedText.value p.typeName (String.ofList p.text)

/-- The value of a property that is an empty tag: null for most types. -/
def emptyProperty (t : Xml.Tag) : Except Xml.Fault Value := do
  let typeName ← t.attribute "type"
  let mark ← t.attribute "null"
  return if mark = some "true" then .null
    else if isCollectionType typeName then .collection []
    else if typeName.getD "Edm.String" = "Edm.String" then .string ""
    else .null

/-- A value goes to the property around it, or into the record. -/
def addProperty (record : Record) (opened : List OpenProperty) (name : String) (v : Value) : Mode :=
  match opened with
  | [] => .properties (Fields.put name v record) []
  | p :: outer => .properties record ({ p with children := p.children ++ [(name, v)] } :: outer)

def stepProperties (elements : List Element) (record : Record) (opened : List OpenProperty)
    (token : Xml.Token) : Outcome :=
  let stop (e : ReadError) : Outcome := outline elements [.stop e]
  let unchanged : Outcome := (⟨elements, .properties record opened⟩, [])
  match token with
  | .startTag t =>
    match openProperty t with
    | .ok p => (⟨elements, .properties record (p :: opened)⟩, [])
    | .error _ => stop .xml
  | .emptyTag t =>
    match emptyProperty t with
    | .ok v => (⟨elements, addProperty record opened t.localName v⟩, [])
    | .error _ => stop .xml
  | .endTag =>
    match opened with
    | [] => outline elements (record.map fun (name, v) ↦ .event (.field name v))
    | p :: outer =>
      match p.value with
      | .ok v => (⟨elements, addProperty record outer p.name v⟩, [])
      | .error fault => stop (.malformed fault)
  | .text cs =>
    match opened with
    | [] => unchanged
    | p :: outer =>
      match Xml.expand cs with
      | .ok more =>
        (⟨elements, .properties record ({ p with text := p.text ++ more } :: outer)⟩, [])
      | .error _ => stop .xml
  | .cdata cs =>
    match opened with
    | [] => unchanged
    | p :: outer => (⟨elements, .properties record ({ p with text := p.text ++ cs } :: outer)⟩, [])
  | .broken => stop .xml

/-- A token inside a text. CDATA sections are not part of it. -/
def stepText (elements : List Element) (use : TextUse) (depth : Nat) (read : List Char)
    (token : Xml.Token) : Outcome :=
  match token with
  | .startTag _ => (⟨elements, .text use (depth + 1) read⟩, [])
  | .endTag =>
    match depth with
    | 0 => outline elements [ofText use read]
    | depth + 1 => (⟨elements, .text use depth read⟩, [])
  | .text cs =>
    match Xml.expand cs with
    | .ok more => (⟨elements, .text use depth (read ++ more)⟩, [])
    | .error _ => outline elements [.stop .xml]
  | .emptyTag _ | .cdata _ => (⟨elements, .text use depth read⟩, [])
  | .broken => outline elements [.stop .xml]

def stepOutline (elements : List Element) (token : Xml.Token) : Outcome :=
  match token with
  | .startTag t => startOutline elements t
  | .emptyTag t => outline elements (emptyOutline elements t)
  | .endTag => endOutline elements
  | .text _ | .cdata _ => outline elements []
  | .broken => outline elements [.stop .xml]

def step (s : State) (token : Xml.Token) : Outcome :=
  match s.mode with
  | .outline => stepOutline s.elements token
  | .text use depth read => stepText s.elements use depth read token
  | .properties record opened => stepProperties s.elements record opened token

def finish (s : State) : List Signal :=
  match s.mode with
  | .text _ _ _ => [.stop (.malformed .unterminatedElement)]
  | .properties _ [] => [.stop (.malformed .unterminatedProperties)]
  | .properties _ (_ :: _) => [.stop (.malformed .unterminatedProperty)]
  | .outline =>
    if s.elements = [] then [] else [.stop (.malformed (.unclosedElements s.elements.length))]

/-- The signals of the tokens that follow a state. -/
def signalsFrom (s : State) : List Xml.Token → List Signal
  | [] => finish s
  | token :: rest =>
    let (next, signals) := step s token
    signals ++ signalsFrom next rest

def signals (body : String) : List Signal :=
  signalsFrom .start (Xml.tokens body.toList)

end OData.OfAtom
