import OData.Json.Basic

/-!
Why a response cannot be read.
-/

namespace OData

/-- The parts of a response that are open until their end is read. -/
inductive FrameKind
  | feed
  | entry
  | link
  deriving DecidableEq, Repr

def FrameKind.name : FrameKind → String
  | feed => "feed"
  | entry => "entry"
  | link => "link"

/-- Ways in which a response breaks the rules of its structure or of its values. -/
inductive ResponseFault
  /-- The end of a part, where another one is innermost or none is open. -/
  | unmatchedEnd (ended : FrameKind) (found : Option FrameKind)
  | linkOutsideEntry (name : String)
  | linkAnnotationOutsideEntry (name : String)
  | fieldOutsideEntry (name : String) (found : Option FrameKind)
  | entryAnnotationOutsideEntry
  | feedAnnotationOutsideFeed
  | valueInsideFrame
  | unclosedFrames (count : Nat) (innermost : FrameKind)
  | noRoot
  | severalRoots
  | feedInFeed
  | nodeInEntry
  | severalNodesInLink (name : String)
  | itemNotObject (item : Json)
  | closingTagWithoutElement
  | unclosedElements (count : Nat)
  | unterminatedProperties
  | unterminatedProperty
  | unterminatedElement
  /-- A text that is no value of its type; not every type tells in which way. -/
  | invalidValue (typeName text : String) (detail : Option String)
  | unknownFormat (name : String)
  | invalidCount (text detail : String)
  | valueForFeed (typeName : String)
  | noAddress
  /-- A converter's own objection to an entry. -/
  | rejected (reason : String)

def ResponseFault.message : ResponseFault → String
  | unmatchedEnd ended found =>
    "end-" ++ ended.name ++ " with no matching start (found " ++
      (found.elim "nothing" FrameKind.name) ++ ")"
  | linkOutsideEntry name => "link '" ++ name ++ "' closed outside an entry"
  | linkAnnotationOutsideEntry name => "annotation on link '" ++ name ++ "' outside an entry"
  | fieldOutsideEntry name found =>
    "field '" ++ name ++ "' outside an entry (in " ++ (found.elim "document" FrameKind.name) ++ ")"
  | entryAnnotationOutsideEntry => "entry annotation outside an entry"
  | feedAnnotationOutsideFeed => "feed annotation outside a feed"
  | valueInsideFrame => "primitive result inside an open frame"
  | unclosedFrames count innermost =>
    toString count ++ " unclosed frame(s), innermost is a " ++ innermost.name
  | noRoot => "payload contains no feed or entry"
  | severalRoots => "more than one root node"
  | feedInFeed => "feed nested directly in a feed"
  | nodeInEntry => "node nested directly in an entry without a link"
  | severalNodesInLink name => "link '" ++ name ++ "' holds more than one node"
  | itemNotObject item => "feed item is not an object: " ++ item.text
  | closingTagWithoutElement => "closing tag with no open element"
  | unclosedElements count => "document ended with " ++ toString count ++ " open element(s)"
  | unterminatedProperties => "unterminated properties"
  | unterminatedProperty => "unterminated property"
  | unterminatedElement => "unterminated element"
  | invalidValue typeName text detail =>
    "invalid " ++ typeName ++ " value '" ++ text ++ "'" ++ (detail.elim "" (": " ++ ·))
  | unknownFormat name => "unknown payload format '" ++ name ++ "'"
  | invalidCount text detail => "invalid count '" ++ text ++ "': " ++ detail
  | valueForFeed typeName => "expected a feed, got a " ++ typeName ++ " value"
  | noAddress => "entry has neither an edit link nor an id"
  | rejected reason => reason

/-- A response that breaks a rule, or a text that is no JSON or no XML at all. -/
inductive ReadError
  | malformed (fault : ResponseFault)
  | json
  | xml

def ReadError.message? : ReadError → Option String
  | malformed fault => some ("Malformed response: " ++ fault.message)
  | _ => none

end OData
