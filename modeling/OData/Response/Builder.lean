import OData.Response.Event

/-!
Assembling a response from its events. Open parts lie on a stack; a part that ends goes to the one
that encloses it, and the outermost one is the result.

An entry's fields pass through a converter when the entry ends.
-/

namespace OData

/-- What becomes of the fields of an entry. -/
abbrev Converter := Record → Except ReadError Record

/-- An open part with what has been read of it. -/
inductive Frame
  | feed (f : Feed)
  | entry (fields : Record) (annotations : EntryAnnotations)
  | link (name : String) (content : Option Node)

def Frame.kind : Frame → FrameKind
  | feed _ => .feed
  | entry _ _ => .entry
  | link _ _ => .link

/-- The open parts, the innermost first, and the result. -/
structure Builder where
  stack : List Frame
  result : Option Node

namespace Builder

def empty : Builder := ⟨[], none⟩

/-- The part that the next event falls into. -/
def innermost? (b : Builder) : Option FrameKind :=
  b.stack.head?.map Frame.kind

def depth (b : Builder) : Nat :=
  b.stack.length

/-- The state after an event, and the error where the event was out of place. A failed event may
have closed a part. -/
abbrev Outcome := Builder × Option ReadError

def fail (b : Builder) (fault : ResponseFault) : Outcome :=
  (b, some (.malformed fault))

def push (b : Builder) (frame : Frame) : Outcome :=
  ({ b with stack := frame :: b.stack }, none)

def pop (b : Builder) : Builder :=
  { b with stack := b.stack.tail }

def replaceTop (b : Builder) (frame : Frame) : Outcome :=
  ({ b with stack := frame :: b.stack.tail }, none)

def setResult (b : Builder) (node : Node) : Outcome :=
  if b.result.isSome then b.fail .severalRoots else ({ b with result := some node }, none)

/-- Hands a part that has ended to the one that encloses it. -/
def closeNode (b : Builder) (node : Node) : Outcome :=
  match b.stack with
  | [] => b.setResult node
  | .feed f :: _ =>
    match node with
    | .entry e => b.replaceTop (.feed { f with entries := f.entries ++ [e] })
    | _ => b.fail .feedInFeed
  | .link name content :: _ =>
    if content.isSome then b.fail (.severalNodesInLink name)
    else b.replaceTop (.link name (some node))
  | .entry _ _ :: _ => b.fail .nodeInEntry

def endFeed (b : Builder) : Outcome :=
  match b.stack with
  | .feed f :: _ => b.pop.closeNode (.feed f)
  | _ => b.pop.fail (.unmatchedEnd .feed b.innermost?)

def endEntry (convert : Converter) (b : Builder) : Outcome :=
  match b.stack with
  | .entry fields annotations :: _ =>
    match convert fields with
    | .ok data => b.pop.closeNode (.entry ⟨data, annotations⟩)
    | .error e => (b.pop, some e)
  | _ => b.pop.fail (.unmatchedEnd .entry b.innermost?)

/-- The field and the annotations that the content of a link amounts to. An entry without fields,
and a feed without entries, leave the field out; of the feed the annotations are kept. -/
def linkContent : Option Node → Option Value × LinkAnnotations
  | some (.entry e) =>
    if e.data.isEmpty then (none, .empty) else (some (.record e.data), ⟨{}, [e.annotations]⟩)
  | some (.feed f) =>
    if f.entries.isEmpty then (none, ⟨f.annotations, []⟩)
    else
      (some (.collection (f.entries.map fun e ↦ .record e.data)),
        ⟨f.annotations, f.entries.map Entry.annotations⟩)
  | _ => (none, .empty)

/-- The annotations of an entry with those of a link that has ended. -/
def addLink (annotations : EntryAnnotations) (name : String) (closed : LinkAnnotations) :
    EntryAnnotations :=
  if closed.isEmpty then annotations
  else { annotations with links := Fields.alter name .empty (·.merge closed) annotations.links }

def endLink (b : Builder) : Outcome :=
  match b.stack with
  | .link name content :: below =>
    match below with
    | .entry fields annotations :: _ =>
      let (field, closed) := linkContent content
      let fields := field.elim fields fun v ↦ Fields.put name v fields
      b.pop.replaceTop (.entry fields (addLink annotations name closed))
    | _ => b.pop.fail (.linkOutsideEntry name)
  | _ => b.pop.fail (.unmatchedEnd .link b.innermost?)

def setField (b : Builder) (name : String) (v : Value) : Outcome :=
  match b.stack with
  | .entry fields annotations :: _ => b.replaceTop (.entry (Fields.put name v fields) annotations)
  | _ => b.fail (.fieldOutsideEntry name b.innermost?)

def setValue (b : Builder) (v : Value) : Outcome :=
  if b.stack.isEmpty then b.setResult (.value v) else b.fail .valueInsideFrame

def annotateEntry (b : Builder) (a : EntryNote) : Outcome :=
  match b.stack with
  | .entry fields annotations :: _ =>
    b.replaceTop (.entry fields { annotations with own := a.apply annotations.own })
  | _ => b.fail .entryAnnotationOutsideEntry

def annotateFeed (b : Builder) (a : FeedNote) : Outcome :=
  match b.stack with
  | .feed f :: _ => b.replaceTop (.feed { f with annotations := a.apply f.annotations })
  | _ => b.fail .feedAnnotationOutsideFeed

def annotateLink (b : Builder) (name : String) (a : FeedNote) : Outcome :=
  match b.stack with
  | .entry fields annotations :: _ =>
    let change (link : LinkAnnotations) : LinkAnnotations :=
      { link with feed := a.apply link.feed }
    b.replaceTop
      (.entry fields
        { annotations with links := Fields.alter name .empty change annotations.links })
  | _ => b.fail (.linkAnnotationOutsideEntry name)

def step (convert : Converter) (b : Builder) : Event → Outcome
  | .startFeed => b.push (.feed ⟨[], {}⟩)
  | .endFeed => b.endFeed
  | .startEntry => b.push (.entry [] .empty)
  | .endEntry => b.endEntry convert
  | .startLink name => b.push (.link name none)
  | .endLink => b.endLink
  | .field name v => b.setField name v
  | .value v => b.setValue v
  | .entryNote a => b.annotateEntry a
  | .feedNote a => b.annotateFeed a
  | .linkNote name a => b.annotateLink name a

/-- Takes signals in up to the first error. -/
def run (convert : Converter) (b : Builder) : List Signal → Except ReadError Builder
  | [] => .ok b
  | .stop e :: _ => .error e
  | .event e :: rest =>
    match b.step convert e with
    | (next, none) => run convert next rest
    | (_, some e) => .error e

theorem run_append (convert : Converter) (b : Builder) (signals more : List Signal) :
    b.run convert (signals ++ more) = b.run convert signals >>= (·.run convert more) := by
  induction signals generalizing b with
  | nil => rfl
  | cons signal signals ih =>
    cases signal with
    | stop err => rfl
    | event e =>
      rw [List.cons_append, run, run]
      cases b.step convert e with
      | mk next failure =>
        cases failure with
        | none => exact ih next
        | some err => rfl

/-- The result, once every part has ended. -/
def finish (b : Builder) : Except ReadError Node :=
  match b.stack with
  | frame :: _ => .error (.malformed (.unclosedFrames b.depth frame.kind))
  | [] =>
    match b.result with
    | some node => .ok node
    | none => .error (.malformed .noRoot)

end Builder

/-- The node that a sequence of signals describes. -/
def Node.ofSignals (convert : Converter) (signals : List Signal) : Except ReadError Node := do
  let b ← Builder.empty.run convert signals
  b.finish

end OData
