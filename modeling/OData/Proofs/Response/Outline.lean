import Mathlib
import OData.Proofs.Answer
import OData.Response.Builder
import OData.Response.OfAtom

/-!
The outline of an Atom response beside the builder. Each event is in its place by the parts that are
open around it, and the reader hands on events in their places only: its open elements, those without a
meaning apart, are the open parts of the builder.
-/

namespace OData

/-- Faults of an event that has no place where it stands. -/
def ResponseFault.IsMisplaced : ResponseFault → Prop
  | .unmatchedEnd _ _ | .linkOutsideEntry _ | .linkAnnotationOutsideEntry _ => True
  | .entryAnnotationOutsideEntry | .feedAnnotationOutsideFeed => True
  | _ => False

def ReadError.IsMisplaced : ReadError → Prop
  | .malformed fault => fault.IsMisplaced
  | .json | .xml => False

/-- The open parts after an event, the innermost first, if the event is in its place. A field and a
value are left to the builder. -/
def Event.placed? : Event → List FrameKind → Option (List FrameKind)
  | .startFeed, kinds => some (.feed :: kinds)
  | .endFeed, .feed :: kinds => some kinds
  | .startEntry, kinds => some (.entry :: kinds)
  | .endEntry, .entry :: kinds => some kinds
  | .startLink _, kinds => some (.link :: kinds)
  | .endLink, .link :: .entry :: kinds => some (.entry :: kinds)
  | .field _ _, kinds => some kinds
  | .value _, kinds => some kinds
  | .entryNote _, .entry :: kinds => some (.entry :: kinds)
  | .feedNote _, .feed :: kinds => some (.feed :: kinds)
  | .linkNote _ _, .entry :: kinds => some (.entry :: kinds)
  | _, _ => none

/-- An error that a converter may raise, or one that is no misplacement. -/
def Converter.Allows (convert : Converter) (err : ReadError) : Prop :=
  err.IsMisplaced → ∃ fields, convert fields = .error err

def Builder.kinds (b : Builder) : List FrameKind :=
  b.stack.map Frame.kind

namespace Builder

variable {convert : Converter} {b : Builder}

/-- A step that leaves certain parts open, or fails without a misplacement. -/
def Keeps (convert : Converter) (kinds : List FrameKind) : Outcome → Prop
  | (b, none) => b.kinds = kinds
  | (_, some err) => convert.Allows err

theorem keeps_closeNode (b : Builder) (node : Node) : Keeps convert b.kinds (b.closeNode node) := by
  obtain ⟨stack, result⟩ := b
  match stack with
  | [] =>
    cases result with
    | none => rfl
    | some other => exact False.elim
  | .feed f :: below =>
    cases node with
    | entry e => rfl
    | feed other => exact False.elim
    | value v => exact False.elim
  | .link name none :: below => rfl
  | .link name (some content) :: below => exact False.elim
  | .entry fields annotations :: below => exact False.elim

theorem keeps_endEntry (fields : Record) (annotations : EntryAnnotations) (below : List Frame)
    (result : Option Node) :
    Keeps convert (below.map Frame.kind)
      (step convert ⟨.entry fields annotations :: below, result⟩ .endEntry) := by
  cases hc : convert fields with
  | ok data =>
    have hstep : step convert ⟨.entry fields annotations :: below, result⟩ .endEntry =
        closeNode ⟨below, result⟩ (.entry ⟨data, annotations⟩) := by
      simp only [step, endEntry, hc, pop, List.tail_cons]
    rw [hstep]
    exact keeps_closeNode ⟨below, result⟩ _
  | error err =>
    have hstep : step convert ⟨.entry fields annotations :: below, result⟩ .endEntry =
        (⟨below, result⟩, some err) := by
      simp only [step, endEntry, hc, pop, List.tail_cons]
    rw [hstep]
    exact fun _ ↦ ⟨fields, hc⟩

theorem keeps_step {parts : List FrameKind} {e : Event} (h : e.placed? b.kinds = some parts) :
    Keeps convert parts (b.step convert e) := by
  obtain ⟨stack, result⟩ := b
  cases e with
  | startFeed | startEntry | startLink =>
    obtain rfl := Option.some.inj h
    rfl
  | endFeed =>
    match stack with
    | .feed f :: below =>
      obtain rfl := Option.some.inj h
      exact keeps_closeNode ⟨below, result⟩ (.feed f)
  | endEntry =>
    match stack with
    | .entry fields annotations :: below =>
      obtain rfl := Option.some.inj h
      exact keeps_endEntry fields annotations below result
  | endLink =>
    match stack with
    | .link name content :: .entry fields annotations :: below =>
      obtain rfl := Option.some.inj h
      rfl
  | field name v =>
    obtain rfl := Option.some.inj h
    match stack with
    | [] => exact False.elim
    | .entry fields annotations :: below => rfl
    | .feed f :: below => exact False.elim
    | .link name content :: below => exact False.elim
  | value v =>
    obtain rfl := Option.some.inj h
    match stack, result with
    | [], none => rfl
    | [], some node => exact False.elim
    | frame :: below, _ => exact False.elim
  | entryNote a | linkNote name a =>
    match stack with
    | .entry fields annotations :: below =>
      obtain rfl := Option.some.inj h
      rfl
  | feedNote a =>
    match stack with
    | .feed f :: below =>
      obtain rfl := Option.some.inj h
      rfl

end Builder

/-- Signals whose events are in their places between the open parts before and after them. Behind an
error nothing counts. -/
inductive InPlace : List FrameKind → List Signal → List FrameKind → Prop
  | nil (kinds : List FrameKind) : InPlace kinds [] kinds
  | event {kinds middle last : List FrameKind} {e : Event} {signals : List Signal} :
      e.placed? kinds = some middle → InPlace middle signals last →
      InPlace kinds (.event e :: signals) last
  | stop {kinds last : List FrameKind} {err : ReadError} {signals : List Signal} :
      ¬ err.IsMisplaced → InPlace kinds (.stop err :: signals) last

namespace InPlace

variable {kinds middle last : List FrameKind} {e : Event} {signals more : List Signal}

theorem single (h : e.placed? kinds = some last) : InPlace kinds [.event e] last :=
  .event h (.nil last)

theorem append (h : InPlace kinds signals middle) (h' : InPlace middle more last) :
    InPlace kinds (signals ++ more) last := by
  induction h with
  | nil => exact h'
  | event he _ ih => exact .event he (ih h')
  | stop herr => exact .stop herr

/-- Events that leave the open parts as they are. -/
theorem of_forall (h : ∀ s ∈ signals, ∃ e, s = .event e ∧ e.placed? kinds = some kinds) :
    InPlace kinds signals kinds := by
  induction signals with
  | nil => exact .nil kinds
  | cons s rest ih =>
    obtain ⟨⟨e, rfl, he⟩, hrest⟩ := List.forall_mem_cons.1 h
    exact .event he (ih hrest)

variable {convert : Converter} {b : Builder}

theorem run (h : InPlace kinds signals last) (hb : b.kinds = kinds) :
    (∀ b', b.run convert signals = .ok b' → b'.kinds = last) ∧
      ∀ err, b.run convert signals = .error err → convert.Allows err := by
  induction h generalizing b with
  | nil =>
    refine ⟨fun b' hrun ↦ ?_, fun err herr ↦ by contradiction⟩
    obtain rfl := Except.ok.inj hrun
    exact hb
  | @event kinds middle last e signals he _ ih =>
    have hkeeps : Builder.Keeps convert middle (b.step convert e) := Builder.keeps_step (hb ▸ he)
    rw [Builder.run]
    rcases hstep : b.step convert e with ⟨next, _ | err⟩
    · rw [hstep] at hkeeps
      exact ih hkeeps
    · rw [hstep] at hkeeps
      refine ⟨fun b' hrun ↦ by contradiction, fun err' herr ↦ ?_⟩
      obtain rfl := Except.error.inj herr
      exact hkeeps
  | stop herr =>
    refine ⟨fun b' hrun ↦ by contradiction, fun err' herr' ↦ ?_⟩
    obtain rfl := Except.error.inj herr'
    exact fun hmisplaced ↦ absurd hmisplaced herr

end InPlace

namespace OfAtom

/-- The part of the response that an element opens. -/
def Element.kind? : Element → Option FrameKind
  | feed => some .feed
  | entry => some .entry
  | link => some .link
  | other => none

/-- An expanded link stands right inside an entry. -/
def LinksInEntries : List Element → Prop
  | [] => True
  | element :: around =>
    (element = .link → around.head? = some .entry) ∧ LinksInEntries around

def State.kinds (s : State) : List FrameKind :=
  s.elements.filterMap Element.kind?

/-- The state after some tokens, with the signals of them all. -/
def readFrom (s : State) : List Xml.Token → Outcome
  | [] => (s, [])
  | token :: rest =>
    let (next, signals) := step s token
    let (final, more) := readFrom next rest
    (final, signals ++ more)

theorem signalsFrom_eq (s : State) (tokens : List Xml.Token) :
    signalsFrom s tokens = (readFrom s tokens).2 ++ finish (readFrom s tokens).1 := by
  induction tokens generalizing s with
  | nil => rfl
  | cons token rest ih => simp only [signalsFrom, readFrom, ih, List.append_assoc]

/-- The element that a text is read in. -/
def TextUse.element : TextUse → Element
  | count => .feed
  | id => .entry

/-- What is being read has its place in the outline, and so have the links. -/
structure State.Consistent (s : State) : Prop where
  links : LinksInEntries s.elements
  text : ∀ use depth read, s.mode = .text use depth read → s.elements.head? = some use.element

/-- A step of the reader whose events are in their places, between the open elements before and
after it. -/
structure Fits (elements : List Element) (outcome : Outcome) : Prop where
  inPlace : InPlace (elements.filterMap Element.kind?) outcome.2 outcome.1.kinds
  consistent : outcome.1.Consistent

variable {elements : List Element} {t : Xml.Tag} {signals : List Signal}

theorem fits_outline {after : List Element} (hl : LinksInEntries after)
    (h : InPlace (elements.filterMap Element.kind?) signals (after.filterMap Element.kind?)) :
    Fits elements (outline after signals) :=
  ⟨h, hl, nofun⟩

/-- An element without a meaning of its own leaves the open parts as they are. -/
theorem fits_other (hl : LinksInEntries elements)
    (h : InPlace (elements.filterMap Element.kind?) signals (elements.filterMap Element.kind?)) :
    Fits elements (outline (.other :: elements) signals) :=
  fits_outline ⟨nofun, hl⟩ h

theorem fits_text {use : TextUse} (depth : Nat) (read : List Char) (hl : LinksInEntries elements)
    (hu : elements.head? = some use.element) :
    Fits elements (⟨elements, .text use depth read⟩, []) := by
  refine ⟨.nil _, hl, fun use' depth' read' h ↦ ?_⟩
  obtain ⟨rfl, -, -⟩ := Mode.text.inj h
  exact hu

theorem fits_properties (record : Record) (opened : List OpenProperty)
    (hl : LinksInEntries elements) :
    Fits elements (⟨elements, .properties record opened⟩, []) :=
  ⟨.nil _, hl, nofun⟩

theorem filterMap_of_head? {element : Element} (h : elements.head? = some element) :
    elements.filterMap Element.kind? =
      element.kind?.toList ++ elements.tail.filterMap Element.kind? := by
  cases elements with
  | nil => contradiction
  | cons first rest =>
    obtain rfl := Option.some.inj h
    cases hk : first.kind? <;> simp [hk]

/-- Signals of an element that annotate the part around it, or the end of reading. -/
theorem inPlace_orStop {α : Type} {annotating : α → Event} {kind : FrameKind}
    (hplaced : ∀ a kinds, (annotating a).placed? (kind :: kinds) = some (kind :: kinds))
    {signals : Except Xml.Fault (List Signal)}
    (h : ∀ ss, signals = .ok ss → ∀ s ∈ ss, ∃ a, s = .event (annotating a)) {element : Element}
    (hk : element.kind? = some kind) (he : elements.head? = some element) :
    InPlace (elements.filterMap Element.kind?) (orStop signals)
      (elements.filterMap Element.kind?) := by
  cases signals with
  | error fault => exact .stop id
  | ok ss =>
    rw [filterMap_of_head? he, hk]
    refine .of_forall fun s hs ↦ ?_
    obtain ⟨a, rfl⟩ := h ss rfl s hs
    exact ⟨_, rfl, hplaced a _⟩

theorem inPlace_orStop_entry {signals : Except Xml.Fault (List Signal)}
    (h : ∀ ss, signals = .ok ss → ∀ s ∈ ss, ∃ a, s = annotatingEntry a)
    (he : elements.head? = some .entry) :
    InPlace (elements.filterMap Element.kind?) (orStop signals)
      (elements.filterMap Element.kind?) :=
  inPlace_orStop (fun _ _ ↦ rfl) h rfl he

theorem inPlace_orStop_feed {signals : Except Xml.Fault (List Signal)}
    (h : ∀ ss, signals = .ok ss → ∀ s ∈ ss, ∃ a, s = annotatingFeed a)
    (he : elements.head? = some .feed) :
    InPlace (elements.filterMap Element.kind?) (orStop signals)
      (elements.filterMap Element.kind?) :=
  inPlace_orStop (fun _ _ ↦ rfl) h rfl he

theorem of_entryLink {ss : List Signal} (h : entryLink t = .ok ss) :
    ∀ s ∈ ss, ∃ a, s = annotatingEntry a := by
  obtain ⟨relation, -, h⟩ := Except.bind_eq_ok.1 h
  obtain ⟨address, -, h⟩ := Except.bind_eq_ok.1 h
  intro s hs
  split at h
  · obtain rfl := Except.ok.inj h
    exact ⟨_, List.mem_singleton.1 hs⟩
  · obtain rfl := Except.ok.inj h
    exact ⟨_, List.mem_singleton.1 hs⟩
  · obtain ⟨etag, -, h⟩ := Except.bind_eq_ok.1 h
    obtain rfl := Except.ok.inj h
    rcases List.mem_cons.1 hs with rfl | hs
    · exact ⟨_, rfl⟩
    · obtain ⟨text, -, rfl⟩ := List.mem_map.1 hs
      exact ⟨_, rfl⟩
  · obtain rfl := Except.ok.inj h
    contradiction

theorem of_feedLink {ss : List Signal} (h : feedLink t = .ok ss) :
    ∀ s ∈ ss, ∃ a, s = annotatingFeed a := by
  obtain ⟨relation, -, h⟩ := Except.bind_eq_ok.1 h
  obtain ⟨address, -, h⟩ := Except.bind_eq_ok.1 h
  intro s hs
  split at h
  · obtain rfl := Except.ok.inj h
    exact ⟨_, List.mem_singleton.1 hs⟩
  · obtain rfl := Except.ok.inj h
    exact ⟨_, List.mem_singleton.1 hs⟩
  · obtain rfl := Except.ok.inj h
    contradiction

theorem of_mediaContent {ss : List Signal} (h : mediaContent t = .ok ss) :
    ∀ s ∈ ss, ∃ a, s = annotatingEntry a := by
  obtain ⟨source, -, h⟩ := Except.bind_eq_ok.1 h
  intro s hs
  split at h
  · obtain rfl := Except.ok.inj h
    contradiction
  · obtain ⟨contentType, -, h⟩ := Except.bind_eq_ok.1 h
    obtain rfl := Except.ok.inj h
    rcases List.mem_cons.1 hs with rfl | hs
    · exact ⟨_, rfl⟩
    · exact ⟨_, List.mem_singleton.1 hs⟩

theorem of_entryEtag {ss : List Signal} (h : entryEtag t = .ok ss) :
    ∀ s ∈ ss, ∃ a, s = annotatingEntry a := by
  obtain ⟨etag, -, h⟩ := Except.bind_eq_ok.1 h
  obtain rfl := Except.ok.inj h
  intro s hs
  obtain ⟨text, -, rfl⟩ := List.mem_map.1 hs
  exact ⟨_, rfl⟩

theorem of_entryCategory {ss : List Signal} (h : entryCategory t = .ok ss) :
    ∀ s ∈ ss, ∃ a, s = annotatingEntry a := by
  obtain ⟨term, -, h⟩ := Except.bind_eq_ok.1 h
  obtain rfl := Except.ok.inj h
  intro s hs
  obtain ⟨text, -, rfl⟩ := List.mem_map.1 hs
  exact ⟨_, rfl⟩

/-- A text that is no value of its type is the only fault of a property. -/
theorem invalidValue_of_value {typeName : Option String} {text : String} {fault : ResponseFault}
    (h : TypedText.value typeName text = .error fault) :
    ∃ name detail, fault = .invalidValue name text detail := by
  simp only [TypedText.value] at h
  split at h <;> grind

theorem not_isMisplaced_of_value {p : OpenProperty} {fault : ResponseFault}
    (h : p.value = .error fault) : ¬ fault.IsMisplaced := by
  unfold OpenProperty.value at h
  split at h
  · contradiction
  · split at h
    · contradiction
    · split at h
      · contradiction
      · obtain ⟨name, detail, rfl⟩ := invalidValue_of_value h
        exact id

theorem fits_startOutline (hl : LinksInEntries elements) :
    Fits elements (startOutline elements t) := by
  unfold startOutline
  split
  · exact fits_outline ⟨nofun, hl⟩ (.single rfl)
  · refine fits_outline ⟨nofun, hl⟩ (.event rfl ?_)
    have hentry : (Element.entry :: elements).head? = some .entry := rfl
    exact inPlace_orStop_entry (fun _ ↦ of_entryEtag) hentry
  · rename_i he
    exact fits_text 0 [] hl he
  · rename_i he
    exact fits_text 0 [] hl he
  · exact fits_properties [] [] hl
  · rename_i he
    split
    · exact fits_outline hl (.stop id)
    · exact fits_outline ⟨fun _ ↦ he, hl⟩ (.single rfl)
    · exact fits_other hl (inPlace_orStop_entry (fun _ ↦ of_entryLink) he)
  · rename_i he
    exact fits_other hl (inPlace_orStop_feed (fun _ ↦ of_feedLink) he)
  · rename_i he
    exact fits_other hl (inPlace_orStop_entry (fun _ ↦ of_mediaContent) he)
  · exact fits_other hl (.nil _)

theorem inPlace_emptyOutline (elements : List Element) (t : Xml.Tag) :
    InPlace (elements.filterMap Element.kind?) (emptyOutline elements t)
      (elements.filterMap Element.kind?) := by
  unfold emptyOutline
  split
  · rename_i he
    split
    · exact .stop id
    · exact .nil _
    · exact inPlace_orStop_entry (fun _ ↦ of_entryLink) he
  · rename_i he
    exact inPlace_orStop_feed (fun _ ↦ of_feedLink) he
  · rename_i he
    exact inPlace_orStop_entry (fun _ ↦ of_mediaContent) he
  · rename_i he
    exact inPlace_orStop_entry (fun _ ↦ of_entryCategory) he
  · exact .event rfl (.single rfl)
  · exact .nil _

theorem fits_endOutline (hl : LinksInEntries elements) : Fits elements (endOutline elements) := by
  match elements with
  | [] => exact fits_outline trivial (.stop id)
  | .feed :: rest => exact fits_outline hl.2 (.single rfl)
  | .entry :: rest => exact fits_outline hl.2 (.single rfl)
  | .link :: rest =>
    -- the end of a link counts on the entry right around it
    have hrest := filterMap_of_head? (hl.1 rfl)
    refine fits_outline hl.2 (.single ?_)
    rw [List.filterMap_cons, hrest]
    rfl
  | .other :: rest => exact fits_outline hl.2 (.nil _)

theorem fits_stepOutline (token : Xml.Token) (hl : LinksInEntries elements) :
    Fits elements (stepOutline elements token) := by
  cases token with
  | startTag t => exact fits_startOutline hl
  | emptyTag t => exact fits_outline hl (inPlace_emptyOutline elements t)
  | endTag => exact fits_endOutline hl
  | text cs | cdata cs => exact fits_outline hl (.nil _)
  | broken => exact fits_outline hl (.stop id)

theorem fits_stepText {use : TextUse} (depth : Nat) (read : List Char) (token : Xml.Token)
    (hl : LinksInEntries elements) (hu : elements.head? = some use.element) :
    Fits elements (stepText elements use depth read token) := by
  cases token with
  | startTag t => exact fits_text (depth + 1) read hl hu
  | emptyTag t => exact fits_text depth read hl hu
  | endTag =>
    cases depth with
    | zero =>
      refine fits_outline hl ?_
      rw [filterMap_of_head? hu]
      cases use with
      | count => exact .single rfl
      | id => exact .single rfl
    | succ depth => exact fits_text depth read hl hu
  | text cs =>
    rw [stepText]
    split
    · exact fits_text depth _ hl hu
    · exact fits_outline hl (.stop id)
  | cdata cs => exact fits_text depth read hl hu
  | broken => exact fits_outline hl (.stop id)

theorem fits_addProperty (record : Record) (opened : List OpenProperty) (name : String) (v : Value)
    (hl : LinksInEntries elements) :
    Fits elements (⟨elements, addProperty record opened name v⟩, []) := by
  cases opened with
  | nil => exact fits_properties _ _ hl
  | cons p outer => exact fits_properties _ _ hl

theorem fits_stepProperties (record : Record) (opened : List OpenProperty) (token : Xml.Token)
    (hl : LinksInEntries elements) : Fits elements (stepProperties elements record opened token) := by
  cases token with
  | startTag t =>
    simp only [stepProperties]
    split
    · exact fits_properties _ _ hl
    · exact fits_outline hl (.stop id)
  | emptyTag t =>
    simp only [stepProperties]
    split
    · exact fits_addProperty _ _ _ _ hl
    · exact fits_outline hl (.stop id)
  | endTag =>
    cases opened with
    | nil =>
      refine fits_outline hl (.of_forall fun s hs ↦ ?_)
      obtain ⟨field, -, rfl⟩ := List.mem_map.1 hs
      exact ⟨_, rfl, rfl⟩
    | cons p outer =>
      simp only [stepProperties]
      split
      · exact fits_addProperty _ _ _ _ hl
      · rename_i fault hfault
        exact fits_outline hl (.stop (not_isMisplaced_of_value hfault))
  | text cs =>
    cases opened with
    | nil => exact fits_properties _ _ hl
    | cons p outer =>
      simp only [stepProperties]
      split
      · exact fits_properties _ _ hl
      · exact fits_outline hl (.stop id)
  | cdata cs =>
    cases opened with
    | nil => exact fits_properties _ _ hl
    | cons p outer => exact fits_properties _ _ hl
  | broken => exact fits_outline hl (.stop id)

variable {s : State}

theorem fits_step (token : Xml.Token) (hs : s.Consistent) : Fits s.elements (step s token) := by
  unfold step
  split
  · exact fits_stepOutline token hs.links
  · rename_i use depth read hmode
    exact fits_stepText depth read token hs.links (hs.text use depth read hmode)
  · exact fits_stepProperties _ _ token hs.links

theorem fits_readFrom (tokens : List Xml.Token) (hs : s.Consistent) :
    Fits s.elements (readFrom s tokens) := by
  induction tokens generalizing s with
  | nil => exact ⟨.nil _, hs⟩
  | cons token rest ih =>
    have hstep := fits_step token hs
    have hrest := ih hstep.consistent
    exact ⟨hstep.inPlace.append hrest.inPlace, hrest.consistent⟩

theorem consistent_start : State.start.Consistent :=
  ⟨trivial, nofun⟩

/-- Reading ends with no open element, or with an error. -/
theorem inPlace_finish (s : State) : InPlace s.kinds (finish s) [] := by
  unfold finish
  split
  · exact .stop id
  · exact .stop id
  · exact .stop id
  · split
    · rename_i he
      rw [State.kinds, he]
      exact .nil []
    · exact .stop id

theorem inPlace_signalsFrom (tokens : List Xml.Token) :
    InPlace [] (signalsFrom .start tokens) [] := by
  rw [signalsFrom_eq]
  exact (fits_readFrom tokens consistent_start).inPlace.append (inPlace_finish _)

/-- At every token the open elements, those without a meaning apart, are the open parts of the builder.
So no event is ever out of its place, and where reading ends well, no part is left open: the result is
the root, or there is none. -/
theorem open_parts_eq_elements (convert : Converter) (tokens : List Xml.Token) :
    (∀ read, read <+: tokens → ∀ b,
      Builder.empty.run convert (readFrom .start read).2 = .ok b →
        b.stack.map Frame.kind = (readFrom .start read).1.elements.filterMap Element.kind?) ∧
    (∀ err, Builder.empty.run convert (signalsFrom .start tokens) = .error err →
      err.IsMisplaced → ∃ fields, convert fields = .error err) ∧
    ∀ b, Builder.empty.run convert (signalsFrom .start tokens) = .ok b →
      b.stack = [] ∧
        ((∃ node, b.result = some node ∧ b.finish = .ok node) ∨
          b.finish = .error (.malformed .noRoot)) := by
  have hempty : Builder.empty.kinds = [] := rfl
  refine ⟨fun read _ b hrun ↦ ?_, fun err herr ↦ ?_, fun b hrun ↦ ?_⟩
  · have hfits := fits_readFrom read consistent_start
    exact (hfits.inPlace.run hempty).1 b hrun
  · exact ((inPlace_signalsFrom tokens).run hempty).2 err herr
  · have hkinds := ((inPlace_signalsFrom tokens).run hempty).1 b hrun
    have hstack : b.stack = [] := List.map_eq_nil_iff.1 hkinds
    refine ⟨hstack, ?_⟩
    rw [Builder.finish, hstack]
    cases b.result with
    | none => exact .inr rfl
    | some node => exact .inl ⟨node, rfl, rfl⟩

def openingTag (name rest : String) : Xml.Token :=
  .startTag ⟨name.toList, rest.toList⟩

/-- An entry inside a link of an entry, with elements around it that mean nothing. -/
def withinLink : List Xml.Token :=
  [openingTag "feed" "", openingTag "entry" "", openingTag "link" " rel='x/related/Category'",
    openingTag "m:inline" "", openingTag "entry" ""]

theorem open_parts_withinLink :
    (readFrom .start withinLink).1.elements = [.entry, .other, .link, .entry, .feed] ∧
      (∃ b, Builder.empty.run .ok (readFrom .start withinLink).2 = .ok b ∧
        b.stack.map Frame.kind = [.entry, .link, .entry, .feed]) ∧
      ∃ b, Builder.empty.run .ok (signalsFrom .start
          (withinLink ++ List.replicate 5 .endTag)) = .ok b ∧ b.stack = [] := by
  have helements : (readFrom .start withinLink).1.elements =
      [.entry, .other, .link, .entry, .feed] := by
    cbv
  have hopened : ∃ b, Builder.empty.run .ok (readFrom .start withinLink).2 = .ok b := ⟨_, by cbv⟩
  have hclosed : ∃ b, Builder.empty.run .ok (signalsFrom .start
      (withinLink ++ List.replicate 5 .endTag)) = .ok b := ⟨_, by cbv⟩
  obtain ⟨b, hb⟩ := hopened
  obtain ⟨c, hc⟩ := hclosed
  have hkinds := (open_parts_eq_elements .ok withinLink).1 withinLink List.prefix_rfl b hb
  rw [helements] at hkinds
  exact ⟨helements, ⟨b, hb, hkinds⟩, c, hc, ((open_parts_eq_elements .ok _).2.2 c hc).1⟩

end OfAtom
end OData
