import OData.Proofs.Response.AtomElements
import OData.Response.Payload

/-!
Empty elements of an Atom response, with one tag or with two. The reader has a table for each form. The
tables agree on most elements, and what they agree on can be written either way anywhere in a document;
on the others a document can be found whose meaning depends on the form.
-/

namespace OData

namespace Builder

variable {convert : Converter}

/-- A link without content changes nothing in the entry around it. -/
theorem run_emptyLink (b : Builder) (name : String) (h : b.kinds.head? = some .entry) :
    b.run convert [.event (.startLink name), .event .endLink] = .ok b := by
  obtain ⟨stack, result⟩ := b
  cases stack with
  | nil => contradiction
  | cons frame below =>
    cases frame with
    | feed f => exact FrameKind.noConfusion (Option.some.inj h)
    | link name content => exact FrameKind.noConfusion (Option.some.inj h)
    | entry fields annotations => rfl

end Builder

namespace OfAtom

open Xml (Tag Token)

/-- Where a tag stands: in the outline, right inside an element or at the top; in a text; or among
properties. -/
inductive Place
  | outline (parent : Option Element)
  | text
  | properties
  deriving DecidableEq

def State.place (s : State) : Place :=
  match s.mode with
  | .outline => .outline s.elements.head?
  | .text _ _ _ => .text
  | .properties _ _ => .properties

/-- An empty element on which the tables agree. Of the outline they tell apart an entry, the category of
an entry that names a type, the identity of an entry and the count of a feed; of the properties, those
of a type that is neither a collection nor a string. -/
def EitherWay : Place → Tag → Prop
  | .outline parent, t => t.localName ≠ "entry" ∧
      (t.localName = "category" → parent = some .entry → entryCategory t = .ok []) ∧
      (t.localName = "id" → parent ≠ some .entry) ∧
      (t.localName = "count" → parent ≠ some .feed)
  | .text, _ => True
  | .properties, t => ∀ p, openProperty t = .ok p →
      p.isNull ∨ isCollectionType p.typeName ∨ p.typeName.getD "Edm.String" = "Edm.String"

/-- Tokens of a document in which some empty elements, at places of a kind, are given an end tag. -/
inductive Reopened (P : Place → Tag → Prop) : State → List Token → List Token → Prop
  | nil (s : State) : Reopened P s [] []
  | keep {s : State} {token : Token} {tokens tokens' : List Token}
      (rest : Reopened P (step s token).1 tokens tokens') :
      Reopened P s (token :: tokens) (token :: tokens')
  | reopen {s : State} {t : Tag} {tokens tokens' : List Token} (h : P s.place t)
      (rest : Reopened P (step s (.emptyTag t)).1 tokens tokens') :
      Reopened P s (.emptyTag t :: tokens) (.startTag t :: .endTag :: tokens')

/-! ### Properties -/

variable {t : Tag} {p : OpenProperty}

theorem eq_of_openProperty (h : openProperty t = .ok p) :
    p.name = t.localName ∧ p.text = [] ∧ p.children = [] := by
  obtain ⟨typeName, -, h⟩ := Except.bind_eq_ok.1 h
  obtain ⟨mark, -, h⟩ := Except.bind_eq_ok.1 h
  obtain rfl := Except.ok.inj h
  exact ⟨rfl, rfl, rfl⟩

/-- The value of an empty property in terms of the same as an open one. -/
theorem emptyProperty_eq (t : Tag) : emptyProperty t = (openProperty t).map fun p ↦
    if p.isNull then .null
    else if isCollectionType p.typeName then .collection []
    else if p.typeName.getD "Edm.String" = "Edm.String" then .string "" else .null := by
  rw [emptyProperty, openProperty]
  cases t.attribute "type" with
  | error fault => rfl
  | ok typeName =>
    cases t.attribute "null" with
    | error fault => rfl
    | ok mark => simp [bind, Except.bind, pure, Except.pure, Except.map]

theorem value_of_openProperty (h : openProperty t = .ok p) : p.value =
    if p.isNull then .ok .null
    else if isCollectionType p.typeName then .ok (.collection [])
    else TypedText.value p.typeName "" := by
  obtain ⟨-, htext, hchildren⟩ := eq_of_openProperty h
  rw [OpenProperty.value, htext, hchildren]
  simp

theorem value_of_string {typeName : Option String}
    (h : typeName.getD "Edm.String" = "Edm.String") (text : String) :
    TypedText.value typeName text = .ok (.string text) := by
  simp [TypedText.value, h]

theorem value_ne_null (typeName : Option String) (text : String) :
    TypedText.value typeName text ≠ .ok .null := by
  intro h
  simp only [TypedText.value] at h
  split at h <;> grind

/-- Both forms of a property have the same value, or they are at fault. -/
theorem value_eq_emptyProperty (h : EitherWay .properties t) (hp : openProperty t = .ok p) :
    ∃ v, p.value = .ok v ∧ emptyProperty t = .ok v := by
  rw [emptyProperty_eq, hp, value_of_openProperty hp, Except.map]
  by_cases hnull : p.isNull
  · exact ⟨.null, if_pos hnull, by rw [if_pos hnull]⟩
  · rw [if_neg hnull, if_neg hnull]
    by_cases hcollection : isCollectionType p.typeName
    · exact ⟨.collection [], if_pos hcollection, by rw [if_pos hcollection]⟩
    · have hstring := ((h p hp).resolve_left hnull).resolve_left hcollection
      rw [if_neg hcollection, if_neg hcollection, if_pos hstring, value_of_string hstring]
      exact ⟨.string "", rfl, rfl⟩

/-! ### One element -/

/-- Outcomes at whose signals a builder fails in both, or after which it is the same, and the reader
too. -/
inductive Agree (convert : Converter) (b : Builder) : Outcome → Outcome → Prop
  | same {s : State} {signals signals' : List Signal}
      (h : b.run convert signals = b.run convert signals') : Agree convert b (s, signals) (s, signals')
  | fail {s s' : State} {signals signals' : List Signal} {e e' : ReadError}
      (h : b.run convert signals = .error e) (h' : b.run convert signals' = .error e') :
      Agree convert b (s, signals) (s', signals')

variable {convert : Converter} {b : Builder} {s : State} {elements : List Element}

theorem agree_of_eq {o o' : Outcome} (h : o = o') : Agree convert b o o' :=
  h ▸ .same rfl

theorem readFrom_pair {s' s'' : State} {first second : Token} {signals signals' : List Signal}
    (h : step s first = (s', signals)) (h' : step s' second = (s'', signals')) :
    readFrom s [first, second] = (s'', signals ++ signals') := by
  rw [readFrom_cons h, readFrom_cons h', readFrom, List.append_nil]

theorem agree_properties (record : Record) (opened : List OpenProperty)
    (h : EitherWay .properties t) :
    Agree convert b (step ⟨elements, .properties record opened⟩ (.emptyTag t))
      (readFrom ⟨elements, .properties record opened⟩ [.startTag t, .endTag]) := by
  cases hp : openProperty t with
  | error fault =>
    have hempty : emptyProperty t = .error fault := by rw [emptyProperty_eq, hp, Except.map]
    simp only [step, stepProperties, readFrom, hp, hempty]
    exact .fail rfl rfl
  | ok p =>
    obtain ⟨v, hv, hempty⟩ := value_eq_emptyProperty h hp
    obtain ⟨hname, -, -⟩ := eq_of_openProperty hp
    refine agree_of_eq ?_
    have hopen : step ⟨elements, .properties record opened⟩ (.startTag t) =
        (⟨elements, .properties record (p :: opened)⟩, []) := by
      simp only [step, stepProperties, hp]
    have hclose : step ⟨elements, .properties record (p :: opened)⟩ .endTag =
        (⟨elements, addProperty record opened t.localName v⟩, []) := by
      simp only [step, stepProperties, hv, hname]
    rw [readFrom_pair hopen hclose]
    simp only [step, stepProperties, hempty, List.append_nil]

/-- What a start tag of the outline gives, beside what the empty tag does: the signals of the start of an
element that then ends, a block of properties, a link that is expanded, or the end of reading. -/
inductive Forms (elements : List Element) : Outcome → List Signal → Prop
  | element (element : Element) {signals more : List Signal} (h : more = signals ++ element.ending) :
      Forms elements (outline (element :: elements) signals) more
  | properties : Forms elements (⟨elements, .properties [] []⟩, []) []
  | link (name : String) (h : elements.head? = some .entry) :
      Forms elements (outline (.link :: elements) [.event (.startLink name)]) []
  | fault : Forms elements (outline elements [.stop .xml]) [.stop .xml]

theorem forms_outline (h : EitherWay (.outline elements.head?) t) :
    Forms elements (startOutline elements t) (emptyOutline elements t) := by
  obtain ⟨hentry, hcategory, hid, hcount⟩ := h
  unfold startOutline
  split
  · rename_i hname
    exact .element .feed (by simp [emptyOutline, hname, Element.ending])
  · contradiction
  · rename_i hname hparent
    exact absurd hparent (hcount hname)
  · rename_i hname hparent
    exact absurd hparent (hid hname)
  · rename_i hname
    have hempty : emptyOutline elements t = [] := by simp [emptyOutline, hname]
    rw [hempty]
    exact .properties
  · rename_i hname hparent
    simp only [emptyOutline, hname, hparent]
    cases navigationName t with
    | error fault => exact .fault
    | ok name? =>
      cases name? with
      | some name => exact .link name hparent
      | none => exact .element .other (List.append_nil _).symm
  · rename_i hname hparent
    exact .element .other (by simp [emptyOutline, hname, hparent, Element.ending])
  · rename_i hname hparent
    exact .element .other (by simp [emptyOutline, hname, hparent, Element.ending])
  · rename_i hfeed _ _ _ _ hlink hfeedLink hcontent
    refine .element .other ?_
    unfold emptyOutline
    split
    · rename_i hname hparent
      exact (hlink hname hparent).elim
    · rename_i hname hparent
      exact (hfeedLink hname hparent).elim
    · rename_i hname hparent
      exact (hcontent hname hparent).elim
    · rename_i hname hparent
      rw [hcategory hname hparent]
      rfl
    · rename_i hname
      exact (hfeed hname).elim
    · rfl

/-- Beside an entry, an identity and a count, an element of the outline gives the same signals with one
tag and with two, but for the category of an entry, and for a link that is expanded to nothing. -/
theorem agree_outline (hb : b.kinds = elements.filterMap Element.kind?)
    (h : EitherWay (.outline elements.head?) t) :
    Agree convert b (step ⟨elements, .outline⟩ (.emptyTag t))
      (readFrom ⟨elements, .outline⟩ [.startTag t, .endTag]) := by
  have hempty : step ⟨elements, .outline⟩ (.emptyTag t) =
      outline elements (emptyOutline elements t) := rfl
  have hstart : step ⟨elements, .outline⟩ (.startTag t) = startOutline elements t := rfl
  have hforms := forms_outline h
  rw [hempty]
  generalize startOutline elements t = o at hstart hforms
  generalize emptyOutline elements t = signals at hforms
  cases hforms with
  | element element hsignals =>
    have hend : step ⟨element :: elements, .outline⟩ .endTag = outline elements element.ending := by
      cases element <;> rfl
    rw [readFrom_pair hstart hend, hsignals]
    exact .same rfl
  | properties =>
    have hend : step ⟨elements, .properties [] []⟩ .endTag = outline elements [] := rfl
    rw [readFrom_pair hstart hend]
    exact .same rfl
  | link name hparent =>
    have hend : step ⟨.link :: elements, .outline⟩ .endTag = outline elements [.event .endLink] := rfl
    rw [readFrom_pair hstart hend]
    have hb : b.kinds.head? = some .entry := by
      rw [hb, filterMap_of_head? hparent]
      rfl
    exact .same (b.run_emptyLink name hb).symm
  | fault =>
    obtain ⟨⟨s', signals'⟩, hend⟩ : ∃ o, step ⟨elements, .outline⟩ .endTag = o := ⟨_, rfl⟩
    rw [readFrom_pair hstart hend]
    exact .fail rfl rfl

theorem agree_reopened (hb : b.kinds = s.kinds) (h : EitherWay s.place t) :
    Agree convert b (step s (.emptyTag t)) (readFrom s [.startTag t, .endTag]) := by
  obtain ⟨elements, mode⟩ := s
  cases mode with
  | outline => exact agree_outline hb h
  | text use depth read => exact agree_of_eq rfl
  | properties record opened => exact agree_properties record opened h

/-! ### Documents -/

theorem toOption_ofSignals (signals : List Signal) : (Node.ofSignals convert signals).toOption =
    (Builder.empty.run convert signals).toOption.bind fun b ↦ b.finish.toOption := by
  rw [Node.ofSignals]
  cases Builder.empty.run convert signals <;> rfl

/-- The node of a document, whose entries pass through a converter. -/
def ofTokens (convert : Converter) (tokens : List Token) : Except ReadError Node :=
  Node.ofSignals convert (signalsFrom .start tokens)

/-- A builder whose open parts are those of the reader comes to the same, if both forms of the elements
that are reopened agree. -/
theorem run_reopened {tokens tokens' : List Token} (h : Reopened EitherWay s tokens tokens')
    (hs : s.Consistent) (hb : b.kinds = s.kinds) :
    (b.run convert (signalsFrom s tokens)).toOption =
      (b.run convert (signalsFrom s tokens')).toOption := by
  induction h generalizing b with
  | nil s => rfl
  | @keep s token tokens tokens' rest ih =>
    have hfits := fits_step token hs
    rw [signalsFrom, signalsFrom, Builder.run_append, Builder.run_append]
    cases hrun : b.run convert (step s token).2 with
    | error e => rfl
    | ok b' => exact ih hfits.consistent ((hfits.inPlace.run hb).1 b' hrun)
  | @reopen s t tokens tokens' h rest ih =>
    have hfits := fits_step (.emptyTag t) hs
    have hagree : Agree convert b (step s (.emptyTag t)) (readFrom s [.startTag t, .endTag]) :=
      agree_reopened hb h
    have hpair : signalsFrom s (.startTag t :: .endTag :: tokens') =
        (readFrom s [.startTag t, .endTag]).2 ++
          signalsFrom (readFrom s [.startTag t, .endTag]).1 tokens' := by
      simp only [signalsFrom, readFrom, List.append_assoc, List.append_nil]
    rw [hpair, signalsFrom, Builder.run_append, Builder.run_append]
    generalize readFrom s [.startTag t, .endTag] = o' at hagree
    generalize step s (.emptyTag t) = o at hagree hfits rest ih
    cases hagree with
    | fail he he' => rw [he, he']; rfl
    | @same s' signals signals' hsame =>
      rw [← hsame]
      cases hrun : b.run convert signals with
      | error e => rfl
      | ok b' => exact ih hfits.consistent ((hfits.inPlace.run hb).1 b' hrun)

/-! ### Where the form counts -/

/-- Tokens after which the reader and the builder are in certain states. -/
def Begins (before : List Token) (s : State) (b : Builder) : Prop :=
  ∃ signals, readFrom .start before = (s, signals) ∧ Builder.empty.run .ok signals = .ok b

/-- The two forms of an empty element within a document. -/
def inOneTag (before : List Token) (t : Tag) (after : List Token) : List Token :=
  before ++ .emptyTag t :: after

def inTwoTags (before : List Token) (t : Tag) (after : List Token) : List Token :=
  before ++ .startTag t :: .endTag :: after

/-- A document whose meaning depends on the form of one of its elements. -/
def TellsApart (before : List Token) (t : Tag) (after : List Token) : Prop :=
  (ofTokens .ok (inOneTag before t after)).toOption ≠
    (ofTokens .ok (inTwoTags before t after)).toOption

section

variable {before after rest : List Token} {signals signals' : List Signal} {s' s'' : State}
  {a : EntryAnnotations} {node node' : Node} {e : ReadError}

theorem Begins.place (h : Begins before s b) : (readFrom .start before).1.place = s.place := by
  obtain ⟨signals, hread, -⟩ := h
  rw [hread]

theorem Begins.ofTokens (h : Begins before s b) :
    ofTokens .ok (before ++ rest) = b.run .ok (signalsFrom s rest) >>= Builder.finish := by
  obtain ⟨signals, hread, hrun⟩ := h
  rw [OfAtom.ofTokens, Node.ofSignals, signalsFrom_eq, readFrom_append, hread, List.append_assoc,
    ← signalsFrom_eq, Builder.run_append, hrun]
  rfl

theorem signalsFrom_cons {token : Token} (h : step s token = (s', signals)) :
    signalsFrom s (token :: rest) = signals ++ signalsFrom s' rest := by
  rw [signalsFrom, h]

theorem Begins.inOneTag (h : Begins before s b) (after : List Token)
    (hstep : step s (.emptyTag t) = (s', signals)) :
    OfAtom.ofTokens .ok (inOneTag before t after) =
      b.run .ok (signals ++ signalsFrom s' after) >>= Builder.finish := by
  rw [OfAtom.inOneTag, h.ofTokens, signalsFrom_cons hstep]

theorem Begins.inTwoTags (h : Begins before s b) (after : List Token)
    (hstart : step s (.startTag t) = (s', signals)) (hend : step s' .endTag = (s'', signals')) :
    OfAtom.ofTokens .ok (inTwoTags before t after) =
      b.run .ok (signals ++ (signals' ++ signalsFrom s'' after)) >>= Builder.finish := by
  rw [OfAtom.inTwoTags, h.ofTokens, signalsFrom_cons hstart, signalsFrom_cons hend]

theorem tellsApart_of_error (h : ofTokens .ok (inOneTag before t after) = .ok node)
    (h' : ofTokens .ok (inTwoTags before t after) = .error e) : TellsApart before t after := by
  rw [TellsApart, h, h']
  exact Option.some_ne_none node

theorem tellsApart_of_ok {α : Type} (f : Node → α)
    (h : ofTokens .ok (inOneTag before t after) = .ok node)
    (h' : ofTokens .ok (inTwoTags before t after) = .ok node') (hf : f node ≠ f node') :
    TellsApart before t after := by
  rw [TellsApart, h, h']
  exact fun heq ↦ hf (congrArg f (Option.some.inj heq))

/-- An entry without content stops the reading, or opens with annotations only. -/
theorem run_startEntry (t : Tag) (b : Builder) :
    (∀ more, b.run .ok (.event .startEntry :: orStop (entryEtag t) ++ more) = .error .xml) ∨
      ∃ a, ∀ more, b.run .ok (.event .startEntry :: orStop (entryEtag t) ++ more) =
        Builder.run .ok ⟨.entry [] a :: b.stack, b.result⟩ more := by
  rw [entryEtag]
  cases t.attribute "etag" with
  | error fault => exact .inl fun _ ↦ rfl
  | ok etag =>
    cases etag with
    | none => exact .inr ⟨.empty, fun _ ↦ rfl⟩
    | some etag => exact .inr ⟨⟨{ etag := some etag }, []⟩, fun _ ↦ rfl⟩

theorem run_endEntry (h : (b.closeNode (.entry ⟨[], a⟩)).2 = some e) (more : List Signal) :
    Builder.run .ok ⟨.entry [] a :: b.stack, b.result⟩ (.event .endEntry :: more) = .error e := by
  have hstep : Builder.step .ok ⟨.entry [] a :: b.stack, b.result⟩ .endEntry =
      b.closeNode (.entry ⟨[], a⟩) := rfl
  rw [Builder.run, hstep]
  cases hclose : b.closeNode (.entry ⟨[], a⟩) with
  | mk next failure =>
    rw [hclose] at h
    subst h
    rfl

theorem step_emptyTag_entry (hname : t.localName = "entry") :
    step ⟨elements, .outline⟩ (.emptyTag t) = outline elements [] := by
  simp [step, stepOutline, emptyOutline, hname]

theorem step_startTag_entry (hname : t.localName = "entry") :
    step ⟨elements, .outline⟩ (.startTag t) =
      outline (.entry :: elements) (.event .startEntry :: orStop (entryEtag t)) := by
  simp [step, stepOutline, startOutline, hname]

/-- An entry that cannot stand where it does goes unnoticed as an empty tag. -/
theorem tellsApart_entry (hname : t.localName = "entry") (h : Begins before ⟨elements, .outline⟩ b)
    (hafter : b.run .ok (signalsFrom ⟨elements, .outline⟩ after) >>= Builder.finish = .ok node)
    (hrefuse : ∀ a, ∃ e, (b.closeNode (.entry ⟨[], a⟩)).2 = some e) :
    TellsApart before t after := by
  have hopen : ofTokens .ok (inOneTag before t after) = .ok node :=
    (h.inOneTag after (step_emptyTag_entry hname)).trans hafter
  have hclosed := h.inTwoTags after (step_startTag_entry hname) rfl
  rcases run_startEntry t b with hstop | ⟨a, ha⟩
  · rw [hstop] at hclosed
    exact tellsApart_of_error hopen hclosed
  · obtain ⟨e, he⟩ := hrefuse a
    rw [ha, List.singleton_append, run_endEntry he] at hclosed
    exact tellsApart_of_error hopen hclosed

/-- An entry counts in a feed, unless it is an empty tag. -/
theorem tellsApart_entry_feed (hname : t.localName = "entry") :
    TellsApart [openingTag "feed" ""] t [.endTag] := by
  have hbegins : Begins [openingTag "feed" ""] ⟨[.feed], .outline⟩ ⟨[.feed ⟨[], {}⟩], none⟩ :=
    ⟨_, by cbv, rfl⟩
  have hopen : ofTokens .ok (inOneTag [openingTag "feed" ""] t [.endTag]) =
      .ok (.feed ⟨[], {}⟩) :=
    hbegins.inOneTag _ (step_emptyTag_entry hname)
  have hclosed := hbegins.inTwoTags [.endTag] (step_startTag_entry hname) rfl
  rcases run_startEntry t ⟨[.feed ⟨[], {}⟩], none⟩ with hstop | ⟨a, ha⟩
  · rw [hstop] at hclosed
    exact tellsApart_of_error hopen hclosed
  · rw [ha] at hclosed
    exact tellsApart_of_ok (·.entries.length) hopen hclosed Nat.zero_ne_one

theorem begins_entry :
    Begins [openingTag "entry" ""] ⟨[.entry], .outline⟩ ⟨[.entry [] .empty], none⟩ :=
  ⟨_, by cbv, rfl⟩

/-- An entry at a place of the outline with any parent. Beside a feed, the documents are such that no
entry can stand there. -/
theorem exists_tellsApart_entry (hname : t.localName = "entry") (parent : Option Element) :
    ∃ before after, (readFrom .start before).1.place = .outline parent ∧
      TellsApart before t after := by
  cases parent with
  | none =>
    have hbegins : Begins [openingTag "feed" "", .endTag] ⟨[], .outline⟩
        ⟨[], some (.feed ⟨[], {}⟩)⟩ :=
      ⟨_, by cbv, rfl⟩
    exact ⟨_, [], hbegins.place, tellsApart_entry hname hbegins rfl fun _ ↦ ⟨_, rfl⟩⟩
  | some parent =>
    cases parent with
    | feed => exact ⟨_, _, by cbv, tellsApart_entry_feed hname⟩
    | entry =>
      exact ⟨_, [.endTag], begins_entry.place,
        tellsApart_entry hname begins_entry rfl fun _ ↦ ⟨_, rfl⟩⟩
    | link =>
      have hbegins : Begins [openingTag "entry" "",
          openingTag "link" " rel='/related/Items'", openingTag "feed" "", .endTag]
          ⟨[.link, .entry], .outline⟩
          ⟨[.link "Items" (some (.feed ⟨[], {}⟩)), .entry [] .empty], none⟩ :=
        ⟨_, by cbv, rfl⟩
      exact ⟨_, [.endTag, .endTag], hbegins.place,
        tellsApart_entry hname hbegins rfl fun _ ↦ ⟨_, rfl⟩⟩
    | other =>
      have hbegins : Begins [openingTag "entry" "", openingTag "title" ""]
          ⟨[.other, .entry], .outline⟩ ⟨[.entry [] .empty], none⟩ :=
        ⟨_, by cbv, rfl⟩
      exact ⟨_, [.endTag, .endTag], hbegins.place,
        tellsApart_entry hname hbegins rfl fun _ ↦ ⟨_, rfl⟩⟩

/-- The category of an entry counts as an empty tag only. -/
theorem tellsApart_category (hname : t.localName = "category") (h : entryCategory t ≠ .ok []) :
    TellsApart [openingTag "entry" ""] t [.endTag] := by
  have hempty : step ⟨[.entry], .outline⟩ (.emptyTag t) =
      outline [.entry] (orStop (entryCategory t)) := by
    simp [step, stepOutline, emptyOutline, hname]
  have hstart : step ⟨[.entry], .outline⟩ (.startTag t) = outline [.other, .entry] [] := by
    simp [step, stepOutline, startOutline, hname]
  have hopen := begins_entry.inOneTag [.endTag] hempty
  have hclosed : ofTokens .ok (inTwoTags [openingTag "entry" ""] t [.endTag]) =
      .ok (.entry ⟨[], .empty⟩) :=
    begins_entry.inTwoTags _ hstart rfl
  rw [entryCategory] at h hopen
  cases hterm : t.attribute "term" with
  | error fault =>
    rw [hterm] at hopen
    rw [TellsApart, hopen, hclosed]
    exact (Option.some_ne_none _).symm
  | ok term? =>
    rw [hterm] at h hopen
    cases term? with
    | none => exact absurd rfl h
    | some term =>
      refine tellsApart_of_ok (·.entries.map (·.annotations.own.typeName)) hopen hclosed fun h ↦ ?_
      exact Option.some_ne_none _ (List.cons.inj h).1

/-- The identity of an entry counts with an end tag only. -/
theorem tellsApart_id (hname : t.localName = "id") :
    TellsApart [openingTag "entry" ""] t [.endTag] := by
  have hempty : step ⟨[.entry], .outline⟩ (.emptyTag t) = outline [.entry] [] := by
    simp [step, stepOutline, emptyOutline, hname]
  have hstart : step ⟨[.entry], .outline⟩ (.startTag t) = (⟨[.entry], .text .id 0 []⟩, []) := by
    simp [step, stepOutline, startOutline, hname]
  exact tellsApart_of_ok (·.entries.map (·.annotations.own.id)) (begins_entry.inOneTag _ hempty)
    (begins_entry.inTwoTags _ hstart rfl) (by decide)

/-- An empty count takes the count of a feed back, unless it is an empty tag. -/
theorem tellsApart_count (hname : t.localName = "count") :
    TellsApart [openingTag "feed" "", openingTag "count" "", .text ['5'], .endTag] t [.endTag] := by
  have hbegins : Begins [openingTag "feed" "", openingTag "count" "", .text ['5'], .endTag]
      ⟨[.feed], .outline⟩ ⟨[.feed ⟨[], { count := some 5 }⟩], none⟩ :=
    ⟨_, by cbv, rfl⟩
  have hempty : step ⟨[.feed], .outline⟩ (.emptyTag t) = outline [.feed] [] := by
    simp [step, stepOutline, emptyOutline, hname]
  have hstart : step ⟨[.feed], .outline⟩ (.startTag t) = (⟨[.feed], .text .count 0 []⟩, []) := by
    simp [step, stepOutline, startOutline, hname]
  exact tellsApart_of_ok Node.feedAnnotations? (hbegins.inOneTag _ hempty)
    (hbegins.inTwoTags _ hstart rfl) (by decide)

/-- A property of a type is null as an empty tag, and else what its type makes of no text. -/
theorem tellsApart_property (hp : openProperty t = .ok p) (hnull : ¬ p.isNull)
    (hcollection : ¬ isCollectionType p.typeName)
    (hstring : p.typeName.getD "Edm.String" ≠ "Edm.String") :
    TellsApart [openingTag "entry" "", openingTag "properties" ""] t [.endTag, .endTag] := by
  have hbegins : Begins [openingTag "entry" "", openingTag "properties" ""]
      ⟨[.entry], .properties [] []⟩ ⟨[.entry [] .empty], none⟩ :=
    ⟨_, by cbv, rfl⟩
  have hempty : emptyProperty t = .ok .null := by
    rw [emptyProperty_eq, hp, Except.map, if_neg hnull, if_neg hcollection, if_neg hstring]
  have hvalue : p.value = TypedText.value p.typeName "" := by
    rw [value_of_openProperty hp, if_neg hnull, if_neg hcollection]
  have hstep : step ⟨[.entry], .properties [] []⟩ (.emptyTag t) =
      (⟨[.entry], .properties [(t.localName, .null)] []⟩, []) := by
    simp only [step, stepProperties, hempty]
    rfl
  have hstart : step ⟨[.entry], .properties [] []⟩ (.startTag t) =
      (⟨[.entry], .properties [] [p]⟩, []) := by
    simp only [step, stepProperties, hp]
  have hopen : ofTokens .ok
      (inOneTag [openingTag "entry" "", openingTag "properties" ""] t [.endTag, .endTag]) =
        .ok (.entry ⟨[(t.localName, .null)], .empty⟩) :=
    hbegins.inOneTag _ hstep
  cases hv : TypedText.value p.typeName "" with
  | error fault =>
    have hend : step ⟨[.entry], .properties [] [p]⟩ .endTag =
        outline [.entry] [.stop (.malformed fault)] := by
      simp only [step, stepProperties, hvalue, hv]
    exact tellsApart_of_error hopen (hbegins.inTwoTags _ hstart hend)
  | ok v =>
    have hend : step ⟨[.entry], .properties [] [p]⟩ .endTag =
        (⟨[.entry], .properties [(p.name, v)] []⟩, []) := by
      simp only [step, stepProperties, hvalue, hv]
      rfl
    refine tellsApart_of_ok (·.entries.map (·.data.map Prod.snd)) hopen
      (hbegins.inTwoTags _ hstart hend) fun h ↦ ?_
    obtain rfl : Value.null = v := (List.cons.inj (List.cons.inj h).1).1
    exact value_ne_null p.typeName "" hv

/-- Where the tables do not agree on an element, there is a document to show it. -/
theorem exists_tellsApart {place : Place} (h : ¬ EitherWay place t) :
    ∃ before after, (readFrom .start before).1.place = place ∧ TellsApart before t after := by
  cases place with
  | text => exact absurd trivial h
  | properties =>
    obtain ⟨p, h⟩ := not_forall.1 h
    obtain ⟨hp, h⟩ := Classical.not_imp.1 h
    obtain ⟨hnull, h⟩ := not_or.1 h
    obtain ⟨hcollection, hstring⟩ := not_or.1 h
    exact ⟨_, _, by cbv, tellsApart_property hp hnull hcollection hstring⟩
  | outline parent =>
    by_contra hnone
    refine h ⟨fun hname ↦ hnone (exists_tellsApart_entry hname parent), fun hname hparent ↦ ?_,
      fun hname hparent ↦ ?_, fun hname hparent ↦ ?_⟩
    · by_contra hcategory
      exact hnone ⟨_, _, hparent ▸ begins_entry.place, tellsApart_category hname hcategory⟩
    · exact hnone ⟨_, _, hparent ▸ begins_entry.place, tellsApart_id hname⟩
    · exact hnone ⟨_, _, by rw [hparent]; cbv, tellsApart_count hname⟩

end

/-- Empty elements on which the tables agree can be given end tags, as many as one likes, and a document
means the same, or is at fault in both forms. They are all that can: of any other element, at any place
that it may have, there is a document whose meaning depends on the form. -/
theorem reopened_either_way (convert : Converter) (body body' : String) :
    (Reopened EitherWay .start (Xml.tokens body.toList) (Xml.tokens body'.toList) →
      (Node.ofBodyWith convert .atom body).toOption =
        (Node.ofBodyWith convert .atom body').toOption) ∧
    ∀ (place : Place) (t : Tag), ¬ EitherWay place t → ∃ before after,
      (readFrom .start before).1.place = place ∧ TellsApart before t after := by
  refine ⟨fun h ↦ ?_, fun place t h ↦ exists_tellsApart h⟩
  have hempty : Builder.empty.kinds = State.start.kinds := rfl
  show (Node.ofSignals convert (signalsFrom .start (Xml.tokens body.toList))).toOption =
    (Node.ofSignals convert (signalsFrom .start (Xml.tokens body'.toList))).toOption
  rw [toOption_ofSignals, toOption_ofSignals, run_reopened h consistent_start hempty]

def linkTag : Tag :=
  ⟨"link".toList, " rel=\"edit\" href=\"E(1)\"".toList⟩

theorem reopened_either_way_link :
    Reopened EitherWay .start (Xml.tokens "<entry><link rel=\"edit\" href=\"E(1)\"/></entry>".toList)
        (Xml.tokens "<entry><link rel=\"edit\" href=\"E(1)\"></link></entry>".toList) ∧
      (Node.ofBodyWith .ok .atom "<entry><link rel=\"edit\" href=\"E(1)\"/></entry>").toOption =
        (Node.ofBodyWith .ok .atom
          "<entry><link rel=\"edit\" href=\"E(1)\"></link></entry>").toOption := by
  have htokens : Xml.tokens "<entry><link rel=\"edit\" href=\"E(1)\"/></entry>".toList =
      [openingTag "entry" "", .emptyTag linkTag, .endTag] := by
    cbv
  have htokens' : Xml.tokens "<entry><link rel=\"edit\" href=\"E(1)\"></link></entry>".toList =
      [openingTag "entry" "", .startTag linkTag, .endTag, .endTag] := by
    cbv
  have hname : linkTag.localName = "link" := by cbv
  have hreopened : Reopened EitherWay .start
      (Xml.tokens "<entry><link rel=\"edit\" href=\"E(1)\"/></entry>".toList)
      (Xml.tokens "<entry><link rel=\"edit\" href=\"E(1)\"></link></entry>".toList) := by
    rw [htokens, htokens']
    have hplace : (step .start (openingTag "entry" "")).1.place = .outline (some .entry) := by cbv
    refine .keep (.reopen ?_ (.keep (.nil _)))
    rw [hplace]
    simp [EitherWay, hname]
  exact ⟨hreopened, (reopened_either_way .ok _ _).1 hreopened⟩

/-- The category of an entry in two tags tells nothing of its type, and an entry in one tag is none. -/
theorem not_same_reopened :
    (Reopened (fun _ _ ↦ True) .start
        (Xml.tokens "<entry><category term=\"NS.Product\"/></entry>".toList)
        (Xml.tokens "<entry><category term=\"NS.Product\"></category></entry>".toList) ∧
      (Node.ofBody .atom "<entry><category term=\"NS.Product\"/></entry>").toOption ≠
        (Node.ofBody .atom "<entry><category term=\"NS.Product\"></category></entry>").toOption) ∧
      Reopened (fun _ _ ↦ True) .start (Xml.tokens "<feed><entry/></feed>".toList)
        (Xml.tokens "<feed><entry></entry></feed>".toList) ∧
      (Node.ofBody .atom "<feed><entry/></feed>").toOption ≠
        (Node.ofBody .atom "<feed><entry></entry></feed>").toOption := by
  have hcategory : Xml.tokens "<entry><category term=\"NS.Product\"/></entry>".toList =
      [openingTag "entry" "", .emptyTag ⟨"category".toList, " term=\"NS.Product\"".toList⟩,
        .endTag] := by
    cbv
  have hcategory' : Xml.tokens "<entry><category term=\"NS.Product\"></category></entry>".toList =
      [openingTag "entry" "", .startTag ⟨"category".toList, " term=\"NS.Product\"".toList⟩,
        .endTag, .endTag] := by
    cbv
  have hentry : Xml.tokens "<feed><entry/></feed>".toList =
      [openingTag "feed" "", .emptyTag ⟨"entry".toList, []⟩, .endTag] := by
    cbv
  have hentry' : Xml.tokens "<feed><entry></entry></feed>".toList =
      [openingTag "feed" "", .startTag ⟨"entry".toList, []⟩, .endTag, .endTag] := by
    cbv
  refine ⟨⟨?_, fun h ↦ ?_⟩, ?_, fun h ↦ ?_⟩
  · rw [hcategory, hcategory']
    exact .keep (.reopen trivial (.keep (.nil _)))
  · have htypes : some [some "NS.Product"] = some [none] := by
      have h := congrArg (Option.map fun node ↦ node.entries.map (·.annotations.own.typeName)) h
      cbv at h
      exact h
    exact absurd htypes (by decide)
  · rw [hentry, hentry']
    exact .keep (.reopen trivial (.keep (.nil _)))
  · have hcounts : some 0 = some 1 := by
      have h := congrArg (Option.map fun node ↦ node.entries.length) h
      cbv at h
      exact h
    exact absurd hcounts (by decide)

end OfAtom
end OData
