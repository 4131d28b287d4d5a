import OData.Proofs.Response.AtomElements
import OData.Proofs.Response.VerboseDate
import OData.Proofs.Xml.Content
import OData.Response.Payload

/-!
Properties in Atom that hold texts. Runs of characters are read without the blanks at their ends, whether
a run is all of the text or a piece of it between CDATA sections and comments, so that a text is read as
it is only if none of its runs has such blanks.
-/

namespace OData

namespace Xml

def startTag (name : String) (attributes : List (String × String)) : List Char :=
  '<' :: (name.toList ++ attributesChars attributes ++ ['>'])

/-- An element without content. -/
def emptyElement (name : String) (attributes : List (String × String)) : List Char :=
  '<' :: (name.toList ++ attributesChars attributes ++ ['/', '>'])

/-- An element with some content. -/
def Content.element (name : String) (attributes : List (String × String)) (c : Content) : List Char :=
  startTag name attributes ++ (c.chars ++ '<' :: '/' :: (name.toList ++ ['>']))

variable {c : Content} {name : String} {attributes : List (String × String)}
  {opened : List (List Char)}

theorem Content.tokensWithin_element (hname : isName name.toList) (hproper : Proper attributes)
    (h : c.WellFormed) (rest : List Char) :
    tokensWithin opened (c.element name attributes ++ rest) =
      .startTag (.written name attributes) :: (c.tokens ++ .endTag :: tokensWithin opened rest) := by
  simp only [element, startTag, List.cons_append, List.append_assoc, List.nil_append]
  rw [← List.append_assoc, tokensWithin_startTag hname hproper, tokensWithin_chars h (by simp),
    tokensWithin_endTag hname]

theorem tokensWithin_emptyElement (hname : isName name.toList) (hproper : Proper attributes)
    (rest : List Char) : tokensWithin opened (emptyElement name attributes ++ rest) =
      .emptyTag (.written name attributes) :: tokensWithin opened rest := by
  simp only [emptyElement, List.cons_append, List.append_assoc, List.nil_append]
  rw [← List.append_assoc, tokensWithin_emptyTag hname hproper]

end Xml

namespace OfAtom

open Xml (Content Tag Token)

variable {elements : List Element} {record : Record} {opened outer : List OpenProperty}
  {p : OpenProperty} {c : Content} {read : List Char}

/-! ### Content -/

theorem readFrom_runTokens {run : List Char} (h : Xml.expand (Xml.trimmed run) = .ok read) :
    readFrom ⟨elements, .properties record (p :: outer)⟩ (Content.runTokens run) =
      (⟨elements, .properties record ({ p with text := p.text ++ read } :: outer)⟩, []) := by
  rw [Content.runTokens]
  split
  · rename_i hempty
    rw [hempty] at h
    obtain rfl := Except.ok.inj h
    rw [List.append_nil]
    rfl
  · rw [readFrom_cons (step_propertyText h)]
    rfl

/-- What is read of some content goes to the text of the property around it. -/
theorem readFrom_content (h : c.read = .ok read) :
    readFrom ⟨elements, .properties record (p :: outer)⟩ c.tokens =
      (⟨elements, .properties record ({ p with text := p.text ++ read } :: outer)⟩, []) := by
  induction c generalizing p read with
  | run cs => exact readFrom_runTokens h
  | inset cs m rest ih =>
    obtain ⟨before, hbefore, hrest⟩ := Except.bind_eq_ok.1 h
    obtain ⟨after, hafter, hread⟩ := Except.bind_eq_ok.1 hrest
    obtain rfl := Except.ok.inj hread
    have hinset : ∀ q : OpenProperty, readFrom ⟨elements, .properties record (q :: outer)⟩ m.tokens =
        (⟨elements, .properties record ({ q with text := q.text ++ m.text } :: outer)⟩, []) := by
      intro q
      cases m with
      | cdata cs => rfl
      | comment cs =>
        rw [Xml.Inset.text, List.append_nil]
        rfl
    rw [Content.tokens, readFrom_append, readFrom_runTokens hbefore, readFrom_append, hinset]
    dsimp only
    rw [ih hafter]
    simp only [List.append_assoc, List.nil_append]

/-! ### Properties -/

/-- Attributes of a property that holds a string: no other type, and no mark that it is null. -/
structure HoldsText (attributes : List (String × String)) : Prop where
  proper : Xml.Proper attributes
  type : ∀ a ∈ attributes, Xml.localName a.1.toList = "type".toList → a.2 = "Edm.String"
  notNull : ∀ a ∈ attributes, Xml.localName a.1.toList = "null".toList → a.2 ≠ "true"

variable {name : String} {attributes : List (String × String)}

theorem value_of_holdsText {typeName : Option String} (h : ∀ t ∈ typeName, t = "Edm.String")
    (name : String) (read : List Char) :
    OpenProperty.value ⟨name, typeName, false, read, []⟩ = .ok (.string (String.ofList read)) := by
  cases typeName with
  | none => rfl
  | some t =>
    obtain rfl := h t rfl
    rfl

theorem exists_mem_of_find? {key t : String}
    (h : (attributes.find? fun a ↦ Xml.localName a.1.toList = key.toList).map Prod.snd = some t) :
    ∃ a ∈ attributes, Xml.localName a.1.toList = key.toList ∧ a.2 = t := by
  obtain ⟨a, ha, ht⟩ := Option.map_eq_some_iff.1 h
  have hkey := List.find?_some ha
  exact ⟨a, List.mem_of_find?_eq_some ha, of_decide_eq_true hkey, ht⟩

theorem HoldsText.find?_type (h : HoldsText attributes) :
    ∀ t ∈ (attributes.find? fun a ↦ Xml.localName a.1.toList = "type".toList).map Prod.snd,
      t = "Edm.String" := by
  intro t ht
  obtain ⟨a, ha, hkey, rfl⟩ := exists_mem_of_find? ht
  exact h.type a ha hkey

theorem HoldsText.find?_null (h : HoldsText attributes) :
    (attributes.find? fun a ↦ Xml.localName a.1.toList = "null".toList).map Prod.snd ≠
      some "true" := by
  intro hnull
  obtain ⟨a, ha, hkey, htrue⟩ := exists_mem_of_find? hnull
  exact h.notNull a ha hkey htrue

/-- A property that holds a string starts without any text. -/
theorem HoldsText.openProperty_eq (h : HoldsText attributes) (name : String) :
    ∃ typeName, (∀ t ∈ typeName, t = "Edm.String") ∧
      openProperty (.written name attributes) =
        .ok ⟨(Tag.written name attributes).localName, typeName, false, [], []⟩ := by
  refine ⟨_, h.find?_type, ?_⟩
  rw [openProperty_of_proper h.proper, decide_eq_false h.find?_null]

theorem HoldsText.emptyProperty_eq (h : HoldsText attributes) (name : String) :
    emptyProperty (.written name attributes) = .ok (.string "") := by
  have htype := h.find?_type
  rw [emptyProperty, Xml.attribute_written h.proper, Xml.attribute_written h.proper]
  generalize (attributes.find? fun a ↦ Xml.localName a.1.toList = "type".toList).map Prod.snd =
    typeName at htype
  show Except.ok (if (attributes.find? fun a ↦ Xml.localName a.1.toList = "null".toList).map
      Prod.snd = some "true" then Value.null else _) = _
  rw [if_neg h.find?_null]
  cases typeName with
  | none => rfl
  | some t =>
    obtain rfl := htype t rfl
    rfl

theorem readFrom_element (h : HoldsText attributes) (hread : c.read = .ok read) :
    readFrom ⟨elements, .properties record opened⟩
        (.startTag (.written name attributes) :: (c.tokens ++ [.endTag])) =
      (⟨elements, addProperty record opened (Tag.written name attributes).localName
        (.string (String.ofList read))⟩, []) := by
  obtain ⟨typeName, htype, hopen⟩ := h.openProperty_eq name
  exact readFrom_openProperty hopen (readFrom_content hread) (value_of_holdsText htype _ read)

/-! ### Positions -/

/-- Behind a text the reader is in a state, inside of the elements of some names, and has given some
signals. -/
def Reaches (before : List Char) (names : List (List Char)) (s : State) (given : List Signal) : Prop :=
  ∃ tokens, readFrom .start tokens = (s, given) ∧ ∀ rest, rest ≠ [] →
    Xml.tokens (before ++ '<' :: rest) = tokens ++ Xml.tokensWithin names ('<' :: rest)

variable {before : List Char} {names : List (List Char)} {s : State} {given : List Signal}

theorem signalsFrom_append (s : State) (tokens more : List Token) :
    signalsFrom s (tokens ++ more) =
      (readFrom s tokens).2 ++ signalsFrom (readFrom s tokens).1 more := by
  rw [signalsFrom_eq, signalsFrom_eq, readFrom_append]
  exact List.append_assoc ..

theorem reaches_start : Reaches [] [] .start [] := by
  refine ⟨[], rfl, fun rest _ ↦ ?_⟩
  rw [List.nil_append, List.nil_append, Xml.tokens]
  intro others heq
  exact absurd (List.cons.inj heq).1 (by decide)

/-- Behind the markup that is written at a position, the reader goes on from the state that its tokens
lead to. -/
theorem Reaches.exists_tokens {tokens : List Token} {names' : List (List Char)} {s' : State}
    {more : List Signal} {cs : List Char} (h : Reaches before names s given) (hcs : cs ≠ [])
    (htokens : ∀ rest, Xml.tokensWithin names ('<' :: cs ++ rest) =
      tokens ++ Xml.tokensWithin names' rest)
    (hread : readFrom s tokens = (s', more)) :
    ∃ read, readFrom .start read = (s', given ++ more) ∧ ∀ rest,
      Xml.tokens (before ++ ('<' :: cs ++ rest)) = read ++ Xml.tokensWithin names' rest := by
  obtain ⟨read, hgiven, hbefore⟩ := h
  refine ⟨read ++ tokens, ?_, fun rest ↦ ?_⟩
  · rw [readFrom_append, hgiven, hread]
  · rw [List.cons_append, hbefore _ (List.append_ne_nil_of_left_ne_nil hcs rest), ← List.cons_append,
      htokens, List.append_assoc]

theorem Reaches.startTag {s' : State} {more : List Signal} (h : Reaches before names s given)
    (hname : Xml.isName name.toList) (hproper : Xml.Proper attributes)
    (hstep : step s (.startTag (.written name attributes)) = (s', more)) :
    Reaches (before ++ Xml.startTag name attributes) (name.toList :: names) s' (given ++ more) := by
  have hread : readFrom s [.startTag (.written name attributes)] = (s', more) := by
    rw [readFrom_cons hstep]
    exact Prod.ext rfl (List.append_nil more)
  have htokens : ∀ rest, Xml.tokensWithin names (Xml.startTag name attributes ++ rest) =
      [.startTag (.written name attributes)] ++ Xml.tokensWithin (name.toList :: names) rest := by
    intro rest
    simp only [Xml.startTag, List.cons_append, List.append_assoc, List.nil_append]
    rw [← List.append_assoc, Xml.tokensWithin_startTag hname hproper]
  obtain ⟨read, hgiven, hbehind⟩ := h.exists_tokens (by simp) htokens hread
  exact ⟨read, hgiven, fun rest _ ↦ by rw [List.append_assoc]; exact hbehind _⟩

/-- Markup that gives no signals of its own changes the state only. -/
theorem Reaches.signals_append {tokens : List Token} {s' : State} {cs : List Char}
    (h : Reaches before names s given) (hcs : cs ≠ [])
    (htokens : ∀ rest, Xml.tokensWithin names ('<' :: cs ++ rest) =
      tokens ++ Xml.tokensWithin names rest)
    (hread : readFrom s tokens = (s', [])) (rest : List Char) :
    signals (String.ofList (before ++ ('<' :: cs ++ rest))) =
      given ++ signalsFrom s' (Xml.tokensWithin names rest) := by
  obtain ⟨read, hgiven, hbehind⟩ := h.exists_tokens hcs htokens hread
  rw [signals, String.toList_ofList, hbehind, signalsFrom_append, hgiven, List.append_nil]

/-- The element of a string adds what is read of its content. -/
theorem Reaches.signals_element
    (hbefore : Reaches before names ⟨elements, .properties record opened⟩ given)
    (hname : Xml.isName name.toList) (h : HoldsText attributes) (hc : c.WellFormed)
    (hread : c.read = .ok read) (rest : List Char) :
    signals (String.ofList (before ++ (c.element name attributes ++ rest))) =
      given ++ signalsFrom ⟨elements, addProperty record opened
        (Tag.written name attributes).localName (.string (String.ofList read))⟩
          (Xml.tokensWithin names rest) := by
  refine hbefore.signals_append (by simp) (fun rest ↦ ?_) (readFrom_element h hread) rest
  exact (Content.tokensWithin_element hname h.proper hc rest).trans (by simp)

theorem memberSignals_text {text : List Char} (hrole : OfJson.roleOf name = .property)
    (h : ∀ millis minutes, ¬ VerboseDate.IsDate text millis minutes) (annotated : List (List Char)) :
    OfJson.memberSignals annotated name (.string (String.ofList text)) =
      [.event (.field name (.string (String.ofList text)))] := by
  have hread := VerboseDate.readAs_ofField (String.ofList text)
  have hitem : Json.item? [] (.string (String.ofList text)) = some (.string (String.ofList text)) := rfl
  rw [OfJson.memberSignals_of_item? hrole hitem annotated, hread.text]
  rwa [String.toList_ofList]

/-- A string is read as it is if none of the runs of its element has blanks at its ends, or if the element
is empty; in JSON it is, unless it is a date. -/
theorem signals_property_text
    (hbefore : Reaches before names ⟨elements, .properties record opened⟩ given)
    (hname : Xml.isName name.toList) (h : HoldsText attributes) :
    (∀ (c : Content) (text : List Char), c.WellFormed → c.text = .ok text →
      ∃ read, c.read = .ok read ∧ (read = text ↔ ∀ run ∈ c.runs, Xml.Unpadded run) ∧
        ∀ rest, signals (String.ofList (before ++ (c.element name attributes ++ rest))) =
          given ++ signalsFrom ⟨elements, addProperty record opened
            (Tag.written name attributes).localName (.string (String.ofList read))⟩
              (Xml.tokensWithin names rest)) ∧
    (∀ rest, signals (String.ofList (before ++ (Xml.emptyElement name attributes ++ rest))) =
      given ++ signalsFrom ⟨elements, addProperty record opened
        (Tag.written name attributes).localName (.string "")⟩ (Xml.tokensWithin names rest)) ∧
    ∀ field text, OfJson.roleOf field = .property →
      (∀ millis minutes, ¬ VerboseDate.IsDate text millis minutes) → ∀ annotated,
        OfJson.memberSignals annotated field (.string (String.ofList text)) =
          [.event (.field field (.string (String.ofList text)))] := by
  refine ⟨fun c text hc htext ↦ ?_, fun rest ↦ ?_, fun field text ↦ memberSignals_text⟩
  · obtain ⟨read, hread, -, hkept⟩ := c.exists_read htext
    exact ⟨read, hread, hkept, hbefore.signals_element hname h hc hread⟩
  · refine hbefore.signals_append (by simp) ?_ (readFrom_emptyProperty (h.emptyProperty_eq name)) rest
    intro rest
    exact Xml.tokensWithin_emptyElement hname h.proper rest

/-- The beginning of an entry, up to its properties. -/
def insideProperties : List Char :=
  Xml.startTag "entry" [] ++ Xml.startTag "content" [] ++ Xml.startTag "m:properties" []

def aroundProperties : List (List Char) :=
  ["m:properties".toList, "content".toList, "entry".toList]

theorem reaches_insideProperties : Reaches insideProperties aroundProperties
    ⟨[.other, .entry], .properties [] []⟩ [.event .startEntry] := by
  have hproper : Xml.Proper [] := by decide
  have hentry : Reaches (Xml.startTag "entry" []) ["entry".toList] ⟨[.entry], .outline⟩
      [.event .startEntry] :=
    reaches_start.startTag (by decide) hproper (by cbv)
  have hcontent := hentry.startTag (by decide : Xml.isName "content".toList) hproper
    (by cbv : _ = (⟨[.other, .entry], .outline⟩, []))
  exact hcontent.startTag (by decide) hproper (by cbv)

/-- A text with blanks at the beginning of a run, in a section, and as a reference. -/
def paddedContent : Content :=
  .inset " a &lt;".toList (.cdata " b ".toList)
    (.inset [] (.comment "c".toList) (.run "&#32;d".toList))

theorem signals_address_text :
    Reaches (insideProperties ++ Xml.startTag "d:Address" []) ("d:Address".toList :: aroundProperties)
        ⟨[.other, .entry], .properties [] [⟨"Address", none, false, [], []⟩]⟩ [.event .startEntry] ∧
      HoldsText [("m:type", "Edm.String")] ∧ paddedContent.text = .ok " a < b  d".toList ∧
      (∀ rest, signals (String.ofList (insideProperties ++ Xml.startTag "d:Address" [] ++
          (paddedContent.element "d:Name" [("m:type", "Edm.String")] ++ rest))) =
        .event .startEntry :: signalsFrom ⟨[.other, .entry],
          .properties [] [⟨"Address", none, false, [], [("Name", .string "a < b  d")]⟩]⟩
            (Xml.tokensWithin ("d:Address".toList :: aroundProperties) rest)) ∧
      OfJson.memberSignals [] "Name" (.string " a < b  d") =
        [.event (.field "Name" (.string " a < b  d"))] := by
  have hreaches : Reaches (insideProperties ++ Xml.startTag "d:Address" [])
      ("d:Address".toList :: aroundProperties)
      ⟨[.other, .entry], .properties [] [⟨"Address", none, false, [], []⟩]⟩ [.event .startEntry] :=
    reaches_insideProperties.startTag (by decide) (by decide) (by cbv)
  have hattributes : HoldsText [("m:type", "Edm.String")] := ⟨by decide, by decide, by decide⟩
  have htext : paddedContent.text = .ok " a < b  d".toList := rfl
  have hwellFormed : paddedContent.WellFormed :=
    .inset (by decide) (by decide) (.inset (by decide) (by decide) (.run (by decide)))
  have hdate : ∀ millis minutes, ¬ VerboseDate.IsDate " a < b  d".toList millis minutes := by
    intro millis minutes h
    exact absurd h.head?_eq (by decide)
  obtain ⟨hread, -, hjson⟩ := signals_property_text hreaches (by decide : Xml.isName "d:Name".toList)
    hattributes
  obtain ⟨read, hpadded, -, hsignals⟩ := hread paddedContent _ hwellFormed htext
  obtain rfl : read = "a < b  d".toList := Except.ok.inj (hpadded.symm.trans rfl)
  exact ⟨hreaches, hattributes, htext, hsignals, hjson "Name" _ (by decide) hdate []⟩

theorem not_ofBody_padded :
    Node.ofBody .atom
        "<entry><content><m:properties><d:Name> x </d:Name></m:properties></content></entry>" =
          .ok (.entry ⟨[("Name", .string "x")], .empty⟩) ∧
      Node.ofBody .json "\x7b\"Name\":\" x \"\x7d" =
        .ok (.entry ⟨[("Name", .string " x ")], .empty⟩) := by
  constructor
  case right => cbv
  have hattributes : HoldsText [] :=
    ⟨by decide, List.forall_mem_nil _, List.forall_mem_nil _⟩
  have hwellFormed : Content.WellFormed (.run " x ".toList) := .run (by decide)
  have hread : Content.read (.run " x ".toList) = .ok ['x'] := rfl
  have hsignals := reaches_insideProperties.signals_element (by decide : Xml.isName "d:Name".toList)
    hattributes hwellFormed hread "</m:properties></content></entry>".toList
  have hclosing : Xml.tokensWithin aroundProperties "</m:properties></content></entry>".toList =
      [.endTag, .endTag, .endTag] := by
    cbv
  rw [hclosing] at hsignals
  exact (congrArg (Node.ofSignals .ok) hsignals).trans rfl

end OfAtom
end OData
