import OData.Proofs.Number.Integer
import OData.Proofs.Response.Linked
import OData.Proofs.Response.Outline
import OData.Proofs.Text.Occurrence

/-!
How the elements of an Atom response are read. An element leaves the outline as it found it, whatever is
open around it; the signals that it gives depend on the innermost open element only.
-/

namespace OData
namespace OfAtom

open Xml (Tag Token Tree)

theorem readFrom_append (s : State) (tokens more : List Token) :
    readFrom s (tokens ++ more) =
      ((readFrom (readFrom s tokens).1 more).1,
        (readFrom s tokens).2 ++ (readFrom (readFrom s tokens).1 more).2) := by
  induction tokens generalizing s with
  | nil => rfl
  | cons token rest ih => simp only [List.cons_append, readFrom, ih, List.append_assoc]

theorem readFrom_cons {s s' : State} {token : Token} {signals : List Signal}
    (h : step s token = (s', signals)) (rest : List Token) :
    readFrom s (token :: rest) = ((readFrom s' rest).1, signals ++ (readFrom s' rest).2) := by
  rw [readFrom, h]

/-- Tokens that give signals and leave the outline as they found it. -/
def Gives (elements : List Element) (tokens : List Token) (signals : List Signal) : Prop :=
  readFrom ⟨elements, .outline⟩ tokens = outline elements signals

section

variable {elements : List Element} {tokens more : List Token} {signals signals' : List Signal}

theorem Gives.append (h : Gives elements tokens signals) (h' : Gives elements more signals') :
    Gives elements (tokens ++ more) (signals ++ signals') := by
  rw [Gives, readFrom_append, h, outline]
  dsimp only
  rw [h']
  rfl

theorem Gives.flatMap {α : Type} {l : List α} {tokensOf : α → List Token}
    {signalsOf : α → List Signal} (h : ∀ a ∈ l, Gives elements (tokensOf a) (signalsOf a)) :
    Gives elements (l.flatMap tokensOf) (l.flatMap signalsOf) := by
  induction l with
  | nil => rfl
  | cons a rest ih =>
    obtain ⟨ha, hrest⟩ := List.forall_mem_cons.1 h
    rw [List.flatMap_cons, List.flatMap_cons]
    exact ha.append (ih hrest)

theorem Gives.append_nil (h : Gives elements tokens signals) (h' : Gives elements more []) :
    Gives elements (tokens ++ more) signals := by
  have happend := h.append h'
  rwa [List.append_nil] at happend

end

/-- The signal of an element that ends. -/
def Element.ending : Element → List Signal
  | feed => [.event .endFeed]
  | entry => [.event .endEntry]
  | link => [.event .endLink]
  | other => []

section

variable {elements : List Element} {name : String} {attributes : List (String × String)}

/-- An element of the outline gives its own signals around those of what is inside it. -/
theorem gives_element {element : Element} {children : List Tree} {starting inner : List Signal}
    (hstart : startOutline elements (.written name attributes) = outline (element :: elements) starting)
    (hchildren : Gives (element :: elements) (Tree.allTokens children) inner) :
    Gives elements (Tree.element name attributes children).tokens
      (starting ++ inner ++ element.ending) := by
  have hstep : step ⟨elements, .outline⟩ (.startTag (.written name attributes)) =
      outline (element :: elements) starting := hstart
  have hend : readFrom ⟨element :: elements, .outline⟩ [.endTag] = outline elements element.ending := by
    cases element <;> rfl
  rw [Gives, Tree.tokens, readFrom_cons hstep, readFrom_append, hchildren, outline, hend,
    List.append_assoc]
  rfl

theorem gives_empty {signals : List Signal}
    (h : emptyOutline elements (.written name attributes) = signals) :
    Gives elements (Tree.empty name attributes).tokens signals := by
  have hstep : step ⟨elements, .outline⟩ (.emptyTag (.written name attributes)) =
      outline elements signals := by
    rw [← h]
    rfl
  rw [Gives, Tree.tokens, readFrom_cons hstep]
  exact congrArg (Prod.mk _) (List.append_nil _)

/-- A text of the outline gives what its use makes of it. -/
theorem gives_leaf {use : TextUse} {text : String}
    (hstart : startOutline elements (.written name attributes) = (⟨elements, .text use 0 []⟩, [])) :
    Gives elements (Tree.leaf name attributes text).tokens [ofText use text.toList] := by
  have hstep : step ⟨elements, .outline⟩ (.startTag (.written name attributes)) =
      (⟨elements, .text use 0 []⟩, []) := hstart
  have htext : readFrom ⟨elements, .text use 0 []⟩
      (if text.toList = [] then [] else [.text (Xml.escape text.toList)]) =
        (⟨elements, .text use 0 text.toList⟩, []) := by
    split
    · rename_i hempty
      rw [hempty]
      rfl
    · have hread : step ⟨elements, .text use 0 []⟩ (.text (Xml.escape text.toList)) =
          (⟨elements, .text use 0 text.toList⟩, []) := by
        simp only [step, stepText, Xml.expand_escape, List.nil_append]
      rw [readFrom_cons hread]
      rfl
  rw [Gives, Tree.tokens, readFrom_cons hstep, readFrom_append, htext]
  rfl

end

theorem allTokens_eq (trees : List Tree) : Tree.allTokens trees = trees.flatMap Tree.tokens :=
  eq_flatMap rfl (fun _ _ ↦ rfl) trees

/-! ### Properties -/

section

variable {elements : List Element} {record : Record} {opened : List OpenProperty} {name : String}
  {attributes : List (String × String)}

theorem openProperty_of_proper (h : Xml.Proper attributes) (name : String) :
    openProperty (.written name attributes) =
      .ok ⟨(Tag.written name attributes).localName,
        (attributes.find? fun a ↦ Xml.localName a.1.toList = "type".toList).map Prod.snd,
        (attributes.find? fun a ↦ Xml.localName a.1.toList = "null".toList).map Prod.snd = some "true",
        [], []⟩ := by
  rw [openProperty, Xml.attribute_written h, Xml.attribute_written h]
  rfl

theorem step_propertyText {p : OpenProperty} {cs read : List Char} (h : Xml.expand cs = .ok read) :
    step ⟨elements, .properties record (p :: opened)⟩ (.text cs) =
      (⟨elements, .properties record ({ p with text := p.text ++ read } :: opened)⟩, []) := by
  simp only [step, stepProperties, h]

/-- A property goes to what is around it, with the value that it comes to at its end. -/
theorem readFrom_openProperty {t : Tag} {p q : OpenProperty} {content : List Token} {v : Value}
    (hopen : openProperty t = .ok p)
    (hcontent : readFrom ⟨elements, .properties record (p :: opened)⟩ content =
      (⟨elements, .properties record (q :: opened)⟩, []))
    (hv : q.value = .ok v) :
    readFrom ⟨elements, .properties record opened⟩ (.startTag t :: (content ++ [.endTag])) =
      (⟨elements, addProperty record opened q.name v⟩, []) := by
  have hstart : step ⟨elements, .properties record opened⟩ (.startTag t) =
      (⟨elements, .properties record (p :: opened)⟩, []) := by
    simp only [step, stepProperties, hopen]
  have hend : step ⟨elements, .properties record (q :: opened)⟩ .endTag =
      (⟨elements, addProperty record opened q.name v⟩, []) := by
    simp only [step, stepProperties, hv]
  rw [readFrom_cons hstart, readFrom_append, hcontent, readFrom_cons hend]
  rfl

theorem readFrom_emptyProperty {t : Tag} {v : Value} (h : emptyProperty t = .ok v) :
    readFrom ⟨elements, .properties record opened⟩ [.emptyTag t] =
      (⟨elements, addProperty record opened t.localName v⟩, []) := by
  have hstep : step ⟨elements, .properties record opened⟩ (.emptyTag t) =
      (⟨elements, addProperty record opened t.localName v⟩, []) := by
    simp only [step, stepProperties, h]
  rw [readFrom_cons hstep]
  rfl

/-- A property without properties inside it goes to the record around it. -/
theorem readFrom_property {p : OpenProperty} {text : String} {v : Value}
    (hopen : openProperty (.written name attributes) = .ok p)
    (hv : OpenProperty.value { p with text := p.text ++ text.toList } = .ok v) :
    readFrom ⟨elements, .properties record []⟩ (Tree.leaf name attributes text).tokens =
      (⟨elements, .properties (Fields.put p.name v record) []⟩, []) := by
  have htext : readFrom ⟨elements, .properties record [p]⟩
      (if text.toList = [] then [] else [.text (Xml.escape text.toList)]) =
        (⟨elements, .properties record [{ p with text := p.text ++ text.toList }]⟩, []) := by
    split
    · rename_i hempty
      rw [hempty, List.append_nil]
      rfl
    · rw [readFrom_cons (step_propertyText (Xml.expand_escape _))]
      rfl
  have hread := readFrom_openProperty hopen htext hv
  exact hread

end

end OfAtom

namespace Source

open OfAtom
open Xml (Tag Token Tree)

variable {elements : List Element} {name : String}

theorem isName_property (h : Xml.isName name.toList) : Xml.isName ("d:" ++ name).toList := by
  rw [String.toList_append]
  have hchars : name.toList.all Xml.isNameChar = true :=
    List.all_eq_true.2 (Xml.forall_isNameChar h)
  change (true && (true && name.toList.all Xml.isNameChar)) = true
  rw [hchars]
  rfl

theorem localName_property (name : String) (attributes : List (String × String)) :
    (Tag.written ("d:" ++ name) attributes).localName = name := by
  rw [Tag.localName, Tag.written, String.toList_append]
  exact String.ofList_toList

theorem openProperty_written {attributes : List (String × String)} (hproper : Xml.Proper attributes)
    (name : String) : openProperty (.written ("d:" ++ name) attributes) =
      .ok ⟨name, (attributes.find? fun a ↦ Xml.localName a.1.toList = "type".toList).map Prod.snd,
        (attributes.find? fun a ↦ Xml.localName a.1.toList = "null".toList).map Prod.snd = some "true",
        [], []⟩ := by
  rw [openProperty_of_proper hproper, localName_property]

theorem value_boolean (name : String) (b : Bool) :
    OpenProperty.value ⟨name, some "Edm.Boolean", false, (if b then "true" else "false").toList, []⟩ =
      .ok (.boolean b) := by
  have hvalue : ∀ text : List Char, OpenProperty.value ⟨name, some "Edm.Boolean", false, text, []⟩ =
      TypedText.value (some "Edm.Boolean") (String.ofList text) := fun _ ↦ rfl
  have htrue : Text.sameIgnoringCase "true" "true" = true := by decide
  have hfalse : Text.sameIgnoringCase "false" "true" = false := by decide
  rw [hvalue, String.ofList_toList]
  cases b with
  | true => simp only [TypedText.value, Option.getD_some, if_true, htrue, Bool.true_or]
  | false =>
    have hone : "false" ≠ "1" := by decide
    simp [TypedText.value, hfalse, hone]

theorem value_int32 (name : String) (n : Int32) :
    OpenProperty.value ⟨name, some "Edm.Int32", false, Text.signedDecimal n.toInt, []⟩ =
      .ok (.int32 n) := by
  have hlow := n.le_toInt
  have hhigh := n.toInt_lt
  have hread : Number.readInteger Int32.minValue.toInt Int32.maxValue.toInt
      (Text.signedDecimal n.toInt) = .ok n.toInt :=
    Number.readInteger_signedDecimal n.minValue_le_toInt n.toInt_le (by decide) (by decide)
  have hvalue : OpenProperty.value ⟨name, some "Edm.Int32", false, Text.signedDecimal n.toInt, []⟩ =
      TypedText.value (some "Edm.Int32") (String.ofList (Text.signedDecimal n.toInt)) := rfl
  rw [hvalue]
  simp only [TypedText.value, String.toList_ofList, hread, Option.getD_some, Int32.ofInt_toInt]

theorem value_string (name s : String) :
    OpenProperty.value ⟨name, none, false, s.toList, []⟩ = .ok (.string s) := by
  have hvalue : OpenProperty.value ⟨name, none, false, s.toList, []⟩ =
      .ok (.string (String.ofList s.toList)) := rfl
  rw [hvalue, String.ofList_toList]

/-- The value of a field comes back from its property. -/
theorem readFrom_scalar (v : Scalar) (record : Record) :
    readFrom ⟨elements, .properties record []⟩ (v.property name).tokens =
      (⟨elements, .properties (Fields.put name v.value record) []⟩, []) := by
  cases v with
  | null =>
    have hempty : emptyProperty (.written ("d:" ++ name) [("m:null", "true")]) = .ok .null := by
      rw [emptyProperty, Xml.attribute_written (by decide), Xml.attribute_written (by decide)]
      rfl
    rw [Scalar.property, Tree.tokens, readFrom_emptyProperty hempty, localName_property]
    rfl
  | boolean b =>
    have hopen : openProperty (.written ("d:" ++ name) [("m:type", "Edm.Boolean")]) =
        .ok ⟨name, some "Edm.Boolean", false, [], []⟩ := openProperty_written (by decide) name
    exact readFrom_property hopen (value_boolean name b)
  | int32 n =>
    have hopen : openProperty (.written ("d:" ++ name) [("m:type", "Edm.Int32")]) =
        .ok ⟨name, some "Edm.Int32", false, [], []⟩ := openProperty_written (by decide) name
    refine readFrom_property hopen ?_
    rw [String.toList_ofList]
    exact value_int32 name n
  | string s =>
    have hopen : openProperty (.written ("d:" ++ name) []) = .ok ⟨name, none, false, [], []⟩ :=
      openProperty_written (by decide) name
    exact readFrom_property hopen (value_string name s)

/-- The properties of an entry give its fields, each name once. -/
theorem readFrom_scalars {fields : List (String × Scalar)} {record : Record}
    (h : (record.map Prod.fst ++ fields.map Prod.fst).Nodup) :
    readFrom ⟨elements, .properties record []⟩
        (Tree.allTokens (fields.map fun (name, v) ↦ v.property name)) =
      (⟨elements, .properties (record ++ fields.map fun (name, v) ↦ (name, v.value)) []⟩, []) := by
  induction fields generalizing record with
  | nil =>
    rw [List.map_nil, List.map_nil, List.append_nil]
    rfl
  | cons f rest ih =>
    obtain ⟨name, v⟩ := f
    have hname : name ∉ record.map Prod.fst := by
      rw [List.nodup_append] at h
      exact fun hmem ↦ h.2.2 name hmem name (List.mem_cons_self ..) rfl
    have hrest : ((record ++ [(name, v.value)]).map Prod.fst ++ rest.map Prod.fst).Nodup := by
      rwa [List.map_append, List.append_assoc]
    rw [List.map_cons, Tree.allTokens, readFrom_append, readFrom_scalar, Fields.put_of_not_mem hname]
    dsimp only
    rw [ih hrest, List.map_cons, List.append_assoc]
    rfl

theorem gives_properties {fields : List (String × Scalar)} (h : (fields.map Prod.fst).Nodup) :
    Gives elements
      (Tree.element "m:properties" [] (fields.map fun (name, v) ↦ v.property name)).tokens
      (fields.map fun (name, v) ↦ .event (.field name v.value)) := by
  have hstep : step ⟨elements, .outline⟩ (.startTag (.written "m:properties" [])) =
      (⟨elements, .properties [] []⟩, []) := rfl
  have hfields := @readFrom_scalars elements fields [] h
  rw [Gives, Tree.tokens, readFrom_cons hstep, readFrom_append, hfields]
  have hend : ∀ record : Record, readFrom ⟨elements, .properties record []⟩ [.endTag] =
      outline elements (record.map fun m ↦ .event (.field m.1 m.2)) := by
    intro record
    exact congrArg (Prod.mk _) (List.append_nil _)
  rw [List.nil_append, hend, List.map_map]
  rfl

end Source
end OData
