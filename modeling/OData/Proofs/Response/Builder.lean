import OData.Proofs.Response.Assembly

/-!
The builder beside the reading of documents. Every step of the one is a step of the other, so a run of
the builder ends with a result just where its events are those of a document, and the result is the
node that the document denotes.
-/

namespace OData

/-- What a converter makes of some fields, where it takes them. -/
def Converter.data (convert : Converter) (fields : Record) : Record :=
  match convert fields with
  | .ok data => data
  | .error _ => fields

def Converter.Takes (convert : Converter) (fields : Record) : Prop :=
  ∃ data, convert fields = .ok data

theorem Converter.Takes.eq_ok {convert : Converter} {fields : Record} (h : convert.Takes fields) :
    convert fields = .ok (convert.data fields) := by
  obtain ⟨data, hdata⟩ := h
  rw [Converter.data, hdata]

namespace Effect

variable (effects : List Effect)

theorem fields_append (more : List Effect) :
    fields (effects ++ more) = Fields.putAll (more.filterMap assignment?) (fields effects) := by
  simp only [fields, Fields.ofList, Fields.putAll, List.filterMap_append, List.foldl_append]

theorem annotations_append (more : List Effect) :
    annotations (effects ++ more) =
      ⟨(more.filterMap note?).foldl EntryNote.apply (annotations effects).own,
        (more.filterMap mark?).foldl (fun links (name, m) ↦ Fields.alter name .empty (m.apply ·) links)
          (annotations effects).links⟩ := by
  simp only [annotations, List.filterMap_append, List.foldl_append]

@[simp]
theorem fields_assign (name : String) (v : Value) :
    fields (effects ++ [assign name v]) = Fields.put name v (fields effects) :=
  fields_append _ _

@[simp]
theorem fields_note (a : EntryNote) : fields (effects ++ [note a]) = fields effects :=
  fields_append _ _

@[simp]
theorem fields_mark (name : String) (m : LinkMark) :
    fields (effects ++ [mark name m]) = fields effects :=
  fields_append _ _

@[simp]
theorem annotations_assign (name : String) (v : Value) :
    annotations (effects ++ [assign name v]) = annotations effects :=
  annotations_append _ _

@[simp]
theorem annotations_note (a : EntryNote) : annotations (effects ++ [note a]) =
    { annotations effects with own := a.apply (annotations effects).own } :=
  annotations_append _ _

@[simp]
theorem annotations_mark (name : String) (m : LinkMark) : annotations (effects ++ [mark name m]) =
    { annotations effects with
      links := Fields.alter name .empty (m.apply ·) (annotations effects).links } :=
  annotations_append _ _

theorem fields_append_link (name : String) (content : Option Node) :
    fields (effects ++ linkEffects name content) =
      (linkValue? content).elim (fields effects) fun v ↦ Fields.put name v (fields effects) := by
  have hmarks : (if (annotationsIn content).isEmpty then [] else
      [Effect.mark name (.closed (annotationsIn content))]).filterMap assignment? = [] := by
    split <;> rfl
  rw [fields_append, linkEffects, List.filterMap_append, hmarks]
  cases linkValue? content <;> rfl

theorem annotations_append_link (name : String) (content : Option Node) :
    annotations (effects ++ linkEffects name content) =
      Builder.addLink (annotations effects) name (annotationsIn content) := by
  have hnotes : ((linkValue? content).toList.map (Effect.assign name)).filterMap note? = [] := by
    cases linkValue? content <;> rfl
  have hmarks : ((linkValue? content).toList.map (Effect.assign name)).filterMap mark? = [] := by
    cases linkValue? content <;> rfl
  rw [annotations_append, linkEffects, List.filterMap_append, List.filterMap_append, hnotes, hmarks,
    Builder.addLink]
  split <;> rfl

end Effect

theorem linkContent_eq (content : Option Node) :
    Builder.linkContent content = (linkValue? content, annotationsIn content) := by
  match content with
  | none => rfl
  | some (.value v) => rfl
  | some (.entry e) =>
    simp only [Builder.linkContent, linkValue?, annotationsIn]
    split <;> rfl
  | some (.feed feed) =>
    simp only [Builder.linkContent, linkValue?, annotationsIn]
    split
    · rename_i h
      rw [List.isEmpty_iff.1 h]
      rfl
    · rfl

namespace Assembly

variable {f : Record → Record} {a : Assembly} {b : Builder}

theorem closeNode_builder {t : NodeTree} :
    (a.builder f).closeNode (t.node f) = (b, none) ↔
      ∃ a', a.close t = some a' ∧ a'.builder f = b := by
  obtain ⟨root, parts⟩ := a
  match parts with
  | [] =>
    cases root with
    | none => simp [builder, close, Builder.closeNode, Builder.setResult, Document.node]
    | some d => simp [builder, close, Builder.closeNode, Builder.setResult, Builder.fail]
  | .feed items :: below =>
    cases t with
    | entry inner =>
      simp [builder, close, Builder.closeNode, Builder.replaceTop, OpenTree.frame, NodeTree.node,
        FeedItem.entries, FeedItem.annotations]
    | feed inner =>
      simp [builder, close, Builder.closeNode, OpenTree.frame, NodeTree.node, Builder.fail]
  | .link name none :: below =>
    simp [builder, close, Builder.closeNode, Builder.replaceTop, OpenTree.frame, NodeTree.node?]
  | .link name (some content) :: below =>
    simp [builder, close, Builder.closeNode, Builder.fail, OpenTree.frame, NodeTree.node?]
  | .entry items :: below =>
    simp [builder, close, Builder.closeNode, Builder.fail, OpenTree.frame]

variable {convert : Converter} {e : Event}

theorem endEntry_builder {root : Option Document} {items : List EntryItem} {below : List OpenTree} :
    (builder convert.data ⟨root, .entry items :: below⟩).step convert .endEntry = (b, none) ↔
      (∃ a', close ⟨root, below⟩ (.entry items) = some a' ∧ a'.builder convert.data = b) ∧
        convert.Takes (Effect.fields (EntryItem.allEffects convert.data items)) := by
  let effects := EntryItem.allEffects convert.data items
  have hstep : (builder convert.data ⟨root, .entry items :: below⟩).step convert .endEntry =
      match convert (Effect.fields effects) with
      | .ok data =>
        (builder convert.data ⟨root, below⟩).closeNode (.entry ⟨data, Effect.annotations effects⟩)
      | .error e => (builder convert.data ⟨root, below⟩, some e) :=
    rfl
  by_cases ht : convert.Takes (Effect.fields effects)
  · have hnode : Node.entry ⟨convert.data (Effect.fields effects), Effect.annotations effects⟩ =
        NodeTree.node convert.data (.entry items) :=
      rfl
    rw [hstep, ht.eq_ok]
    dsimp only
    rw [hnode, closeNode_builder]
    exact (and_iff_left ht).symm
  · rw [hstep]
    cases hc : convert (Effect.fields effects) with
    | ok data => exact absurd ⟨data, hc⟩ ht
    | error e =>
      constructor
      · intro h
        cases (Prod.mk.inj h).2
      · intro h
        exact absurd h.2 ht

/-- A step of the builder succeeds where the next event can be read and the converter takes what it is
given, and it leaves the builder as it is beside what has been read. -/
theorem step_builder : (a.builder convert.data).step convert e = (b, none) ↔
    (∃ a', a.next e = some a' ∧ a'.builder convert.data = b) ∧
      ∀ fields ∈ (a.builder convert.data).conversion? e, convert.Takes fields := by
  obtain ⟨root, parts⟩ := a
  cases e with
  | startFeed | startEntry | startLink name =>
    simp [Builder.step, Builder.push, next, opened, builder, OpenTree.frame, Builder.conversion?,
      NodeTree.node?, FeedItem.annotations, Effect.fields, Effect.annotations, Fields.ofList,
      Fields.putAll, EntryAnnotations.empty]
  | endFeed =>
    rcases parts with _ | ⟨items | _ | _, below⟩
    case cons.feed =>
      have hstep : (builder convert.data ⟨root, .feed items :: below⟩).step convert .endFeed =
          (builder convert.data ⟨root, below⟩).closeNode (NodeTree.node convert.data (.feed items)) :=
        rfl
      rw [hstep, closeNode_builder]
      simp [next, Builder.conversion?]
    all_goals
      simp [Builder.step, Builder.endFeed, Builder.fail, next, builder, OpenTree.frame]
  | endEntry =>
    rcases parts with _ | ⟨_ | items | _, below⟩
    case cons.entry =>
      rw [endEntry_builder]
      simp [next, Builder.conversion?, builder, OpenTree.frame]
    all_goals
      simp [Builder.step, Builder.endEntry, Builder.fail, next, builder, OpenTree.frame]
  | endLink =>
    rcases parts with _ | ⟨_ | _ | ⟨name, content⟩, _ | ⟨_ | items | _, below⟩⟩
    case cons.link.cons.entry =>
      simp [Builder.step, Builder.endLink, Builder.replaceTop, Builder.pop, next, addToEntry, builder,
        OpenTree.frame, Builder.conversion?, linkContent_eq, Effect.fields_append_link,
        Effect.annotations_append_link, EntryItem.effects]
    all_goals
      simp [Builder.step, Builder.endLink, Builder.fail, next, addToEntry, builder, OpenTree.frame]
  | field name v =>
    rcases parts with _ | ⟨_ | items | _, below⟩
    case cons.entry =>
      simp [Builder.step, Builder.setField, Builder.replaceTop, next, addToEntry, builder,
        OpenTree.frame, Builder.conversion?, EntryItem.effects]
    all_goals
      simp [Builder.step, Builder.setField, Builder.fail, next, addToEntry, builder, OpenTree.frame]
  | value v =>
    rcases root with _ | d
    case none =>
      rcases parts with _ | ⟨part, below⟩
      · simp [Builder.step, Builder.setValue, Builder.setResult, next, builder, Document.node,
          Builder.conversion?]
      · simp [Builder.step, Builder.setValue, Builder.fail, next, builder]
    case some =>
      rcases parts with _ | ⟨part, below⟩
      · simp [Builder.step, Builder.setValue, Builder.setResult, Builder.fail, next, builder]
      · simp [Builder.step, Builder.setValue, Builder.fail, next, builder]
  | entryNote n =>
    rcases parts with _ | ⟨_ | items | _, below⟩
    case cons.entry =>
      simp [Builder.step, Builder.annotateEntry, Builder.replaceTop, next, addToEntry, builder,
        OpenTree.frame, Builder.conversion?, EntryItem.effects]
    all_goals
      simp [Builder.step, Builder.annotateEntry, Builder.fail, next, addToEntry, builder,
        OpenTree.frame]
  | feedNote n =>
    rcases parts with _ | ⟨items | _ | _, below⟩
    case cons.feed =>
      simp [Builder.step, Builder.annotateFeed, Builder.replaceTop, next, addToFeed, builder,
        OpenTree.frame, Builder.conversion?, FeedItem.entries, FeedItem.annotations]
    all_goals
      simp [Builder.step, Builder.annotateFeed, Builder.fail, next, addToFeed, builder,
        OpenTree.frame]
  | linkNote name n =>
    rcases parts with _ | ⟨_ | items | _, below⟩
    case cons.entry =>
      simp [Builder.step, Builder.annotateLink, Builder.replaceTop, next, addToEntry, builder,
        OpenTree.frame, Builder.conversion?, EntryItem.effects, LinkMark.apply]
    all_goals
      simp [Builder.step, Builder.annotateLink, Builder.fail, next, addToEntry, builder,
        OpenTree.frame]

variable {es : List Event} {a' : Assembly}

theorem run_of_read (h : a.read es = some a')
    (ht : ∀ fields ∈ a'.conversions convert.data, convert.Takes fields) :
    (a.builder convert.data).run convert (es.map .event) = .ok (a'.builder convert.data) := by
  induction es generalizing a with
  | nil =>
    obtain rfl := Option.some.inj h
    rfl
  | cons e rest ih =>
    obtain ⟨middle, hnext, hread⟩ := Option.bind_eq_some_iff.1 h
    obtain ⟨-, hconversions⟩ := of_next (f := convert.data) hnext
    obtain ⟨-, hinitial⟩ := of_read (f := convert.data) hread
    have hstep : (a.builder convert.data).step convert e = (middle.builder convert.data, none) := by
      refine step_builder.2 ⟨⟨middle, hnext, rfl⟩, fun fields hf ↦ ht fields (hinitial.subset ?_)⟩
      rw [hconversions]
      exact List.mem_append_right _ (Option.mem_toList.2 hf)
    rw [List.map_cons, Builder.run, hstep]
    exact ih hread

theorem read_of_run (h : (a.builder convert.data).run convert (es.map .event) = .ok b) :
    ∃ a', a.read es = some a' ∧ a'.builder convert.data = b ∧
      a'.conversions convert.data =
        a.conversions convert.data ++ (a.builder convert.data).conversions convert es ∧
      ∀ fields ∈ (a.builder convert.data).conversions convert es, convert.Takes fields := by
  induction es generalizing a with
  | nil => exact ⟨a, rfl, Except.ok.inj h, (List.append_nil _).symm, nofun⟩
  | cons e rest ih =>
    rw [List.map_cons, Builder.run] at h
    split at h
    · rename_i middle hstep
      obtain ⟨⟨a₁, hnext, rfl⟩, htakes⟩ := step_builder.1 hstep
      obtain ⟨a', hread, hbuilder, hconversions, hrest⟩ := ih h
      obtain ⟨-, hfirst⟩ := of_next (f := convert.data) hnext
      refine ⟨a', Option.bind_eq_some_iff.2 ⟨a₁, hnext, hread⟩, hbuilder, ?_, ?_⟩
      · rw [hconversions, hfirst, Builder.conversions, hstep, List.append_assoc]
      · intro fields hf
        rw [Builder.conversions, hstep] at hf
        rcases List.mem_append.1 hf with hf | hf
        · exact htakes fields (Option.mem_toList.1 hf)
        · exact hrest fields hf
    · contradiction

theorem builder_empty (f : Record → Record) : Assembly.empty.builder f = Builder.empty :=
  rfl

theorem finish_builder {node : Node} : (a.builder f).finish = .ok node ↔
    ∃ d, a = ⟨some d, []⟩ ∧ d.node f = node := by
  obtain ⟨root, parts⟩ := a
  match root, parts with
  | some d, [] => simp [builder, Builder.finish]
  | none, [] => simp [builder, Builder.finish]
  | _, _ :: _ => simp [builder, Builder.finish]

end Assembly

/-- The events of a document, and no others, come to a result, provided that the converter takes the
fields of every entry. The result is the node that the document denotes, a sequence of events is that
of one document at most, and the converter is called once for every entry, inner entries first. -/
theorem ofSignals_eq_ok_iff_document (convert : Converter) (es : List Event) :
    (∀ node, Node.ofSignals convert (es.map .event) = .ok node ↔
      ∃ d : Document, d.events = es ∧
        (∀ fields ∈ d.conversions convert.data, convert.Takes fields) ∧
        d.node convert.data = node) ∧
    (∀ d d' : Document, d.events = d'.events → d = d') ∧
    ∀ (d : Document) (node : Node), d.events = es → Node.ofSignals convert (es.map .event) = .ok node →
      Builder.empty.conversions convert es = d.conversions convert.data := by
  have hread : ∀ node, Node.ofSignals convert (es.map .event) = .ok node → ∃ d : Document,
      d.events = es ∧ (∀ fields ∈ d.conversions convert.data, convert.Takes fields) ∧
        d.node convert.data = node ∧
        Builder.empty.conversions convert es = d.conversions convert.data := by
    intro node h
    obtain ⟨b, hrun, hfinish⟩ := Except.bind_eq_ok.1 h
    obtain ⟨a, hread, rfl, hconversions, htakes⟩ :=
      Assembly.read_of_run (a := .empty) hrun
    obtain ⟨d, rfl, hnode⟩ := Assembly.finish_builder.1 hfinish
    have hd : d.conversions convert.data = Builder.empty.conversions convert es := by
      rw [← Assembly.builder_empty convert.data]
      simpa [Assembly.conversions, Assembly.empty] using hconversions
    refine ⟨d, Assembly.read_eq_some_iff.1 hread, ?_, hnode, hd.symm⟩
    rw [hd]
    exact htakes
  have hunique : ∀ d d' : Document, d.events = d'.events → d = d' := by
    intro d d' h
    have hd := Assembly.read_eq_some_iff.2 h
    rw [Assembly.read_eq_some_iff.2 rfl] at hd
    simpa using hd.symm
  refine ⟨fun node ↦ ⟨fun h ↦ ?_, ?_⟩, hunique, ?_⟩
  · obtain ⟨d, hevents, htakes, hnode, -⟩ := hread node h
    exact ⟨d, hevents, htakes, hnode⟩
  · rintro ⟨d, hevents, htakes, rfl⟩
    have hrun : Builder.empty.run convert (es.map .event) =
        .ok (Assembly.builder convert.data ⟨some d, []⟩) :=
      Assembly.run_of_read (Assembly.read_eq_some_iff.2 hevents)
        (by simpa [Assembly.conversions] using htakes)
    exact Except.bind_eq_ok.2 ⟨_, hrun, Assembly.finish_builder.2 ⟨d, rfl, rfl⟩⟩
  · intro d node hevents h
    obtain ⟨d', hevents', -, -, hconversions⟩ := hread node h
    rw [hconversions, hunique d d' (hevents.trans hevents'.symm)]

/-- A product with its category, and with orders of which there are none. -/
def categorized : Document :=
  .tree (.entry [.field "ID" (.int32 1), .link "Orders" (some (.feed [.note (.count (some 0))])),
    .link "Category" (some (.entry [.note (.etag (some "7")), .field "Name" (.string "Seafood")])),
    .field "ID" (.int32 2)])

theorem ofSignals_categorized :
    Node.ofSignals .ok (categorized.events.map .event) =
        .ok (.entry ⟨[("ID", .int32 2), ("Category", .record [("Name", .string "Seafood")])],
          ⟨{}, [("Orders", ⟨{ count := some 0 }, []⟩),
            ("Category", ⟨{}, [⟨{ etag := some "7" }, []⟩]⟩)]⟩⟩) ∧
      Builder.empty.conversions .ok categorized.events =
        [[("Name", .string "Seafood")],
          [("ID", .int32 2), ("Category", .record [("Name", .string "Seafood")])]] := by
  obtain ⟨hresult, -, hconversions⟩ := ofSignals_eq_ok_iff_document .ok categorized.events
  have h := (hresult _).2 ⟨categorized, rfl, fun fields _ ↦ ⟨fields, rfl⟩, rfl⟩
  exact ⟨h, hconversions categorized _ rfl h⟩

end OData
