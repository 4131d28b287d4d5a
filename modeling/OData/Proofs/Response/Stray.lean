import OData.Proofs.Fields
import OData.Proofs.Response.Builder
import OData.Proofs.Response.Part

/-!
Items of feeds that are no objects. They are all that can be wrong with the structure of a JSON
document: without them its signals are the events of one document of the grammar of responses, and with
them the signals are some of these events up to such an item.
-/

namespace OData

/-- Some of the events of a document, and then the end of reading at an item that is no object. -/
def Interrupted (signals : List Signal) (events : List Event) (item : Json) : Prop :=
  ∃ before after rest, events = before ++ after ∧
    signals = before.map .event ++ .stop (.malformed (.itemNotObject item)) :: rest

/-- Signals that are all of some events, where there are no stray items, or that stop at one of
these. -/
def Tells (stray : Json → Prop) (signals : List Signal) (events : List Event) : Prop :=
  (signals = events.map .event ∧ ∀ item, ¬ stray item) ∨
    ∃ item, stray item ∧ Interrupted signals events item

namespace Tells

variable {stray stray' : Json → Prop} {signals signals' : List Signal} {events events' : List Event}

theorem of_events (events : List Event) : Tells (fun _ ↦ False) (events.map .event) events :=
  .inl ⟨rfl, fun _ ↦ id⟩

theorem congr (h : Tells stray signals events) (hs : ∀ item, stray item ↔ stray' item) :
    Tells stray' signals events := by
  rcases h with ⟨heq, hnone⟩ | ⟨item, hitem, hcut⟩
  · exact .inl ⟨heq, fun item hitem ↦ hnone item ((hs item).2 hitem)⟩
  · exact .inr ⟨item, (hs item).1 hitem, hcut⟩

theorem append (h : Tells stray signals events) (h' : Tells stray' signals' events') :
    Tells (fun item ↦ stray item ∨ stray' item) (signals ++ signals') (events ++ events') := by
  rcases h with ⟨rfl, hnone⟩ | ⟨item, hitem, before, after, rest, rfl, rfl⟩
  · rcases h' with ⟨rfl, hnone'⟩ | ⟨item, hitem, before, after, rest, rfl, rfl⟩
    · refine .inl ⟨(List.map_append ..).symm, fun item hitem ↦ ?_⟩
      rcases hitem with hitem | hitem
      · exact hnone item hitem
      · exact hnone' item hitem
    · refine .inr ⟨item, .inr hitem, events ++ before, after, rest, ?_, ?_⟩
      · rw [List.append_assoc]
      · rw [List.map_append, List.append_assoc]
  · refine .inr ⟨item, .inl hitem, before, after ++ events', rest ++ signals', ?_, ?_⟩
    · rw [List.append_assoc]
    · rw [List.append_assoc, List.cons_append]

theorem flatMap {α : Type} {l : List α} {stray : α → Json → Prop} {f : α → List Signal}
    {g : α → List Event} (h : ∀ a ∈ l, Tells (stray a) (f a) (g a)) :
    Tells (fun item ↦ ∃ a ∈ l, stray a item) (l.flatMap f) (l.flatMap g) := by
  induction l with
  | nil => exact .inl ⟨rfl, fun item ⟨a, ha, _⟩ ↦ List.not_mem_nil ha⟩
  | cons a rest ih =>
    obtain ⟨ha, hrest⟩ := List.forall_mem_cons.1 h
    exact (ha.append (ih hrest)).congr fun item ↦ by simp

/-- The first event and the last one stand around the others. -/
theorem enclose (first last : Event) (h : Tells stray signals events) :
    Tells stray (.event first :: signals ++ [.event last]) (first :: events ++ [last]) :=
  (((of_events [first]).append h).append (of_events [last])).congr fun item ↦ by simp

end Tells

namespace Builder

/-- A run stops at the first signal that is an error. -/
theorem run_stop {convert : Converter} {b b' : Builder} {signals : List Signal}
    (h : b.run convert signals = .ok b') (err : ReadError) (rest : List Signal) :
    b.run convert (signals ++ .stop err :: rest) = .error err := by
  rw [run_append, h]
  rfl

end Builder

/-- The identity takes the fields of every entry. -/
theorem Converter.takes_ok (fields : Record) : Converter.Takes .ok fields :=
  ⟨fields, rfl⟩

theorem Document.read_events (d : Document) : Assembly.empty.read d.events = some ⟨some d, []⟩ :=
  Assembly.read_eq_some_iff.2 rfl

/-- The node of a document whose entries keep their fields. -/
theorem Document.ofSignals_events (d : Document) :
    Node.ofSignals .ok (d.events.map .event) = .ok (d.node (Converter.data .ok)) := by
  have hrun : Builder.empty.run .ok (d.events.map .event) =
      .ok (Assembly.builder (Converter.data .ok) ⟨some d, []⟩) :=
    Assembly.run_of_read d.read_events fun fields _ ↦ Converter.takes_ok fields
  rw [Node.ofSignals, hrun]
  exact Assembly.finish_builder.2 ⟨d, rfl, rfl⟩

theorem Document.ofSignals_interrupted {d : Document} {signals : List Signal} {item : Json}
    (h : Interrupted signals d.events item) :
    Node.ofSignals .ok signals = .error (.malformed (.itemNotObject item)) := by
  obtain ⟨before, after, rest, hevents, rfl⟩ := h
  have hread := d.read_events
  rw [hevents, Assembly.read_append] at hread
  obtain ⟨a, ha, -⟩ := Option.bind_eq_some_iff.1 hread
  have hrun : Builder.empty.run .ok (before.map .event) = .ok (a.builder (Converter.data .ok)) :=
    Assembly.run_of_read ha fun fields _ ↦ Converter.takes_ok fields
  rw [Node.ofSignals, Builder.run_stop hrun]
  rfl

namespace OfJson

/-- Whether reading one part leads to reading another. -/
def Part.Reaches : Part → Part → Prop :=
  Relation.ReflTransGen fun p child ↦ child ∈ p.children

/-- An item that is no object, among the items of some feed. -/
def Part.HasStray (p : Part) (item : Json) : Prop :=
  ∃ items notes, p.Reaches (.feed items notes) ∧ item ∈ items ∧ item.isObject = false

namespace Part

variable {item : Json} {items : List Json} {members notes : Members}

theorem hasStray_entry : (entry members).HasStray item ↔
    ∃ child ∈ (entry members).children, child.HasStray item := by
  constructor
  · rintro ⟨items, notes, hreaches, hitem⟩
    rcases Relation.ReflTransGen.cases_head_iff.1 hreaches with h | ⟨child, hchild, hreaches⟩
    · contradiction
    · exact ⟨child, hchild, items, notes, hreaches, hitem⟩
  · rintro ⟨child, hchild, items, notes, hreaches, hitem⟩
    exact ⟨items, notes, .head hchild hreaches, hitem⟩

theorem hasStray_feed : (feed items notes).HasStray item ↔
    (item ∈ items ∧ item.isObject = false) ∨
      ∃ child ∈ (feed items notes).children, child.HasStray item := by
  constructor
  · rintro ⟨items', notes', hreaches, hitem⟩
    rcases Relation.ReflTransGen.cases_head_iff.1 hreaches with h | ⟨child, hchild, hreaches⟩
    · obtain ⟨rfl, -⟩ := Part.feed.inj h
      exact .inl hitem
    · exact .inr ⟨child, hchild, items', notes', hreaches, hitem⟩
  · rintro (hitem | ⟨child, hchild, items', notes', hreaches, hitem⟩)
    · exact ⟨items, notes, .refl, hitem⟩
    · exact ⟨items', notes', .head hchild hreaches, hitem⟩

theorem tells_member {annotated : List (List Char)} {name : String} {v : Json}
    (h : ∀ p, memberPart? annotated name v = some p → Tells p.HasStray p.signals p.tree.events) :
    Tells (fun item ↦ ∃ p, memberPart? annotated name v = some p ∧ p.HasStray item)
      (memberSignals annotated name v) ((memberItems annotated name v).flatMap EntryItem.events) := by
  cases hpart : memberPart? annotated name v with
  | none =>
    rw [memberSignals_of_none hpart, memberItems_of_none hpart]
    exact (Tells.of_events _).congr fun item ↦ by simp
  | some p =>
    rw [memberSignals_of_some hpart, memberItems_of_some hpart, List.flatMap_singleton]
    exact ((h p hpart).enclose (.startLink name) .endLink).congr fun item ↦ by simp

theorem tells_item (h : ∀ members, item = .object members →
      Tells (entry members).HasStray (entry members).signals (entry members).tree.events) :
    Tells (fun stray ↦ (item = stray ∧ stray.isObject = false) ∨
        ∃ members, item = .object members ∧ (entry members).HasStray stray)
      (itemSignals item) ((feedItems item).flatMap FeedItem.events) := by
  cases item with
  | object members =>
    have htells := h members rfl
    rw [tree_entry] at htells
    rw [feedItems, List.flatMap_singleton]
    refine htells.congr fun stray ↦ ⟨fun hstray ↦ .inr ⟨members, rfl, hstray⟩, ?_⟩
    rintro (⟨rfl, hobject⟩ | ⟨others, hothers, hstray⟩)
    · contradiction
    · obtain rfl := Json.object.inj hothers
      exact hstray
  | _ => exact .inr ⟨_, .inl ⟨rfl, rfl⟩, [], [], [], rfl, rfl⟩

theorem mem_children_entry {child : Part} : child ∈ (entry members).children ↔
    ∃ m ∈ members, memberPart? (annotatedProperties members) m.1 m.2 = some child :=
  List.mem_filterMap

theorem mem_children_feed {child : Part} : child ∈ (feed items notes).children ↔
    ∃ item ∈ items, ∃ members, item = .object members ∧ child = entry members := by
  refine List.mem_filterMap.trans (exists_congr fun item ↦ and_congr_right fun _ ↦ ?_)
  cases item <;> simp [eq_comm]

/-- The signals of a part are the events of its tree, or some of them up to a stray item. -/
theorem tells (p : Part) : Tells p.HasStray p.signals p.tree.events := by
  induction p using Part.induction with
  | h p ih =>
  cases p with
  | entry members =>
    rw [signals, entrySignals_eq, tree_entry, NodeTree.events, EntryItem.allEvents_eq, entryItems_eq,
      List.flatMap_assoc]
    have hmembers : ∀ m ∈ members, Tells _ _ _ := fun m hm ↦
      tells_member fun p hp ↦ ih p (mem_children_entry.2 ⟨m, hm, hp⟩)
    refine ((Tells.flatMap hmembers).enclose .startEntry .endEntry).congr fun item ↦ ?_
    rw [hasStray_entry]
    constructor
    · rintro ⟨m, hm, p, hp, hstray⟩
      exact ⟨p, mem_children_entry.2 ⟨m, hm, hp⟩, hstray⟩
    · rintro ⟨p, hp, hstray⟩
      obtain ⟨m, hm, hp⟩ := mem_children_entry.1 hp
      exact ⟨m, hm, p, hp, hstray⟩
  | feed items notes =>
    have hitems : ∀ item ∈ items, Tells _ _ _ := fun item hitem ↦
      tells_item fun members hmembers ↦
        ih _ (mem_children_feed.2 ⟨item, hitem, members, hmembers, rfl⟩)
    have hnotes := Tells.of_events ((feedNotes notes).map .feedNote)
    have hall := (hnotes.append (Tells.flatMap hitems)).enclose .startFeed .endFeed
    rw [signals, feedSignals_eq, tree_feed, NodeTree.events, FeedItem.allEvents_eq,
      List.flatMap_append, List.flatMap_assoc]
    have hevents : ((feedNotes notes).map .note).flatMap FeedItem.events =
        (feedNotes notes).map .feedNote := by
      rw [List.flatMap_map]
      exact List.map_eq_flatMap.symm
    rw [hevents]
    rw [List.map_map] at hall
    refine hall.congr fun item ↦ ?_
    rw [hasStray_feed]
    constructor
    · rintro (hfalse | ⟨other, hother, ⟨rfl, hobject⟩ | ⟨members, rfl, hstray⟩⟩)
      · contradiction
      · exact .inl ⟨hother, hobject⟩
      · exact .inr ⟨_, mem_children_feed.2 ⟨_, hother, members, rfl, rfl⟩, hstray⟩
    · rintro (⟨hitem, hobject⟩ | ⟨child, hchild, hstray⟩)
      · exact .inr ⟨item, hitem, .inl ⟨rfl, hobject⟩⟩
      · obtain ⟨other, hother, members, rfl, rfl⟩ := mem_children_feed.1 hchild
        exact .inr ⟨_, hother, .inr ⟨members, rfl, hstray⟩⟩

end Part

/-- What is read in the course of a document. -/
def Reads (doc : Json) (p : Part) : Prop :=
  ∃ root, content doc = .part root ∧ root.Reaches p

/-- The arrays of a document that are read as feeds whatever their items are: one at the root, one that
is all that a `d` at the root holds, and the `results` of that `d` or of a property of an entry. -/
inductive TakenUnchecked : Json → List Json → Prop
  | root (items : List Json) : TakenUnchecked (.array items) items
  | verbose (items : List Json) : TakenUnchecked (.object [("d", .array items)]) items
  | results {members : Members} {items : List Json} :
      Fields.find? "results" members = some (.array items) →
      TakenUnchecked (.object [("d", .object members)]) items
  | nested {doc : Json} {members inner : Members} {name : String} {items : List Json} :
      Reads doc (.entry members) → (name, .object inner) ∈ members → roleOf name = .property →
      Fields.contains "__deferred" inner = false →
      Fields.find? "results" inner = some (.array items) → TakenUnchecked doc items

theorem find?_of_resultsFeed? {members others : Members} {items : List Json}
    (h : resultsFeed? members = some (items, others)) :
    Fields.find? "results" members = some (.array items) := by
  unfold resultsFeed? at h
  split at h
  · rename_i htake
    obtain ⟨rfl, rfl⟩ := Prod.mk.inj (Option.some.inj h)
    rw [Fields.find?_eq_take?, htake]
    rfl
  · contradiction

theorem exists_resultsFeed? {members : Members} {items : List Json}
    (h : Fields.find? "results" members = some (.array items)) :
    ∃ others, resultsFeed? members = some (items, others) := by
  rw [Fields.find?_eq_take?] at h
  obtain ⟨⟨v, others⟩, htake, rfl⟩ := Option.map_eq_some_iff.1 h
  exact ⟨others, by rw [resultsFeed?, htake]⟩

theorem eq_singleton_of_take? {α : Type} {name : String} {fields : List (String × α)} {v : α}
    (h : Fields.take? name fields = some (v, [])) : fields = [(name, v)] := by
  cases fields with
  | nil => contradiction
  | cons m rest =>
    rw [Fields.take?] at h
    split at h
    · rename_i hname
      obtain ⟨rfl, hrest⟩ := Prod.mk.inj (Option.some.inj h)
      cases rest with
      | nil => rw [← hname]
      | cons first others => contradiction
    · obtain ⟨⟨w, others⟩, -, h⟩ := Option.map_eq_some_iff.1 h
      cases (Prod.mk.inj h).2

theorem all_of_rootContent {members notes : Members} {items : List Json}
    (h : rootContent members = .part (.feed items notes)) : items.all Json.isObject := by
  unfold rootContent at h
  split at h
  · split at h
    · split at h
      · split at h
        · rename_i hall
          obtain ⟨rfl, -⟩ := Part.feed.inj (Content.part.inj h)
          exact hall
        · contradiction
      · contradiction
    · cases Content.part.inj h
  · cases Content.part.inj h

theorem verboseObjectContent_ne_feed (members notes : Members) (items : List Json) :
    verboseObjectContent members ≠ .part (.feed items notes) := by
  intro h
  unfold verboseObjectContent at h
  split at h
  · split at h
    · contradiction
    · cases Content.part.inj h
  · cases Content.part.inj h

/-- An array that is read as a feed holds objects only, or it is taken unchecked. -/
theorem of_content_feed {doc : Json} {items : List Json} {notes : Members}
    (h : content doc = .part (.feed items notes)) :
    items.all Json.isObject ∨ TakenUnchecked doc items := by
  unfold content at h
  split at h
  · split at h
    · rename_i members v hd
      obtain rfl := eq_singleton_of_take? hd
      right
      unfold verboseContent at h
      split at h
      · obtain ⟨rfl, -⟩ := Part.feed.inj (Content.part.inj h)
        exact .verbose _
      · split at h
        · rename_i inner items' others hfeed
          obtain ⟨rfl, -⟩ := Part.feed.inj (Content.part.inj h)
          exact .results (find?_of_resultsFeed? hfeed)
        · exact absurd h (verboseObjectContent_ne_feed _ notes items)
      · contradiction
    · exact .inl (all_of_rootContent h)
  · obtain ⟨rfl, -⟩ := Part.feed.inj (Content.part.inj h)
    exact .inr (.root _)
  · contradiction

theorem of_memberPart?_feed {annotated : List (List Char)} {name : String} {v : Json}
    {items : List Json} {notes : Members}
    (h : memberPart? annotated name v = some (.feed items notes)) :
    items.all Json.isObject ∨ roleOf name = .property ∧ ∃ inner, v = .object inner ∧
      Fields.contains "__deferred" inner = false ∧
      Fields.find? "results" inner = some (.array items) := by
  unfold memberPart? at h
  split at h
  · rename_i hrole
    unfold expansion? at h
    split at h
    · rename_i inner
      split at h
      · contradiction
      · rename_i hdeferred
        have hpart := Option.some.inj h
        unfold Part.ofObject at hpart
        split at hpart
        · rename_i hfeed
          obtain ⟨rfl, -⟩ := Part.feed.inj hpart
          exact .inr ⟨hrole, inner, rfl, Bool.eq_false_iff.2 hdeferred, find?_of_resultsFeed? hfeed⟩
        · contradiction
    · split at h
      · rename_i hitems
        obtain ⟨rfl, -⟩ := Part.feed.inj (Option.some.inj h)
        exact .inl (Bool.and_eq_true_iff.1 hitems).1
      · contradiction
    · contradiction
  · contradiction

/-- The arrays that are taken unchecked are feeds that are read. -/
theorem TakenUnchecked.reads {doc : Json} {items : List Json} (h : TakenUnchecked doc items) :
    ∃ notes, Reads doc (.feed items notes) := by
  cases h with
  | root => exact ⟨[], _, rfl, .refl⟩
  | verbose => exact ⟨[], _, rfl, .refl⟩
  | @results members _ hresults =>
    obtain ⟨others, hfeed⟩ := exists_resultsFeed? hresults
    have hcontent : content (.object [("d", .object members)]) = .part (.feed items others) := by
      simp [content, Fields.take?, Fields.lastFirst, verboseContent, hfeed]
    exact ⟨others, _, hcontent, .refl⟩
  | @nested _ members inner name _ hreads hm hrole hdeferred hresults =>
    obtain ⟨others, hfeed⟩ := exists_resultsFeed? hresults
    obtain ⟨root, hroot, hreaches⟩ := hreads
    have hpart : memberPart? (annotatedProperties members) name (.object inner) =
        some (.feed items others) := by
      simp [memberPart?, hrole, expansion?, hdeferred, Part.ofObject, hfeed]
    exact ⟨others, root, hroot,
      hreaches.tail (Part.mem_children_entry.2 ⟨(name, .object inner), hm, hpart⟩)⟩

theorem exists_hasStray_iff {doc item : Json} :
    (∃ p, content doc = .part p ∧ p.HasStray item) ↔
      ∃ items, TakenUnchecked doc items ∧ item ∈ items ∧ item.isObject = false := by
  constructor
  · rintro ⟨p, hp, items, notes, hreaches, hitem, hobject⟩
    have hchecked : ¬ items.all Json.isObject := by
      intro hall
      have hitemObject := List.all_eq_true.1 hall item hitem
      rw [hobject] at hitemObject
      contradiction
    rcases Relation.ReflTransGen.cases_tail_iff _ _ _ |>.1 hreaches with rfl | ⟨c, hc, hchild⟩
    · exact ⟨items, (of_content_feed hp).resolve_left hchecked, hitem, hobject⟩
    · cases c with
      | entry members =>
        obtain ⟨m, hm, hpart⟩ := Part.mem_children_entry.1 hchild
        obtain ⟨hrole, inner, hinner, hdeferred, hresults⟩ :=
          (of_memberPart?_feed hpart).resolve_left hchecked
        obtain ⟨name, v⟩ := m
        obtain rfl := hinner
        exact ⟨items, .nested ⟨p, hp, hc⟩ hm hrole hdeferred hresults, hitem, hobject⟩
      | feed others notes' =>
        obtain ⟨other, -, members, -, hentry⟩ := Part.mem_children_feed.1 hchild
        contradiction
  · rintro ⟨items, htaken, hitem, hobject⟩
    obtain ⟨notes, p, hp, hreaches⟩ := htaken.reads
    exact ⟨p, hp, items, notes, hreaches, hitem, hobject⟩

theorem Content.tells (c : Content) :
    Tells (fun item ↦ ∃ p, c = .part p ∧ p.HasStray item) c.signals c.document.events := by
  cases c with
  | part p => exact p.tells.congr fun item ↦ by simp
  | value v => exact (Tells.of_events [.value (VerboseDate.ofField v)]).congr fun item ↦ by simp

/-- A JSON document is read to its end, as one document of the grammar of responses with one node at
its root, unless an array that is taken as a feed unchecked holds an item that is no object; then reading
ends at such an item, and with no other error. -/
theorem ofSignals_unless_stray (doc : Json) :
    ((∃ d : Document, signals doc = d.events.map .event ∧
        Node.ofSignals .ok (signals doc) = .ok (d.node (Converter.data .ok))) ∧
      ¬ ∃ items item, TakenUnchecked doc items ∧ item ∈ items ∧ item.isObject = false) ∨
    ∃ items item err, TakenUnchecked doc items ∧ item ∈ items ∧ item.isObject = false ∧
      Node.ofSignals .ok (signals doc) = .error err ∧ err = .malformed (.itemNotObject item) ∧
      err.message? =
        some ("Malformed response: " ++ ("feed item is not an object: " ++ item.text)) := by
  have htells := (content doc).tells
  rw [← signals_eq] at htells
  rcases htells with ⟨hevents, hnone⟩ | ⟨item, hstray, hcut⟩
  · refine .inl ⟨⟨_, hevents, ?_⟩, ?_⟩
    · rw [hevents]
      exact Document.ofSignals_events _
    · rintro ⟨items, item, htaken⟩
      exact hnone item (exists_hasStray_iff.2 ⟨items, htaken⟩)
  · obtain ⟨items, htaken, hitem, hobject⟩ := exists_hasStray_iff.1 hstray
    exact .inr ⟨items, item, _, htaken, hitem, hobject, Document.ofSignals_interrupted hcut, rfl, rfl⟩

end OfJson
end OData
