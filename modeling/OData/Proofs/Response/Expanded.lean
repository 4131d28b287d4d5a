import Mathlib.Data.List.Nodup
import OData.Proofs.Response.Same
import OData.Proofs.Response.Stray

/-!
Where the annotations of the entries in links are. Each entry has those of the entries in its links, by
the names of the links and in order, so that a path of names and positions leads to them; only a link to
one entry without fields is gone with the annotations of that entry and of all below it.
-/

namespace OData

/-! ### Descending from an entry -/

namespace EntryAnnotations

/-- The annotations of the entries in a link, in order. -/
def linked (a : EntryAnnotations) (name : String) : List EntryAnnotations :=
  (a.link? name).elim [] LinkAnnotations.entries

/-- The annotations of an entry inside, by the links that lead to it and the positions in them. -/
def at? (a : EntryAnnotations) : List (String × Nat) → Option EntryAnnotations
  | [] => some a
  | (name, i) :: path => (a.linked name)[i]?.bind (at? · path)

theorem isEmpty_of_linked {a : EntryAnnotations} {name : String} (h : a.linked name ≠ []) :
    a.isEmpty = false := by
  obtain ⟨own, links⟩ := a
  cases links with
  | nil => exact absurd rfl h
  | cons link rest => exact Bool.and_false _

theorem isEmpty_of_at? {a inner : EntryAnnotations} {path : List (String × Nat)}
    (h : a.at? path = some inner) (hinner : inner.isEmpty = false) : a.isEmpty = false := by
  cases path with
  | nil =>
    obtain rfl := Option.some.inj h
    exact hinner
  | cons step path =>
    obtain ⟨b, hb, -⟩ := Option.bind_eq_some_iff.1 h
    refine @isEmpty_of_linked _ step.1 fun hnil ↦ ?_
    rw [hnil] at hb
    contradiction

end EntryAnnotations

/-- The records that a value is made of. -/
def Value.records : Value → List Record
  | .record fields => [fields]
  | .collection items => items.filterMap fun | .record fields => some fields | _ => none
  | _ => []

/-- The fields of an entry inside, by the links that lead to it and the positions in them. -/
def recordAt? (record : Record) : List (String × Nat) → Option Record
  | [] => some record
  | (name, i) :: path =>
    (Fields.find? name record).bind fun v ↦ v.records[i]?.bind (recordAt? · path)

/-! ### The entries of a document -/

/-- The entries in the content of a link, each by its items. -/
def NodeTree.entriesIn : Option NodeTree → List (List EntryItem)
  | none => []
  | some (.entry items) => [items]
  | some (.feed items) => items.filterMap fun | .note _ => none | .entry inner => some inner

namespace EntryItem

/-- The entry that items denote; nothing converts its fields. -/
def entryOf (items : List EntryItem) : Entry :=
  Effect.entry id (allEffects id items)

def linkName? : EntryItem → Option String
  | link name _ => some name
  | _ => none

/-- Items that name each link once, and no field after a link. -/
structure Tidy (items : List EntryItem) : Prop where
  links : (items.filterMap linkName?).Nodup
  fields : ∀ name v, .field name v ∈ items → name ∉ items.filterMap linkName?

/-- A path from an entry to one inside it, by links whose contents are of some kind. -/
inductive Leads (kind : Option NodeTree → Prop) :
    List EntryItem → List (String × Nat) → List EntryItem → Prop
  | nil (items : List EntryItem) : Leads kind items [] items
  | cons {items inner owner : List EntryItem} {name : String} {content : Option NodeTree} {i : Nat}
    {path : List (String × Nat)} (hlink : .link name content ∈ items) (hcontent : kind content)
    (hinner : (NodeTree.entriesIn content)[i]? = some inner) (h : Leads kind inner path owner) :
    Leads kind items ((name, i) :: path) owner

/-- An entry that is tidy, with all entries inside. -/
def TidyWithin (root : List EntryItem) : Prop :=
  ∀ path owner, Leads (fun _ ↦ True) root path owner → Tidy owner

/-- An item that is not the link of a name, and sets no field of that name. -/
def Beside (name : String) : EntryItem → Prop
  | field other _ | link other _ => other ≠ name
  | _ => True

end EntryItem

/-- Content that is kept with its annotations: anything but one entry without fields. -/
def KeepsAnnotations (content : Option NodeTree) : Prop :=
  ∀ items, content = some (.entry items) → (EntryItem.entryOf items).data ≠ []

/-! ### What the effects of an entry leave under the name of a link -/

/-- The annotations of the entries in a link, after an effect. -/
def Effect.linked (name : String) (found : List EntryAnnotations) :
    Effect → List EntryAnnotations
  | mark other (.closed a) => if other = name then found ++ a.entries else found
  | _ => found

theorem Effect.linked_annotations (name : String) (effects : List Effect) :
    (annotations effects).linked name = effects.foldl (linked name) [] := by
  -- notes beside the link change the annotations of its feed only
  rw [EntryAnnotations.linked, EntryAnnotations.link?, find?_links]
  refine (List.foldl_hom (fun found ↦ Option.elim found [] LinkAnnotations.entries) ?_).symm
  intro found effect
  cases effect with
  | mark other m =>
    by_cases hname : other = name
    · cases m <;> cases found <;> simp [linked, marked, LinkMark.apply, hname, LinkAnnotations.merge,
        LinkAnnotations.empty]
    · cases m <;> simp [linked, marked, hname]
  | _ => rfl

theorem Effect.linked_linkEffects (name other : String) (content : Option Node)
    (found : List EntryAnnotations) :
    (linkEffects other content).foldl (linked name) found =
      if other = name then
        found ++ if (annotationsIn content).isEmpty then [] else (annotationsIn content).entries
      else found := by
  have hvalue : ((linkValue? content).toList.map (assign other)).foldl (linked name) found =
      found := by
    cases linkValue? content <;> rfl
  rw [linkEffects, List.foldl_append, hvalue]
  by_cases hempty : (annotationsIn content).isEmpty
  · rw [if_pos hempty, if_pos hempty, List.append_nil, ite_self]
    rfl
  · rw [if_neg hempty, if_neg hempty]
    rfl

theorem Effect.assigned_linkEffects (name other : String) (content : Option Node)
    (found : Option Value) :
    (linkEffects other content).foldl (assigned name) found =
      if other = name then (linkValue? content).or found else found := by
  rw [linkEffects, List.foldl_append]
  have hmarks : ∀ found, (if (annotationsIn content).isEmpty then [] else
      [mark other (.closed (annotationsIn content))]).foldl (assigned name) found = found := by
    intro found
    split <;> rfl
  rw [hmarks]
  cases linkValue? content with
  | none => exact (ite_self _).symm
  | some v => rfl

namespace EntryItem

variable {items : List EntryItem} {name : String} {content : Option NodeTree}

theorem mem_linkNames : name ∈ items.filterMap linkName? ↔ ∃ content, .link name content ∈ items := by
  rw [List.mem_filterMap]
  constructor
  · rintro ⟨item, hitem, hname⟩
    cases item with
    | link other content =>
      obtain rfl := Option.some.inj hname
      exact ⟨content, hitem⟩
    | _ => contradiction
  · rintro ⟨content, hlink⟩
    exact ⟨_, hlink, rfl⟩

/-- Other items are beside a link. -/
theorem Tidy.exists_split (h : Tidy items) (hlink : .link name content ∈ items) :
    ∃ before after, items = before ++ .link name content :: after ∧
      (∀ item ∈ before, item.Beside name) ∧ ∀ item ∈ after, item.Beside name := by
  obtain ⟨before, after, rfl⟩ := List.append_of_mem hlink
  have hnames : (before ++ .link name content :: after).filterMap linkName? =
      before.filterMap linkName? ++ name :: after.filterMap linkName? :=
    List.filterMap_append
  have hothers := h.links
  rw [hnames, List.nodup_middle, List.nodup_cons, List.mem_append, not_or] at hothers
  have hbeside : ∀ part : List EntryItem,
      (∀ item ∈ part, item ∈ before ++ .link name content :: after) →
      name ∉ part.filterMap linkName? → ∀ item ∈ part, item.Beside name := by
    intro part hpart hname item hitem
    cases item with
    | field other v =>
      rintro rfl
      exact h.fields other v (hpart _ hitem) (mem_linkNames.2 ⟨content, hlink⟩)
    | link other c =>
      rintro rfl
      exact hname (mem_linkNames.2 ⟨c, hitem⟩)
    | _ => trivial
  refine ⟨before, after, rfl, hbeside before (fun item hitem ↦ ?_) hothers.1.1,
    hbeside after (fun item hitem ↦ ?_) hothers.1.2⟩
  · exact List.mem_append_left _ hitem
  · exact List.mem_append_right _ (List.mem_cons_of_mem _ hitem)

/-- Effects of items beside a link leave alone what the link settles. -/
theorem foldl_effects {β : Type} {step : β → Effect → β}
    (hstep : ∀ item : EntryItem, item.Beside name → ∀ b, (item.effects id).foldl step b = b)
    (h : Tidy items) (hlink : .link name content ∈ items) (b : β) :
    (allEffects id items).foldl step b =
      (linkEffects name (NodeTree.node? id content)).foldl step b := by
  obtain ⟨before, after, rfl, hbefore, hafter⟩ := h.exists_split hlink
  have hpart : ∀ (part : List EntryItem), (∀ item ∈ part, item.Beside name) → ∀ b,
      (part.flatMap (effects id)).foldl step b = b := by
    intro part hpart
    induction part with
    | nil => exact fun b ↦ rfl
    | cons item rest ih =>
      obtain ⟨hitem, hrest⟩ := List.forall_mem_cons.1 hpart
      intro b
      rw [List.flatMap_cons, List.foldl_append, hstep item hitem, ih hrest]
  rw [allEffects_eq, List.flatMap_append, List.flatMap_cons, List.foldl_append, List.foldl_append,
    hpart before hbefore, hpart after hafter]
  rfl

theorem find?_entryOf (h : Tidy items) (hlink : .link name content ∈ items) :
    Fields.find? name (entryOf items).data = linkValue? (NodeTree.node? id content) := by
  have hstep : ∀ item : EntryItem, item.Beside name → ∀ found,
      (item.effects id).foldl (Effect.assigned name) found = found := by
    intro item hitem found
    cases item with
    | field other v => exact if_neg hitem
    | note a => rfl
    | linkNote other a => rfl
    | link other c => exact (Effect.assigned_linkEffects ..).trans (if_neg hitem)
  calc Fields.find? name (entryOf items).data
      = (allEffects id items).foldl (Effect.assigned name) none := Effect.find?_fields name _
    _ = (linkEffects name (NodeTree.node? id content)).foldl (Effect.assigned name) none :=
        foldl_effects hstep h hlink none
    _ = linkValue? (NodeTree.node? id content) := by
        rw [Effect.assigned_linkEffects, if_pos rfl, Option.or_none]

theorem linked_entryOf (h : Tidy items) (hlink : .link name content ∈ items) :
    (entryOf items).annotations.linked name =
      if (annotationsIn (NodeTree.node? id content)).isEmpty then []
      else (annotationsIn (NodeTree.node? id content)).entries := by
  have hstep : ∀ item : EntryItem, item.Beside name → ∀ found,
      (item.effects id).foldl (Effect.linked name) found = found := by
    intro item hitem found
    cases item with
    | field other v => rfl
    | note a => rfl
    | linkNote other a => rfl
    | link other c => exact (Effect.linked_linkEffects ..).trans (if_neg hitem)
  calc (entryOf items).annotations.linked name
      = (allEffects id items).foldl (Effect.linked name) [] := Effect.linked_annotations name _
    _ = (linkEffects name (NodeTree.node? id content)).foldl (Effect.linked name) [] :=
        foldl_effects hstep h hlink []
    _ = _ := by
        rw [Effect.linked_linkEffects, if_pos rfl, List.nil_append]

/-! ### The content of a link -/

theorem map_entryOf_entriesIn (items : List FeedItem) :
    (NodeTree.entriesIn (some (.feed items))).map entryOf = FeedItem.allEntries id items := by
  rw [NodeTree.entriesIn, FeedItem.allEntries_eq]
  induction items with
  | nil => rfl
  | cons item rest ih =>
    rw [List.flatMap_cons, ← ih]
    cases item <;> rfl

theorem entries_of_keeps (h : KeepsAnnotations content) :
    (annotationsIn (NodeTree.node? id content)).entries =
      (NodeTree.entriesIn content).map fun inner ↦ (entryOf inner).annotations := by
  match content with
  | none => rfl
  | some (.entry items) =>
    have hdata : ¬ (entryOf items).data.isEmpty := fun hempty ↦
      h items rfl (List.isEmpty_iff.1 hempty)
    exact if_neg hdata
  | some (.feed items) =>
    show (FeedItem.allEntries id items).map Entry.annotations = _
    rw [← map_entryOf_entriesIn, List.map_map]
    rfl

theorem entries_of_not_keeps (h : ¬ KeepsAnnotations content) :
    (annotationsIn (NodeTree.node? id content)).entries = [] := by
  simp only [KeepsAnnotations, not_forall, not_not] at h
  obtain ⟨items, rfl, hdata⟩ := h
  exact if_pos (List.isEmpty_iff.2 hdata)

theorem records_of_linkValue? {v : Value} (h : linkValue? (NodeTree.node? id content) = some v) :
    v.records = (NodeTree.entriesIn content).map fun inner ↦ (entryOf inner).data := by
  match content with
  | some (.entry items) =>
    obtain ⟨-, h⟩ := Option.ite_none_left_eq_some.1 h
    obtain rfl := Option.some.inj h
    rfl
  | some (.feed items) =>
    obtain ⟨-, h⟩ := Option.ite_none_left_eq_some.1 h
    obtain rfl := Option.some.inj h
    show ((FeedItem.allEntries id items).map fun e ↦ Value.record e.data).filterMap _ = _
    rw [← map_entryOf_entriesIn, List.map_map, List.filterMap_map]
    exact congrFun List.filterMap_eq_map _

theorem linked_of_keeps (h : Tidy items) (hlink : .link name content ∈ items)
    (hkeeps : KeepsAnnotations content)
    (hinner : ∃ inner ∈ NodeTree.entriesIn content, (entryOf inner).annotations.isEmpty = false) :
    (entryOf items).annotations.linked name =
      (NodeTree.entriesIn content).map fun inner ↦ (entryOf inner).annotations := by
  rw [linked_entryOf h hlink, ← entries_of_keeps hkeeps, if_neg]
  intro hempty
  obtain ⟨inner, hmem, hannotated⟩ := hinner
  have hall := (Bool.and_eq_true_iff.1 hempty).2
  rw [entries_of_keeps hkeeps, List.all_map, List.all_eq_true] at hall
  exact Bool.false_ne_true (hannotated.symm.trans (hall inner hmem))

/-- Annotations that are there under the name of a link are those of all its entries. -/
theorem of_linked_ne_nil (h : Tidy items) (hlink : .link name content ∈ items)
    (hsome : (entryOf items).annotations.linked name ≠ []) :
    KeepsAnnotations content ∧ (entryOf items).annotations.linked name =
      (NodeTree.entriesIn content).map fun inner ↦ (entryOf inner).annotations := by
  rw [linked_entryOf h hlink] at hsome ⊢
  have hempty : ¬ (annotationsIn (NodeTree.node? id content)).isEmpty := fun hempty ↦
    hsome (if_pos hempty)
  rw [if_neg hempty] at hsome ⊢
  have hkeeps : KeepsAnnotations content := by
    by_contra hlost
    exact hsome (entries_of_not_keeps hlost)
  exact ⟨hkeeps, entries_of_keeps hkeeps⟩

/-! ### The entries inside -/

section

variable {root owner : List EntryItem} {path : List (String × Nat)}

theorem TidyWithin.tidy (h : TidyWithin root) : Tidy root :=
  h [] root (.nil root)

theorem TidyWithin.inner {inner : List EntryItem} {i : Nat} (h : TidyWithin root)
    (hlink : .link name content ∈ root)
    (hinner : (NodeTree.entriesIn content)[i]? = some inner) : TidyWithin inner :=
  fun path owner hleads ↦ h ((name, i) :: path) owner (.cons hlink trivial hinner hleads)

theorem tidyWithin_of_inner (h : Tidy root)
    (hinner : ∀ name content, .link name content ∈ root →
      ∀ inner ∈ NodeTree.entriesIn content, TidyWithin inner) : TidyWithin root := by
  intro path owner hleads
  cases hleads with
  | nil => exact h
  | cons hlink _ hget hleads => exact hinner _ _ hlink _ (List.mem_of_getElem? hget) _ _ hleads

theorem Leads.at?_eq (h : Leads KeepsAnnotations root path owner) (htidy : TidyWithin root)
    (hannotated : (entryOf owner).annotations.isEmpty = false) :
    (entryOf root).annotations.at? path = some (entryOf owner).annotations := by
  induction h with
  | nil => rfl
  | @cons items inner owner name content i path hlink hcontent hinner _ ih =>
    have hat := ih (htidy.inner hlink hinner) hannotated
    -- what is annotated below is annotated itself, and so its link is not left out as a default
    have hlinked := linked_of_keeps htidy.tidy hlink hcontent
      ⟨inner, List.mem_of_getElem? hinner, EntryAnnotations.isEmpty_of_at? hat hannotated⟩
    rw [EntryAnnotations.at?, hlinked, List.getElem?_map, hinner]
    exact hat

/-- Annotations at the end of a path have been kept in every link on it. -/
theorem Leads.of_at? (h : Leads (fun _ ↦ True) root path owner) (htidy : TidyWithin root)
    {a : EntryAnnotations} (hat : (entryOf root).annotations.at? path = some a) :
    Leads KeepsAnnotations root path owner ∧ a = (entryOf owner).annotations := by
  induction h with
  | nil items => exact ⟨.nil items, (Option.some.inj hat).symm⟩
  | @cons items inner owner name content i path hlink _ hinner _ ih =>
    obtain ⟨b, hb, hat⟩ := Option.bind_eq_some_iff.1 hat
    obtain ⟨hkeeps, hlinked⟩ := of_linked_ne_nil htidy.tidy hlink
      (List.ne_nil_of_mem (List.mem_of_getElem? hb))
    rw [hlinked, List.getElem?_map, hinner] at hb
    obtain rfl := Option.some.inj hb
    obtain ⟨hleads, rfl⟩ := ih (htidy.inner hlink hinner) hat
    exact ⟨.cons hlink hkeeps hinner hleads, rfl⟩

theorem Leads.of_recordAt? (h : Leads (fun _ ↦ True) root path owner) (htidy : TidyWithin root)
    {record : Record} (hrecord : recordAt? (entryOf root).data path = some record) :
    record = (entryOf owner).data := by
  induction h with
  | nil items => exact (Option.some.inj hrecord).symm
  | @cons items inner owner name content i path hlink _ hinner _ ih =>
    obtain ⟨v, hv, hrecord⟩ := Option.bind_eq_some_iff.1 hrecord
    obtain ⟨data, hdata, hrecord⟩ := Option.bind_eq_some_iff.1 hrecord
    rw [find?_entryOf htidy.tidy hlink] at hv
    rw [records_of_linkValue? hv, List.getElem?_map, hinner] at hdata
    obtain rfl := Option.some.inj hdata
    exact ih (htidy.inner hlink hinner) hrecord

/-- The annotations that an entry has of a link inside it: those of all entries in the link, just where
neither this link nor one that leads to it is to one entry without fields. Where the value of the link
is there, it has a record for each of these entries. -/
structure Annotates (root : List EntryItem) (e : Entry) : Prop where
  annotations : ∀ path owner name content, Leads (fun _ ↦ True) root path owner →
    .link name content ∈ owner →
    (∃ inner ∈ NodeTree.entriesIn content, (entryOf inner).annotations.isEmpty = false) →
    ((e.annotations.at? path).map (·.linked name) =
        some ((NodeTree.entriesIn content).map fun inner ↦ (entryOf inner).annotations) ↔
      Leads KeepsAnnotations root path owner ∧ KeepsAnnotations content)
  values : ∀ path owner name content record v, Leads (fun _ ↦ True) root path owner →
    .link name content ∈ owner → recordAt? e.data path = some record →
    Fields.find? name record = some v → v.records.length = (NodeTree.entriesIn content).length

theorem annotates_entryOf (htidy : TidyWithin root) : Annotates root (entryOf root) := by
  constructor
  case annotations =>
    intro path owner name content hleads hlink hinner
    have howner := htidy path owner hleads
    constructor
    · intro hlinked
      obtain ⟨a, hat, hentries⟩ := Option.map_eq_some_iff.1 hlinked
      obtain ⟨hkept, rfl⟩ := hleads.of_at? htidy hat
      refine ⟨hkept, (of_linked_ne_nil howner hlink ?_).1⟩
      obtain ⟨inner, hmem, -⟩ := hinner
      rw [hentries]
      exact List.ne_nil_of_mem (List.mem_map_of_mem hmem)
    · rintro ⟨hkept, hkeeps⟩
      have hentries := linked_of_keeps howner hlink hkeeps hinner
      have hannotated : (entryOf owner).annotations.isEmpty = false := by
        obtain ⟨inner, hmem, -⟩ := hinner
        refine @EntryAnnotations.isEmpty_of_linked _ name ?_
        rw [hentries]
        exact List.ne_nil_of_mem (List.mem_map_of_mem hmem)
      rw [hkept.at?_eq htidy hannotated, Option.map_some, hentries]
  case values =>
    intro path owner name content record v hleads hlink hrecord hv
    obtain rfl := hleads.of_recordAt? htidy hrecord
    rw [find?_entryOf (htidy path owner hleads) hlink] at hv
    rw [records_of_linkValue? hv, List.length_map]

end

end EntryItem

/-- The entries that a document consists of, each by its items. -/
def Document.roots : Document → List (List EntryItem)
  | .value _ => []
  | .tree t => NodeTree.entriesIn (some t)

theorem Document.entries_node (d : Document) :
    (d.node id).entries = d.roots.map EntryItem.entryOf := by
  match d with
  | .value v => rfl
  | .tree (.entry items) => rfl
  | .tree (.feed items) => exact (EntryItem.map_entryOf_entriesIn items).symm

theorem Document.events_injective : Function.Injective Document.events := by
  intro d d' h
  have hread := Assembly.read_eq_some_iff.2 h
  rw [d'.read_events] at hread
  simpa using hread.symm

/-- What is read without an error is a document; and each of its entries has the annotations of the
entries in its links, as far as no link to one entry without fields is in between. -/
theorem annotations_of_links {es : List Event} {node : Node}
    (h : Node.ofSignals .ok (es.map .event) = .ok node) :
    ∃ d : Document, d.events = es ∧ List.Forall₂
      (fun root e ↦ EntryItem.TidyWithin root → EntryItem.Annotates root e) d.roots node.entries := by
  obtain ⟨b, hrun, hfinish⟩ := Except.bind_eq_ok.1 h
  obtain ⟨a, hread, rfl, -⟩ := Assembly.read_of_run (a := .empty) hrun
  obtain ⟨d, rfl, rfl⟩ := Assembly.finish_builder.1 hfinish
  refine ⟨d, Assembly.read_eq_some_iff.1 hread, ?_⟩
  have hentries : (d.node (Converter.data .ok)).entries = d.roots.map EntryItem.entryOf :=
    d.entries_node
  rw [hentries, List.forall₂_map_right_iff]
  exact List.forall₂_same.2 fun root _ htidy ↦ EntryItem.annotates_entryOf htidy

/-- A product that refers to its category and to its parts by their addresses only. -/
def referring : List EntryItem :=
  [.field "ID" (.int32 1), .link "Category" (some (.entry [.note (.id (some "Categories(7)"))])),
    .link "Parts" (some (.feed [.entry [.note (.id (some "Parts(1)"))]]))]

/-- What is read of it: the parts are there with their addresses. -/
def referred : Entry :=
  ⟨[("ID", .int32 1), ("Parts", .collection [.record []])],
    ⟨{}, [("Parts", ⟨{}, [⟨{ id := some "Parts(1)" }, []⟩]⟩)]⟩⟩

theorem tidyWithin_referring : EntryItem.TidyWithin referring := by
  have haddress : ∀ address, EntryItem.TidyWithin [.note (.id address)] := fun address ↦
    EntryItem.tidyWithin_of_inner ⟨.nil, by simp⟩ (by simp)
  refine EntryItem.tidyWithin_of_inner ⟨by decide, by simp [referring, EntryItem.linkName?]⟩ ?_
  intro name content hlink inner hinner
  simp only [referring, List.mem_cons, List.not_mem_nil, or_false, reduceCtorEq, false_or,
    EntryItem.link.injEq] at hlink
  obtain ⟨-, rfl⟩ | ⟨-, rfl⟩ := hlink
  · obtain rfl := List.mem_singleton.1 hinner
    exact haddress _
  · obtain rfl := List.mem_singleton.1 hinner
    exact haddress _

theorem ofSignals_referring :
    Node.ofSignals .ok ((Document.tree (.entry referring)).events.map .event) =
      .ok (.entry referred) := by
  rfl

theorem annotations_of_links_referring :
    referred.annotations.linked "Parts" = [⟨{ id := some "Parts(1)" }, []⟩] ∧
      referred.annotations.linked "Category" ≠ [⟨{ id := some "Categories(7)" }, []⟩] := by
  obtain ⟨d, hevents, hall⟩ := annotations_of_links ofSignals_referring
  obtain rfl := Document.events_injective hevents
  obtain ⟨hannotates, -⟩ := List.forall₂_cons.1 hall
  have hannotations := (hannotates tidyWithin_referring).annotations [] referring
  constructor
  · have hparts := hannotations "Parts" _ (.nil _)
      (List.mem_cons_of_mem _ (List.mem_cons_of_mem _ (List.mem_cons_self ..)))
      ⟨_, List.mem_cons_self .., rfl⟩
    exact Option.some.inj (hparts.2 ⟨.nil _, nofun⟩)
  · have hcategory := hannotations "Category" _ (.nil _)
      (List.mem_cons_of_mem _ (List.mem_cons_self ..)) ⟨_, List.mem_cons_self .., rfl⟩
    intro hlinked
    exact (hcategory.1 (congrArg some hlinked)).2 _ rfl rfl

/-- The address of the category is lost. -/
theorem not_annotations_of_links : ¬ ∀ (d : Document) (node : Node),
    Node.ofSignals .ok (d.events.map .event) = .ok node →
    ∀ (i : Nat) (root : List EntryItem) (e : Entry), d.roots[i]? = some root →
    node.entries[i]? = some e → EntryItem.TidyWithin root →
    ∀ path owner name content, EntryItem.Leads (fun _ ↦ True) root path owner →
    .link name content ∈ owner →
    (∃ inner ∈ NodeTree.entriesIn content,
      (EntryItem.entryOf inner).annotations.isEmpty = false) →
    (e.annotations.at? path).map (·.linked name) = some
      ((NodeTree.entriesIn content).map fun inner ↦ (EntryItem.entryOf inner).annotations) := by
  intro hall
  have hlinked := hall _ _ ofSignals_referring 0 referring referred rfl rfl tidyWithin_referring []
    referring "Category" _ (.nil _) (List.mem_cons_of_mem _ (List.mem_cons_self ..))
    ⟨_, List.mem_cons_self .., rfl⟩
  cases hlinked

end OData
