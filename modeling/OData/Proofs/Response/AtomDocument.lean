import OData.Proofs.Response.AtomElements
import OData.Proofs.Response.Denoted
import OData.Proofs.Response.Stray
import OData.Response.Payload

/-!
Documents in Atom. The elements of an entry give the events of its facts, its links and its fields.
-/

namespace OData

namespace Source

open OfAtom
open Xml (Tag Token Tree)

/-! ### Items -/

def atomContent : Extent (List EntryItem) → NodeTree
  | .entry items => .entry items
  | .feed paging entries => .feed (paging.notes.map .note ++ entries.map .entry)

/-- The items of an entry in Atom, by those of the entries inside. -/
def atomItems (s : Shape (List EntryItem)) : List EntryItem :=
  (s.etag.toList.map fun etag ↦ .note (.etag (some etag))) ++
    .note (.id (some s.id)) :: .note (.editLink (some s.id)) ::
      ((s.links.map fun (name, extent) ↦ .link name (some (atomContent extent))) ++
        s.fields.map fun (name, v) ↦ .field name v.value)

/-! ### Elements -/

variable {elements : List Element}

theorem gives_single {t : Tree} {signals : List Signal} (h : Gives elements t.tokens signals) :
    Gives elements (Tree.allTokens [t]) signals :=
  h.append_nil rfl

theorem gives_id (id : String) : Gives (.entry :: elements) (Tree.leaf "id" [] id).tokens
    [.event (.entryNote (.id (some id)))] := by
  have hid := @gives_leaf (.entry :: elements) "id" [] .id id rfl
  rwa [ofText, String.ofList_toList] at hid

theorem gives_edit (id : String) :
    Gives (.entry :: elements) (Tree.empty "link" [("rel", "edit"), ("href", id)]).tokens
      [.event (.entryNote (.editLink (some id)))] := by
  have hproper : Xml.Proper [("rel", "edit"), ("href", id)] :=
    @Xml.Proper.of_names _ ["rel", "href"] rfl (by decide)
  refine gives_empty ?_
  have hrel : (Tag.written "link" [("rel", "edit"), ("href", id)]).attribute "rel" = .ok (some "edit") :=
    Xml.attribute_of_find? hproper (by cbv)
  have hhref : (Tag.written "link" [("rel", "edit"), ("href", id)]).attribute "href" = .ok (some id) :=
    Xml.attribute_of_find? hproper (by cbv)
  have hname : (Tag.written "link" [("rel", "edit"), ("href", id)]).localName = "link" := rfl
  generalize Tag.written "link" [("rel", "edit"), ("href", id)] = t at hrel hhref hname ⊢
  have hnavigation : navigationName t = .ok none := by
    rw [navigationName, hrel]
    rfl
  have hlink : entryLink t = .ok [annotatingEntry (.editLink (some id))] := by
    rw [entryLink, hrel, hhref]
    rfl
  rw [emptyOutline, hname]
  dsimp only [List.head?_cons]
  rw [hnavigation, hlink]
  rfl

theorem gives_count (n : UInt64) : Gives (.feed :: elements)
    (Tree.leaf "m:count" [] (String.ofList (Text.decimal n.toNat))).tokens
    [.event (.feedNote (.count (some n.toNat)))] := by
  have htrimmed : Text.Trimmed (Text.decimal n.toNat) := Text.trimmed_of_forall fun _ hc ↦
    Text.isBlank_of_isDigit (Text.isDigit_of_mem_decimal hc)
  have htrim : Text.trim (Text.decimal n.toNat) = Text.decimal n.toNat := by
    have htrim := @Text.Trimmed.trim_append _ [] [] htrimmed nofun nofun
    rwa [List.nil_append, List.append_nil] at htrim
  have hread : Number.readNatural (UInt64.size - 1) (Text.decimal n.toNat) = .ok n.toNat :=
    Number.readNatural_decimal (Nat.le_sub_one_of_lt n.toNat_lt_size)
  have hcount := @gives_leaf (.feed :: elements) "m:count" [] .count
    (String.ofList (Text.decimal n.toNat)) rfl
  rw [ofText, String.toList_ofList, htrim, hread] at hcount
  exact hcount

theorem gives_next (address : String) :
    Gives (.feed :: elements) (Tree.empty "link" [("rel", "next"), ("href", address)]).tokens
      [.event (.feedNote (.nextLink (some address)))] := by
  have hproper : Xml.Proper [("rel", "next"), ("href", address)] :=
    @Xml.Proper.of_names _ ["rel", "href"] rfl (by decide)
  refine gives_empty ?_
  have hrel : (Tag.written "link" [("rel", "next"), ("href", address)]).attribute "rel" =
      .ok (some "next") := Xml.attribute_of_find? hproper (by cbv)
  have hhref : (Tag.written "link" [("rel", "next"), ("href", address)]).attribute "href" =
      .ok (some address) := Xml.attribute_of_find? hproper (by cbv)
  have hname : (Tag.written "link" [("rel", "next"), ("href", address)]).localName = "link" := rfl
  generalize Tag.written "link" [("rel", "next"), ("href", address)] = t at hrel hhref hname ⊢
  have hlink : feedLink t = .ok [annotatingFeed (.nextLink (some address))] := by
    rw [feedLink, hrel, hhref]
    rfl
  rw [emptyOutline, hname]
  dsimp only [List.head?_cons]
  rw [hlink]
  rfl

theorem gives_paging (p : Paging) : Gives (.feed :: elements) (Tree.allTokens p.trees)
    (p.notes.map fun a ↦ .event (.feedNote a)) := by
  obtain ⟨_ | count, _ | next⟩ := p
  · rfl
  · exact (gives_next next).append_nil rfl
  · exact (gives_count count).append_nil rfl
  · exact (gives_count count).append ((gives_next next).append_nil rfl)

/-- The title of a link names it, whatever its relation ends with. -/
theorem startOutline_link (name : String) :
    startOutline (.entry :: elements) (.written "link"
      [("rel", "http://schemas.microsoft.com/ado/2007/08/dataservices/related/" ++ name),
        ("title", name)]) =
      outline (.link :: .entry :: elements) [.event (.startLink name)] := by
  generalize hrelation : "http://schemas.microsoft.com/ado/2007/08/dataservices/related/" ++ name =
    relation
  have hproper : Xml.Proper [("rel", relation), ("title", name)] :=
    @Xml.Proper.of_names _ ["rel", "title"] rfl (by decide)
  have hrel : (Tag.written "link" [("rel", relation), ("title", name)]).attribute "rel" =
      .ok (some relation) := Xml.attribute_of_find? hproper (by cbv)
  have htitle : (Tag.written "link" [("rel", relation), ("title", name)]).attribute "title" =
      .ok (some name) := Xml.attribute_of_find? hproper (by cbv)
  have hname : (Tag.written "link" [("rel", relation), ("title", name)]).localName = "link" := rfl
  generalize Tag.written "link" [("rel", relation), ("title", name)] = t at hrel htitle hname ⊢
  have hclear : Text.ClearOf relatedMark
      "http://schemas.microsoft.com/ado/2007/08/dataservices".toList := by
    refine ⟨by decide, fun c hc ↦ ?_⟩
    have hlast : "http://schemas.microsoft.com/ado/2007/08/dataservices".toList.getLast? =
        some 's' := by decide
    rw [hlast] at hc
    rw [← Option.some.inj hc]
    decide
  have hchars : relation.toList = "http://schemas.microsoft.com/ado/2007/08/dataservices".toList ++
      (relatedMark ++ name.toList) := by
    have hmark : "http://schemas.microsoft.com/ado/2007/08/dataservices/related/".toList =
        "http://schemas.microsoft.com/ado/2007/08/dataservices".toList ++ relatedMark := by decide
    rw [← hrelation, String.toList_append, hmark, List.append_assoc]
  have hcut := Text.cutAt?_append hclear name.toList
  rw [← hchars] at hcut
  have hnavigation : navigationName t = .ok (some name) := by
    rw [navigationName, hrel, htitle]
    simp only [Bind.bind, Except.bind, Option.getD_some, hcut]
    rfl
  rw [startOutline, hname]
  dsimp only [List.head?_cons]
  rw [hnavigation]
  rfl

/-- The element of a link is open while its content is read. -/
theorem gives_link (name : String) {content : Extent Tree} {inner : List Signal}
    (h : ∀ elements, Gives elements (atomExtent content).tokens inner) :
    Gives (.entry :: elements) (atomLink name content).tokens
      (Signal.event (.startLink name) :: inner ++ [Signal.event .endLink]) := by
  have hinline : startOutline (.link :: .entry :: elements) (.written "m:inline" []) =
      outline (.other :: .link :: .entry :: elements) [] := rfl
  have helement := gives_element hinline (gives_single (h _))
  rw [List.nil_append, Element.ending, List.append_nil] at helement
  exact gives_element (startOutline_link name) (gives_single helement)

theorem gives_content {fields : List (String × Scalar)} (h : (fields.map Prod.fst).Nodup) :
    Gives (.entry :: elements)
      (Tree.element "content" [("type", "application/xml")]
        [.element "m:properties" [] (fields.map fun (name, v) ↦ v.property name)]).tokens
      (fields.map fun (name, v) ↦ .event (.field name v.value)) := by
  have hsource : (Tag.written "content" [("type", "application/xml")]).attribute "src" = .ok none :=
    Xml.attribute_of_find? (by decide) rfl
  have hstart : startOutline (.entry :: elements) (.written "content" [("type", "application/xml")]) =
      outline (.other :: .entry :: elements) [] := by
    have hname : (Tag.written "content" [("type", "application/xml")]).localName = "content" := rfl
    generalize Tag.written "content" [("type", "application/xml")] = t at hsource hname ⊢
    rw [startOutline, hname]
    dsimp only [List.head?_cons]
    rw [mediaContent, hsource]
    rfl
  have helement := gives_element hstart (gives_single (gives_properties h))
  rwa [List.nil_append, Element.ending, List.append_nil] at helement

theorem startOutline_entry (etag : Option String) :
    startOutline elements (.written "entry" (namespaces ++ etag.toList.map fun etag ↦ ("m:etag", etag))) =
      outline (.entry :: elements)
        (.event .startEntry :: etag.toList.map fun etag ↦ .event (.entryNote (.etag (some etag)))) := by
  have hetag : (Tag.written "entry"
      (namespaces ++ etag.toList.map fun etag ↦ ("m:etag", etag))).attribute "etag" = .ok etag := by
    cases etag with
    | none => exact Xml.attribute_of_find? (by decide) (by cbv)
    | some etag =>
      exact Xml.attribute_of_find?
        (@Xml.Proper.of_names _ ["xmlns", "xmlns:d", "xmlns:m", "m:etag"] rfl (by decide)) (by cbv)
  have hname : (Tag.written "entry"
      (namespaces ++ etag.toList.map fun etag ↦ ("m:etag", etag))).localName = "entry" := rfl
  generalize Tag.written "entry" (namespaces ++ etag.toList.map fun etag ↦ ("m:etag", etag)) = t
    at hetag hname ⊢
  rw [startOutline, hname, entryEtag, hetag]
  rfl

/-! ### Entries and feeds -/

/-- The signals of an entry, by those of what its links hold. -/
theorem events_atomItems (s : Shape (List EntryItem)) :
    (NodeTree.entry (atomItems s)).events.map Signal.event =
      Signal.event .startEntry ::
        (s.etag.toList.map fun etag ↦ Signal.event (.entryNote (.etag (some etag)))) ++
        (Signal.event (.entryNote (.id (some s.id))) ::
          Signal.event (.entryNote (.editLink (some s.id))) ::
          (s.links.flatMap (fun link ↦ Signal.event (.startLink link.1) ::
            (atomContent link.2).events.map Signal.event ++ [Signal.event .endLink]) ++
              s.fields.map fun (name, v) ↦ Signal.event (.field name v.value))) ++
        [Signal.event .endEntry] := by
  rw [NodeTree.events, EntryItem.allEvents_eq, atomItems]
  simp only [List.flatMap_append, List.flatMap_cons, List.map_eq_flatMap, List.flatMap_assoc,
    List.flatMap_nil, EntryItem.events, NodeTree.eventsOf?, List.append_nil, List.cons_append,
    List.nil_append, List.append_assoc]

theorem allTokens_entry (s : Shape Tree) : Tree.allTokens
    ((.leaf "id" [] s.id :: .empty "link" [("rel", "edit"), ("href", s.id)] ::
      s.links.map fun (name, extent) ↦ atomLink name extent) ++
      [.element "content" [("type", "application/xml")]
        [.element "m:properties" [] (s.fields.map fun (name, v) ↦ v.property name)]]) =
    (Tree.leaf "id" [] s.id).tokens ++
      ((Tree.empty "link" [("rel", "edit"), ("href", s.id)]).tokens ++
        ((s.links.flatMap fun link ↦ (atomLink link.1 link.2).tokens) ++
          (Tree.element "content" [("type", "application/xml")]
            [.element "m:properties" [] (s.fields.map fun (name, v) ↦ v.property name)]).tokens)) := by
  rw [allTokens_eq, List.flatMap_append, List.flatMap_cons, List.flatMap_cons, List.flatMap_singleton,
    List.flatMap_map, List.append_assoc, List.append_assoc]

theorem gives_entry {s : Shape Item} (hnodup : (s.fields.map Prod.fst).Nodup) {tree : Item → Tree}
    {items : Item → List EntryItem}
    (h : ∀ link ∈ s.links, ∀ elements, Gives elements (atomExtent (link.2.map tree)).tokens
      ((atomContent (link.2.map items)).events.map .event)) (elements : List Element) :
    Gives elements (atomEntry (s.map tree)).tokens
      ((NodeTree.entry (atomItems (s.map items))).events.map .event) := by
  have hlinks : Gives (.entry :: elements)
      ((s.map tree).links.flatMap fun link ↦ (atomLink link.1 link.2).tokens)
      ((s.map items).links.flatMap fun link ↦ .event (.startLink link.1) ::
        (atomContent link.2).events.map .event ++ [.event .endLink]) := by
    rw [Shape.map, Shape.map, List.flatMap_map, List.flatMap_map]
    exact .flatMap fun link hlink ↦ gives_link link.1 (h link hlink)
  have hinner := (gives_id s.id).append ((gives_edit s.id).append
    (hlinks.append (gives_content hnodup)))
  rw [events_atomItems]
  refine gives_element (startOutline_entry s.etag) ?_
  rw [allTokens_entry]
  exact hinner

theorem events_feed (paging : Paging) (entries : List (List EntryItem)) :
    (atomContent (.feed paging entries)).events.map Signal.event =
      Signal.event .startFeed :: ((paging.notes.map fun a ↦ Signal.event (.feedNote a)) ++
        entries.flatMap fun items ↦ (NodeTree.entry items).events.map Signal.event) ++
          [Signal.event .endFeed] := by
  rw [atomContent, NodeTree.events, FeedItem.allEvents_eq]
  simp only [List.flatMap_append, List.map_eq_flatMap, List.flatMap_assoc, List.flatMap_cons,
    List.flatMap_nil, FeedItem.events, NodeTree.events, List.append_nil, List.cons_append,
    List.nil_append]

theorem gives_extent {extent : Extent Item} {tree : Item → Tree} {items : Item → List EntryItem}
    (h : ∀ item ∈ extent.entries, ∀ elements, Gives elements (tree item).tokens
      ((NodeTree.entry (items item)).events.map .event)) (elements : List Element) :
    Gives elements (atomExtent (extent.map tree)).tokens
      ((atomContent (extent.map items)).events.map .event) := by
  cases extent with
  | entry item => exact h item (List.mem_singleton_self item) elements
  | feed paging entries =>
    have hentries : Gives (.feed :: elements) (Tree.allTokens (entries.map tree))
        ((entries.map items).flatMap fun items ↦ (NodeTree.entry items).events.map .event) := by
      rw [allTokens_eq, List.flatMap_map, List.flatMap_map]
      exact .flatMap fun item hitem ↦ h item hitem _
    have hchildren := (gives_paging paging).append hentries
    rw [allTokens_eq, allTokens_eq, ← List.flatMap_append, ← allTokens_eq] at hchildren
    have hstart : startOutline elements (.written "feed" namespaces) =
        outline (.feed :: elements) [.event .startFeed] := rfl
    rw [Extent.map, Extent.map, events_feed]
    exact gives_element hstart hchildren

/-- An entry in Atom gives the events of its items, whatever it stands in. -/
theorem gives_item {item : Item} (h : item.Every Shape.WellFormed) (elements : List Element) :
    Gives elements (item.fold atomEntry).tokens
      ((NodeTree.entry (item.fold atomItems)).events.map .event) := by
  induction h generalizing elements with
  | @mk s hs _ ih =>
  have hnodup : (s.fields.map Prod.fst).Nodup := (List.nodup_append.1 hs.nodup).2.1
  rw [Item.fold_mk, Item.fold_mk]
  refine gives_entry hnodup (fun link hlink ↦ gives_extent fun item hitem ↦ ?_) elements
  exact ih link hlink item hitem

/-! ### The node -/

theorem node_atomContent {extent : Extent Item} {items : Item → List EntryItem}
    (h : ∀ item ∈ extent.entries, Effect.entry id (EntryItem.allEffects id (items item)) = item.entry) :
    (atomContent (extent.map items)).node id = (extent.map Item.entry).node := by
  cases extent with
  | entry item => exact congrArg Node.entry (h item (List.mem_singleton_self item))
  | feed paging entries =>
    have hnotes : ((paging.notes.map FeedItem.note ++ (entries.map items).map FeedItem.entry).filterMap
        FeedItem.note?) = paging.notes := by
      have hentries : ((entries.map items).map FeedItem.entry).filterMap FeedItem.note? = [] :=
        List.filterMap_eq_nil_iff.2 (List.forall_mem_map.2 fun _ _ ↦ rfl)
      rw [List.filterMap_append, hentries, List.append_nil, List.filterMap_map]
      exact List.filterMap_some
    have hentries : (paging.notes.map FeedItem.note ++ (entries.map items).map FeedItem.entry).flatMap
        (FeedItem.entries id) = entries.map Item.entry := by
      have hnone : (paging.notes.map FeedItem.note).flatMap (FeedItem.entries id) = [] := by
        rw [List.flatMap_map]
        exact List.flatMap_eq_nil_iff.2 fun _ _ ↦ rfl
      rw [List.flatMap_append, hnone, List.nil_append, List.flatMap_map, List.flatMap_map,
        List.map_eq_flatMap]
      exact List.flatMap_congr fun item hitem ↦ congrArg (fun e ↦ [e]) (h item hitem)
    rw [Extent.map, Extent.map, atomContent, NodeTree.node, FeedItem.allEntries_eq, hentries,
      FeedItem.annotations_eq, hnotes, Paging.foldl_notes]
    rfl

/-- The notes that the elements of an entry make. -/
def Shape.elementNotes {ε : Type} (s : Shape ε) : List EntryNote :=
  (s.etag.toList.map fun etag ↦ .etag (some etag)) ++ [.id (some s.id), .editLink (some s.id)]

theorem Shape.foldl_elementNotes {ε : Type} (s : Shape ε) :
    s.elementNotes.foldl EntryNote.apply {} = s.facts := by
  obtain ⟨id, _ | etag, links, fields⟩ := s <;> rfl

theorem effects_atomItems (s : Shape (List EntryItem)) : EntryItem.allEffects id (atomItems s) =
    assembled s.elementNotes
      (s.links.flatMap fun link ↦ linkEffects link.1 (some ((atomContent link.2).node id))) s.fields := by
  rw [EntryItem.allEffects_eq, atomItems, assembled, Shape.elementNotes]
  simp only [List.flatMap_append, List.flatMap_cons, List.map_eq_flatMap, List.flatMap_assoc,
    List.flatMap_nil, EntryItem.effects, NodeTree.node?, List.append_nil, List.cons_append,
    List.nil_append, List.append_assoc]

/-- The items of an entry in Atom make the entry. -/
theorem entry_atomItems {item : Item} (h : item.Every Shape.WellFormed) :
    Effect.entry id (EntryItem.allEffects id (item.fold atomItems)) = item.entry := by
  induction h with
  | @mk s hs _ ih =>
  have hlinks : ∀ link ∈ s.links, Settles (link.1, link.2.map Item.entry)
      (linkEffects link.1 (some ((atomContent (link.2.map (Item.fold atomItems))).node id))) := by
    intro link hlink
    rw [node_atomContent (ih link hlink)]
    exact settles_linkEffects link.1 _
  rw [Item.fold_mk, effects_atomItems, ← entry_assembled hs.nodup s.foldl_elementNotes hlinks,
    Shape.map, List.flatMap_map]
  rfl

/-! ### Documents -/

theorem isMarkupBlank_of_mem (n : Int) {c : Char} (h : c ∈ Text.signedDecimal n) :
    Text.isMarkupBlank c = false := by
  rcases Text.minus_or_isDigit_of_mem n h with rfl | hdigit
  · decide
  · exact Text.isMarkupBlank_of_isDigit hdigit

theorem wellFormed_property {name : String} (hname : Xml.isName name.toList) {v : Scalar}
    (htext : ∀ text, v = .string text → Xml.Unpadded text.toList) : (v.property name).WellFormed := by
  have hproperty := isName_property hname
  cases v with
  | null => exact .empty hproperty (by decide)
  | boolean b =>
    refine .leaf hproperty (by decide) ?_
    cases b <;> decide
  | int32 n =>
    refine .leaf hproperty (by decide) ?_
    rw [String.toList_ofList]
    exact Xml.unpadded_of_forall fun c hc ↦ isMarkupBlank_of_mem n.toInt hc
  | string s => exact .leaf hproperty (by decide) (htext s rfl)

theorem wellFormed_paging (p : Paging) : ∀ t ∈ p.trees, t.WellFormed := by
  intro t ht
  rcases List.mem_append.1 ht with ht | ht
  · obtain ⟨n, -, rfl⟩ := List.mem_map.1 ht
    refine .leaf (by decide) (by decide) ?_
    rw [String.toList_ofList]
    exact Xml.unpadded_of_forall fun c hc ↦
      Text.isMarkupBlank_of_isDigit (Text.isDigit_of_mem_decimal hc)
  · obtain ⟨address, -, rfl⟩ := List.mem_map.1 ht
    exact .empty (by decide) (@Xml.Proper.of_names _ ["rel", "href"] rfl (by decide))

theorem wellFormed_extent {extent : Extent Tree} (h : ∀ t ∈ extent.entries, t.WellFormed) :
    (atomExtent extent).WellFormed := by
  cases extent with
  | entry t => exact h t (List.mem_singleton_self t)
  | feed paging entries =>
    exact .element (by decide) (by decide) (List.forall_mem_append.2 ⟨wellFormed_paging paging, h⟩)

theorem wellFormed_link (name : String) {extent : Extent Tree} (h : ∀ t ∈ extent.entries, t.WellFormed) :
    (atomLink name extent).WellFormed := by
  refine .element (by decide) (@Xml.Proper.of_names _ ["rel", "title"] rfl (by decide)) ?_
  refine List.forall_mem_singleton.2 (.element (by decide) (by decide) ?_)
  exact List.forall_mem_singleton.2 (wellFormed_extent h)

theorem wellFormed_atomEntry {item : Item} (h : item.Every Shape.WellFormed) :
    (item.fold atomEntry).WellFormed := by
  induction h with
  | @mk s hs _ ih =>
  have hproper : Xml.Proper (namespaces ++ s.etag.toList.map fun etag ↦ ("m:etag", etag)) := by
    cases s.etag with
    | none => exact (by decide : Xml.Proper namespaces)
    | some etag => exact @Xml.Proper.of_names _ ["xmlns", "xmlns:d", "xmlns:m", "m:etag"] rfl (by decide)
  rw [Item.fold_mk]
  refine .element (by decide) hproper (List.forall_mem_append.2 ⟨?_, ?_⟩)
  · refine List.forall_mem_cons.2 ⟨.leaf (by decide) (by decide) hs.id, List.forall_mem_cons.2 ⟨?_, ?_⟩⟩
    · exact .empty (by decide) (@Xml.Proper.of_names _ ["rel", "href"] rfl (by decide))
    · rw [Shape.map, List.map_map]
      refine List.forall_mem_map.2 fun link hlink ↦ wellFormed_link link.1 ?_
      rw [Extent.entries_map]
      exact List.forall_mem_map.2 (ih link hlink)
  · refine List.forall_mem_singleton.2 (.element (by decide) (by decide) ?_)
    refine List.forall_mem_singleton.2 (.element (by decide) (by decide) ?_)
    refine List.forall_mem_map.2 fun f hf ↦ wellFormed_property (hs.fieldNames f hf).isName ?_
    rintro text htext
    exact (hs.texts f.1 text (htext ▸ hf)).1

/-- A document in Atom is read as its node. -/
theorem ofBody_atom {d : Extent Item} (hd : WellFormed d) :
    Node.ofBody .atom (atom d) = .ok (node d) := by
  have htree : (atomExtent (d.map (Item.fold atomEntry))).WellFormed := by
    refine wellFormed_extent ?_
    rw [Extent.entries_map]
    exact List.forall_mem_map.2 fun item hitem ↦ wellFormed_atomEntry (hd item hitem)
  have hgives := gives_extent (fun item hitem ↦ gives_item (hd item hitem)) []
  have hsignals : signals (atom d) =
      (Document.tree (atomContent (d.map (Item.fold atomItems)))).events.map .event := by
    rw [signals, atom, Xml.tokens_document htree, signalsFrom_eq, State.start, hgives]
    exact List.append_nil _
  have hnode : Node.ofBody .atom (atom d) = Node.ofSignals .ok (signals (atom d)) := rfl
  have hcontent : (atomContent (d.map (Item.fold atomItems))).node id = node d :=
    node_atomContent fun item hitem ↦ entry_atomItems (hd item hitem)
  rw [hnode, hsignals, ← hcontent]
  exact Document.ofSignals_events _

end Source
end OData
