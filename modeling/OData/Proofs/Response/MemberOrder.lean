import Mathlib
import OData.Proofs.Response.Denoted
import OData.Proofs.Response.Rearranged
import OData.Response.Payload

/-!
The order of members in JSON. Parts that differ in it denote the same nodes, since no two members of an
entry touch the same thing. What is kept as JSON text is the exception: an annotation whose value has
members of its own.
-/

namespace OData
namespace OfJson

/-- The annotations that a member of an entry denotes. Those of a nested feed are the link's. -/
def memberDenoted (annotated : List (List Char)) (name : String) (v : Json) : List Denoted :=
  match memberPart? annotated name v with
  | some (.feed _ notes) => (feedNotes notes).map fun a ↦ .linked name a.cleared
  | some (.entry _) => []
  | none => (plainItems name v).flatMap EntryItem.denoted

def Part.denoted : Part → List Denoted
  | .entry members =>
    members.flatMap fun (name, v) ↦ memberDenoted (annotatedProperties members) name v
  | .feed _ notes => (feedNotes notes).map fun a ↦ .feed a.cleared

/-- The value that a note of a feed keeps as a text. -/
def feedText (note? : Option FeedNote) (v : Json) : List Json :=
  match note? with
  | some (.nextLink _) | some (.deltaLink _) => [v]
  | _ => []

/-- The values that the annotations of a member keep as texts. -/
def noteTexts (name : String) (v : Json) : Role → List Json
  | .metadata =>
    match v with
    | .object members =>
      (members.filter fun (name, v) ↦ !(metadataAnnotations name v).isEmpty).map Prod.snd
    | _ => []
  | .ownNote => if (entryNote? (annotationName name.toList) v).isSome then [v] else []
  | .noteOn _ note => feedText (linkNote? (annotationName note) v) v
  | .property => []

/-- The values that the annotations of a part keep as texts: any but strings are kept as JSON text. -/
def Part.texts : Part → List Json
  | .entry members => members.flatMap fun (name, v) ↦ noteTexts name v (roleOf name)
  | .feed _ notes =>
    notes.flatMap fun (name, v) ↦ feedText (feedNote? (annotationName name.toList) v) v

section

variable {name : String} {v v' : Json} (hv : v.Reordered v')
include hv

theorem countOf_eq : countOf v = countOf v' := by
  rcases hv.forms with ⟨_, _, rfl, rfl, -⟩ | ⟨_, _, rfl, rfl, -⟩ | ⟨rfl, -⟩ <;> rfl

theorem feedNote?_eq (ho : ∀ j ∈ feedText (feedNote? name v) v, j.HasOneOrder) :
    feedNote? name v = feedNote? name v' := by
  revert ho
  unfold feedNote?
  split
  · intro _
    rw [countOf_eq hv]
  · split
    · intro ho
      rw [hv.eq_of_hasOneOrder (ho v (List.mem_singleton_self v))]
    · split
      · intro ho
        rw [hv.eq_of_hasOneOrder (ho v (List.mem_singleton_self v))]
      · exact fun _ ↦ rfl

theorem linkNote?_eq (ho : ∀ j ∈ feedText (linkNote? name v) v, j.HasOneOrder) :
    linkNote? name v = linkNote? name v' := by
  revert ho
  unfold linkNote?
  split
  · exact feedNote?_eq hv
  · exact fun _ ↦ rfl

theorem entryNote?_eq (ho : (entryNote? name v).isSome → v.HasOneOrder) :
    entryNote? name v = entryNote? name v' := by
  by_cases hsome : (entryNote? name v).isSome
  · rw [hv.eq_of_hasOneOrder (ho hsome)]
  · have hname : (entryNote? name v).isSome = (entryNote? name v').isSome := by
      unfold entryNote?
      split <;> rfl
    have hsome' : ¬ (entryNote? name v').isSome := by rwa [← hname]
    rw [Option.not_isSome_iff_eq_none.1 hsome, Option.not_isSome_iff_eq_none.1 hsome']

theorem metadataAnnotations_eq (ho : metadataAnnotations name v ≠ [] → v.HasOneOrder) :
    metadataAnnotations name v = metadataAnnotations name v' := by
  by_cases hnil : metadataAnnotations name v = []
  · have hname : (metadataAnnotations name v).length = (metadataAnnotations name v').length := by
      unfold metadataAnnotations
      split <;> rfl
    rw [hnil, List.length_nil, eq_comm, List.length_eq_zero_iff] at hname
    rw [hnil, hname]
  · rw [hv.eq_of_hasOneOrder (ho hnil)]

theorem noteItems_perm {role : Role} (ho : ∀ j ∈ noteTexts name v role, j.HasOneOrder) :
    (noteItems name v role).Perm (noteItems name v' role) := by
  cases role with
  | property => exact .refl _
  | ownNote =>
    have hnote : entryNote? (annotationName name.toList) v = entryNote? (annotationName name.toList) v' := by
      refine entryNote?_eq hv fun hsome ↦ ho v ?_
      rw [noteTexts, if_pos hsome]
      exact List.mem_singleton_self v
    rw [noteItems, noteItems, hnote]
  | noteOn property note => rw [noteItems, noteItems, linkNote?_eq hv ho]
  | metadata =>
    rcases hv.forms with ⟨ms, ms', rfl, rfl, h⟩ | ⟨_, _, rfl, rfl, -⟩ | ⟨rfl, -⟩
    · refine List.Perm.map _ (upToOrder_eq (h.flatMap fun m hm m' hmm' ↦ ?_))
      obtain ⟨name, v⟩ := m
      obtain ⟨name', v'⟩ := m'
      obtain ⟨rfl, hmv⟩ := hmm'
      have heq : metadataAnnotations name v = metadataAnnotations name v' := by
        refine metadataAnnotations_eq hmv fun hnil ↦ ho v ?_
        refine List.mem_map.2 ⟨_, List.mem_filter.2 ⟨hm, ?_⟩, rfl⟩
        simpa using hnil
      change UpToOrder Eq (metadataAnnotations name v) (metadataAnnotations name v')
      rw [heq]
      exact .of_forall₂ (List.forall₂_same.2 fun _ _ ↦ rfl)
    · exact .refl _
    · exact .refl _

end

theorem eq_note_of_mem_noteItems {name : String} {v : Json} {role : Role} {item : EntryItem}
    (h : item ∈ noteItems name v role) :
    (∃ a, item = .note a) ∨ ∃ property a, item = .linkNote property a := by
  cases role with
  | property => contradiction
  | metadata =>
    cases v with
    | object members =>
      obtain ⟨a, -, rfl⟩ := List.mem_map.1 h
      exact .inl ⟨a, rfl⟩
    | _ => contradiction
  | ownNote =>
    obtain ⟨a, -, rfl⟩ := List.mem_map.1 h
    exact .inl ⟨a, rfl⟩
  | noteOn property note =>
    obtain ⟨a, -, rfl⟩ := List.mem_map.1 h
    exact .inr ⟨_, a, rfl⟩

theorem names_noteItems (name : String) (v : Json) (role : Role) :
    (noteItems name v role).filterMap EntryItem.name? = [] := by
  refine List.filterMap_eq_nil_iff.2 fun item hitem ↦ ?_
  rcases eq_note_of_mem_noteItems hitem with ⟨a, rfl⟩ | ⟨property, a, rfl⟩ <;> rfl

theorem effects_noteItems {name : String} {v v' : Json} (hv : v.Reordered v') {role : Role}
    (ho : ∀ j ∈ noteTexts name v role, j.HasOneOrder) :
    UpToOrder Effect.Same ((noteItems name v role).flatMap (EntryItem.effects id))
      ((noteItems name v' role).flatMap (EntryItem.effects id)) := by
  refine .perm_left ((noteItems_perm hv ho).flatMap_right _) (.of_forall₂ ?_)
  refine List.forall₂_same.2 fun x hx ↦ ?_
  obtain ⟨item, hitem, hx⟩ := List.mem_flatMap.1 hx
  rcases eq_note_of_mem_noteItems hitem with ⟨a, rfl⟩ | ⟨property, a, rfl⟩
  · obtain rfl := List.mem_singleton.1 hx
    exact .note a
  · obtain rfl := List.mem_singleton.1 hx
    exact .linkNote property a

theorem effects_plainItems {name : String} {v v' : Json} (hv : v.Reordered v')
    (hd : v.DistinctNames) (ho : ∀ j ∈ noteTexts name v (roleOf name), j.HasOneOrder) :
    UpToOrder Effect.Same ((plainItems name v).flatMap (EntryItem.effects id))
      ((plainItems name v').flatMap (EntryItem.effects id)) := by
  have hfield : UpToOrder Effect.Same [.assign name (VerboseDate.ofField v)]
      [.assign name (VerboseDate.ofField v')] :=
    .of_forall₂ (.cons (.assign name (same_of_reordered hv hd).2) .nil)
  unfold plainItems
  cases hrole : roleOf name with
  | property =>
    rcases hv.forms with ⟨_, _, rfl, rfl, -⟩ | ⟨_, _, rfl, rfl, -⟩ | ⟨rfl, hobject, -⟩
    · exact .of_forall₂ .nil
    · exact hfield
    · cases v with
      | object => contradiction
      | _ => exact hfield
  | _ =>
    rw [hrole] at ho
    exact effects_noteItems hv ho

namespace Part

/-- What holds of all that is read in the course of a part. -/
theorem forall_reaches {p : Part} {P : Part → Prop} :
    (∀ q, p.Reaches q → P q) ↔ P p ∧ ∀ child ∈ p.children, ∀ q, child.Reaches q → P q := by
  constructor
  · intro h
    exact ⟨h p .refl, fun child hchild q hq ↦ h q (.head hchild hq)⟩
  · rintro ⟨hp, hchildren⟩ q hq
    rcases Relation.ReflTransGen.cases_head_iff.1 hq with rfl | ⟨child, hchild, hq⟩
    · exact hp
    · exact hchildren child hchild q hq

theorem forall_reads {doc : Json} {root : Part} {P : Part → Prop} (hroot : content doc = .part root)
    (h : ∀ p, root.Reaches p → P p) (p : Part) (hp : Reads doc p) : P p := by
  obtain ⟨other, hother, hp⟩ := hp
  obtain rfl := Content.part.inj (hroot.symm.trans hother)
  exact h p hp

theorem names_memberItems (annotated : List (List Char)) (name : String) (v : Json) :
    ((memberItems annotated name v).filterMap EntryItem.name?).Sublist [name] := by
  cases hpart : memberPart? annotated name v with
  | some p =>
    rw [memberItems_of_some hpart]
    exact .refl _
  | none =>
    rw [memberItems_of_none hpart]
    unfold plainItems
    split
    · exact List.nil_sublist _
    · exact .refl _
    · rw [names_noteItems]
      exact List.nil_sublist _

theorem nodup_names {members : Members} (hnames : (members.map Prod.fst).Nodup) :
    ((entryItems members).filterMap EntryItem.name?).Nodup := by
  refine hnames.sublist ?_
  rw [entryItems_eq]
  generalize annotatedProperties members = annotated
  clear hnames
  induction members with
  | nil => exact .refl _
  | cons m rest ih =>
    rw [List.flatMap_cons, List.filterMap_append, List.map_cons]
    exact (names_memberItems annotated m.1 m.2).append ih

theorem filterMap_feedItems (items : List Json) :
    (items.flatMap feedItems).filterMap FeedItem.note? = [] := by
  refine List.filterMap_eq_nil_iff.2 fun item hitem ↦ ?_
  obtain ⟨j, -, hj⟩ := List.mem_flatMap.1 hitem
  cases j with
  | object members =>
    obtain rfl := List.mem_singleton.1 hj
    rfl
  | _ => contradiction

theorem notes_feed (items : List Json) (notes : Members) :
    ((feedNotes notes).map FeedItem.note ++ items.flatMap feedItems).filterMap FeedItem.note? =
      feedNotes notes := by
  rw [List.filterMap_append, filterMap_feedItems, List.append_nil, List.filterMap_map]
  exact List.filterMap_some

theorem node_feed (items : List Json) (notes : Members) : (feed items notes).tree.node id =
    .feed ⟨(items.flatMap feedItems).flatMap (FeedItem.entries id),
      (feedNotes notes).foldl FeedNote.apply {}⟩ := by
  have hentries : ((feedNotes notes).map FeedItem.note).flatMap (FeedItem.entries id) = [] := by
    rw [List.flatMap_map]
    exact List.flatMap_eq_nil_iff.2 fun _ _ ↦ rfl
  rw [tree_feed, NodeTree.node, FeedItem.allEntries_eq, FeedItem.annotations_eq, notes_feed,
    List.flatMap_append, hentries, List.nil_append]

theorem denoted_memberItems (annotated : List (List Char)) (name : String) (v : Json) :
    (memberItems annotated name v).flatMap EntryItem.denoted = memberDenoted annotated name v := by
  unfold memberDenoted
  split
  · rename_i items notes h
    rw [memberItems_of_some h, List.flatMap_singleton, tree_feed, EntryItem.denoted, notes_feed]
  · rename_i members h
    rw [memberItems_of_some h, List.flatMap_singleton, tree_entry]
    rfl
  · rename_i h
    rw [memberItems_of_none h]

theorem denoted_entry (members : Members) :
    (entryItems members).flatMap EntryItem.denoted = (entry members).denoted := by
  rw [entryItems_eq, List.flatMap_assoc, denoted]
  simp only [denoted_memberItems]

theorem feedNotes_perm {items : List Json} {notes notes' : Members} (h : Rearranged notes notes')
    (ho : ∀ v ∈ (feed items notes).texts, v.HasOneOrder) :
    (feedNotes notes).Perm (feedNotes notes') := by
  refine upToOrder_eq (h.filterMap fun m hm m' hmm' ↦ ?_)
  obtain ⟨name, v⟩ := m
  obtain ⟨name', v'⟩ := m'
  obtain ⟨rfl, hv⟩ := hmm'
  dsimp only at hv ⊢
  rw [← feedNote?_eq hv fun j hj ↦ ho j (List.mem_flatMap.2 ⟨_, hm, hj⟩)]
  cases feedNote? (annotationName name.toList) v with
  | none => exact .none
  | some a => exact .some rfl

theorem effects_memberItems {annotated annotated' : List (List Char)} {name : String} {v v' : Json}
    (hv : v.Reordered v') (hd : v.DistinctNames)
    (ho : ∀ j ∈ noteTexts name v (roleOf name), j.HasOneOrder)
    (hannotated : ∀ property, property ∈ annotated ↔ property ∈ annotated')
    (hpart : ∀ p, memberPart? annotated name v = some p → ∀ p', p.Reordered p' →
      (p.tree.node id).Same (p'.tree.node id)) :
    UpToOrder Effect.Same ((memberItems annotated name v).flatMap (EntryItem.effects id))
      ((memberItems annotated' name v').flatMap (EntryItem.effects id)) := by
  rcases rel_forms (memberPart?_rel hv hd hannotated) with ⟨hp, hp'⟩ | ⟨p, p', hp, hp', hreordered⟩
  · rw [memberItems_of_none hp, memberItems_of_none hp']
    exact effects_plainItems hv hd ho
  · rw [memberItems_of_some hp, memberItems_of_some hp', List.flatMap_singleton,
      List.flatMap_singleton]
    exact .of_forall₂ (linkEffects_same name (hpart p hp p' hreordered))

/-- Parts that differ in the order of members denote the same nodes, provided that nothing is denoted
twice and that what is kept as a text has one order. -/
theorem node_same {p p' : Part} (h : p.Reordered p') (hd : p.DistinctNames)
    (hdenoted : ∀ q, p.Reaches q → q.denoted.Nodup)
    (htexts : ∀ q, p.Reaches q → ∀ v ∈ q.texts, v.HasOneOrder) :
    (p.tree.node id).Same (p'.tree.node id) := by
  induction p using Part.induction generalizing p' with
  | h p ih =>
  obtain ⟨hdenotedp, hdenoted⟩ := forall_reaches.1 hdenoted
  obtain ⟨htextsp, htexts⟩ := forall_reaches.1 htexts
  have hchild : ∀ child ∈ p.children, ∀ child', child.Reordered child' →
      (child.tree.node id).Same (child'.tree.node id) := fun child hmem child' hreordered ↦
    ih child hmem hreordered (distinctNames_of_mem_children hmem hd) (hdenoted child hmem)
      (htexts child hmem)
  cases h with
  | @entry members members' h =>
    obtain ⟨hnames, hvalues⟩ := Json.distinctNames_object.1 hd
    rw [← denoted_entry] at hdenotedp
    rw [tree_entry, tree_entry, NodeTree.node, NodeTree.node]
    refine .entry (Effect.entry_same ?_
      (EntryItem.pairwise_allEffects (nodup_names hnames) hdenotedp))
    rw [EntryItem.allEffects_eq, EntryItem.allEffects_eq, entryItems_eq, entryItems_eq,
      List.flatMap_assoc, List.flatMap_assoc]
    refine h.flatMap fun m hm m' hmm' ↦ ?_
    obtain ⟨name, v⟩ := m
    obtain ⟨name', v'⟩ := m'
    obtain ⟨rfl, hv⟩ := hmm'
    exact effects_memberItems hv (hvalues _ hm)
      (fun j hj ↦ htextsp j (List.mem_flatMap.2 ⟨_, hm, hj⟩))
      (fun _ ↦ mem_annotatedProperties h)
      fun child hpart ↦ hchild child (mem_children_entry.2 ⟨_, hm, hpart⟩)
  | @feed items items' notes notes' hitems hnotes =>
    have hnodup : ((feedNotes notes).map FeedNote.cleared).Nodup := by
      refine List.Nodup.of_map Denoted.feed ?_
      rw [List.map_map]
      exact hdenotedp
    rw [node_feed, node_feed, FeedNote.foldl_apply_perm (feedNotes_perm hnotes htextsp) hnodup]
    refine .feed ?_
    have hmem := (List.forall₂_and_left (p := (· ∈ items)) _ _).2 ⟨fun _ hitem ↦ hitem, hitems⟩
    rw [List.flatMap_assoc, List.flatMap_assoc]
    refine List.rel_flatMap hmem fun item item' hitem ↦ ?_
    obtain ⟨hitem, hreordered⟩ := hitem
    rcases hreordered.forms with ⟨ms, ms', rfl, rfl, h⟩ | ⟨_, _, rfl, rfl, -⟩ | ⟨rfl, hobject, -⟩
    · have hnode := hchild _ (mem_children_feed.2 ⟨_, hitem, ms, rfl, rfl⟩) _ (.entry h)
      rw [tree_entry, tree_entry] at hnode
      cases hnode with
      | entry hentry => exact .cons hentry .nil
    · exact .nil
    · cases item with
      | object => contradiction
      | _ => exact .nil

/-! ### Members that are moved as they are -/

theorem memberPart?_of_annotated {annotated annotated' : List (List Char)} (name : String) (v : Json)
    (h : ∀ property, property ∈ annotated ↔ property ∈ annotated') :
    memberPart? annotated name v = memberPart? annotated' name v := by
  have hcontains : annotated.contains name.toList = annotated'.contains name.toList := by
    rw [Bool.eq_iff_iff, List.contains_iff_mem, List.contains_iff_mem]
    exact h _
  unfold memberPart? expansion?
  rw [hcontains]

section

variable {members members' : Members} (hp : members.Perm members')
include hp

theorem mem_annotatedProperties_of_perm {property : List Char} :
    property ∈ annotatedProperties members ↔ property ∈ annotatedProperties members' :=
  (hp.filterMap _).mem_iff

/-- Moved members expand to the same parts. -/
theorem mem_children_of_perm {child : Part} (h : child ∈ (entry members').children) :
    child ∈ (entry members).children := by
  obtain ⟨m, hm, hpart⟩ := mem_children_entry.1 h
  refine mem_children_entry.2 ⟨m, hp.mem_iff.2 hm, ?_⟩
  rw [← hpart]
  exact memberPart?_of_annotated _ _ fun _ ↦ mem_annotatedProperties_of_perm hp

theorem hasStray_of_perm {item : Json} (h : (entry members').HasStray item) :
    (entry members).HasStray item := by
  obtain ⟨child, hchild, hstray⟩ := hasStray_entry.1 h
  exact hasStray_entry.2 ⟨child, mem_children_of_perm hp hchild, hstray⟩

/-- Moved members make the same entry, provided that no name stands twice and nothing is denoted
twice. -/
theorem node_same_of_perm (hnames : (members.map Prod.fst).Nodup)
    (hdenoted : (entry members).denoted.Nodup) :
    ((entry members).tree.node id).Same ((entry members').tree.node id) := by
  rw [← denoted_entry] at hdenoted
  rw [tree_entry, tree_entry, NodeTree.node, NodeTree.node]
  refine .entry (Effect.entry_same ?_
    (EntryItem.pairwise_allEffects (nodup_names hnames) hdenoted))
  have hitems : (entryItems members).Perm (entryItems members') := by
    rw [entryItems_eq, entryItems_eq]
    refine (hp.flatMap_right _).trans (List.Perm.of_eq (List.flatMap_congr ?_))
    rintro ⟨name, v⟩ -
    have hpart := memberPart?_of_annotated name v fun _ ↦ mem_annotatedProperties_of_perm hp
    dsimp only
    cases hpart' : memberPart? (annotatedProperties members') name v with
    | some p => rw [memberItems_of_some hpart', memberItems_of_some (hpart.trans hpart')]
    | none => rw [memberItems_of_none hpart', memberItems_of_none (hpart.trans hpart')]
  rw [EntryItem.allEffects_eq, EntryItem.allEffects_eq]
  exact .perm_left (hitems.flatMap_right _) (.of_forall₂ (List.forall₂_same.2 fun x _ ↦ .refl x))

end

end Part

namespace Content

def HasStray (c : Content) : Prop :=
  ∃ p, c = .part p ∧ ∃ item, p.HasStray item

variable {c c' : Content} (h : c.Reordered c')
include h

theorem hasStray_congr : c.HasStray ↔ c'.HasStray := by
  cases h with
  | @part p p' h hd =>
    have hcongr := Part.exists_hasStray_congr h hd
    constructor
    · rintro ⟨q, hq, hstray⟩
      obtain rfl := Content.part.inj hq
      exact ⟨p', rfl, hcongr.1 hstray⟩
    · rintro ⟨q, hq, hstray⟩
      obtain rfl := Content.part.inj hq
      exact ⟨p, rfl, hcongr.2 hstray⟩
  | value =>
    constructor
    · rintro ⟨q, hq, -⟩
      contradiction
    · rintro ⟨q, hq, -⟩
      contradiction

theorem node_same (hdenoted : ∀ p, (∃ root, c = .part root ∧ root.Reaches p) → p.denoted.Nodup)
    (htexts : ∀ p, (∃ root, c = .part root ∧ root.Reaches p) → ∀ v ∈ p.texts, v.HasOneOrder) :
    (c.document.node id).Same (c'.document.node id) := by
  cases h with
  | part h hd =>
    exact Part.node_same h hd (fun q hq ↦ hdenoted q ⟨_, rfl, hq⟩) fun q hq ↦ htexts q ⟨_, rfl, hq⟩
  | value h hd => exact .value (same_of_reordered h hd).2

end Content

theorem ofSignals_of_hasStray {doc : Json} (h : (content doc).HasStray) :
    ∃ err, Node.ofSignals .ok (signals doc) = .error err := by
  have htells := (content doc).tells
  rw [← signals_eq] at htells
  rcases htells with ⟨-, hnone⟩ | ⟨item, -, hcut⟩
  · obtain ⟨p, hp, item, hstray⟩ := h
    exact absurd ⟨p, hp, hstray⟩ (hnone item)
  · exact ⟨_, Document.ofSignals_interrupted hcut⟩

theorem ofSignals_of_not_hasStray {doc : Json} (h : ¬ (content doc).HasStray) :
    Node.ofSignals .ok (signals doc) = .ok ((content doc).document.node id) := by
  have htells := (content doc).tells
  rw [← signals_eq] at htells
  rcases htells with ⟨hevents, -⟩ | ⟨item, ⟨p, hp, hstray⟩, -⟩
  · rw [hevents]
    exact Document.ofSignals_events _
  · exact absurd ⟨p, hp, item, hstray⟩ h

theorem ofBody_of_ofText? {body : String} {doc : Json} (h : Json.ofText? body = some doc) :
    Node.ofBody .json body = Node.ofSignals .ok (signals doc) := by
  rw [Node.ofBody, Node.ofBodyWith, PayloadFormat.signals, ofText, h]

/-- Two bodies whose documents differ only in the order of members, with no object that has two
members of one name, are both refused or both read. The nodes are the same, provided that no two members
denote one annotation of one target, and that no annotation with an object of several members in it is
kept as JSON text. -/
theorem ofBody_reordered {body body' : String} {doc doc' : Json}
    (hbody : Json.ofText? body = some doc) (hbody' : Json.ofText? body' = some doc')
    (h : doc.Reordered doc') (hnames : doc.DistinctNames) :
    ((∃ err, Node.ofBody .json body = .error err) ∧
        ∃ err, Node.ofBody .json body' = .error err) ∨
      ∃ n n', Node.ofBody .json body = .ok n ∧ Node.ofBody .json body' = .ok n' ∧
        ((∀ p, Reads doc p → p.denoted.Nodup) →
          (∀ p, Reads doc p → ∀ v ∈ p.texts, v.HasOneOrder) → n.Same n') := by
  rw [ofBody_of_ofText? hbody, ofBody_of_ofText? hbody']
  have hcontent := content_reordered h hnames
  by_cases hstray : (content doc).HasStray
  · have hstray' := (Content.hasStray_congr hcontent).1 hstray
    exact .inl ⟨ofSignals_of_hasStray hstray, ofSignals_of_hasStray hstray'⟩
  · have hstray' := mt (Content.hasStray_congr hcontent).2 hstray
    exact .inr ⟨_, _, ofSignals_of_not_hasStray hstray, ofSignals_of_not_hasStray hstray',
      Content.node_same hcontent⟩

/-- An expanded feed whose count stands before it or after it. -/
theorem ofBody_reordered_orders : ∃ n n',
    Node.ofBody .json ("\x7b\"Orders@odata.count\":1," ++
      "\"Orders\":[\x7b\"ID\":1,\"Note\":null\x7d],\"@odata.id\":\"u\"\x7d") = .ok n ∧
    Node.ofBody .json ("\x7b\"@odata.id\":\"u\"," ++
      "\"Orders\":[\x7b\"Note\":null,\"ID\":1\x7d],\"Orders@odata.count\":1\x7d") = .ok n' ∧
    n.Same n' := by
  have horder : Json.Reordered (.object [("ID", .integer 1), ("Note", .null)])
      (.object [("Note", .null), ("ID", .integer 1)]) :=
    .object (List.reverse_perm _).symm rfl (.cons (.refl _) (.cons (.refl _) .nil))
  have h : Json.Reordered
      (.object [("Orders@odata.count", .integer 1),
        ("Orders", .array [.object [("ID", .integer 1), ("Note", .null)]]),
        ("@odata.id", .string "u")])
      (.object [("@odata.id", .string "u"),
        ("Orders", .array [.object [("Note", .null), ("ID", .integer 1)]]),
        ("Orders@odata.count", .integer 1)]) :=
    .object (List.reverse_perm _).symm rfl
      (.cons (.refl _) (.cons (.array (.cons horder .nil)) (.cons (.refl _) .nil)))
  rcases @ofBody_reordered ("\x7b\"Orders@odata.count\":1," ++
      "\"Orders\":[\x7b\"ID\":1,\"Note\":null\x7d],\"@odata.id\":\"u\"\x7d")
    ("\x7b\"@odata.id\":\"u\"," ++
      "\"Orders\":[\x7b\"Note\":null,\"ID\":1\x7d],\"Orders@odata.count\":1\x7d")
    _ _ (by cbv) (by cbv) h (by decide) with ⟨⟨err, herr⟩, -⟩ | ⟨n, n', hn, hn', hsame⟩
  · have hfalse : Except.isOk _ = false := congrArg Except.isOk herr
    exact absurd hfalse (by decide +kernel)
  · refine ⟨n, n', hn, hn', hsame (Part.forall_reads rfl ?_) (Part.forall_reads rfl ?_)⟩
    · exact Part.forall_reaches.2 ⟨by decide +kernel, List.forall_mem_singleton.2 <|
        Part.forall_reaches.2 ⟨by decide +kernel, List.forall_mem_singleton.2 <|
          Part.forall_reaches.2 ⟨by decide +kernel, List.forall_mem_nil _⟩⟩⟩
    · exact Part.forall_reaches.2 ⟨by decide +kernel, List.forall_mem_singleton.2 <|
        Part.forall_reaches.2 ⟨by decide +kernel, List.forall_mem_singleton.2 <|
          Part.forall_reaches.2 ⟨by decide +kernel, List.forall_mem_nil _⟩⟩⟩

/-- An object as the id of an entry is kept as its text, in which the order of its members shows. -/
theorem not_same_of_idObject : ¬ ∀ (body body' : String) (doc doc' : Json),
    Json.ofText? body = some doc → Json.ofText? body' = some doc' → doc.Reordered doc' →
    doc.DistinctNames → (∀ p, Reads doc p → p.denoted.Nodup) →
    ((∃ err, Node.ofBody .json body = .error err) ∧
        ∃ err, Node.ofBody .json body' = .error err) ∨
      ∃ n n', Node.ofBody .json body = .ok n ∧ Node.ofBody .json body' = .ok n' ∧ n.Same n' := by
  intro hall
  have hid : Json.Reordered (.object [("a", .integer 1), ("b", .integer 2)])
      (.object [("b", .integer 2), ("a", .integer 1)]) :=
    .object (List.reverse_perm _).symm rfl (.cons (.refl _) (.cons (.refl _) .nil))
  have h : Json.Reordered (.object [("@odata.id", .object [("a", .integer 1), ("b", .integer 2)])])
      (.object [("@odata.id", .object [("b", .integer 2), ("a", .integer 1)])]) :=
    .object (.refl _) rfl (.cons hid .nil)
  have hn : Node.ofBody .json "\x7b\"@odata.id\":\x7b\"a\":1,\"b\":2\x7d\x7d" =
      .ok (.entry ⟨[], ⟨⟨some "\x7b\"a\":1,\"b\":2\x7d", none, none, none, none, none, none, none,
        none⟩, []⟩⟩) := by
    cbv
  have hn' : Node.ofBody .json "\x7b\"@odata.id\":\x7b\"b\":2,\"a\":1\x7d\x7d" =
      .ok (.entry ⟨[], ⟨⟨some "\x7b\"b\":2,\"a\":1\x7d", none, none, none, none, none, none, none,
        none⟩, []⟩⟩) := by
    cbv
  rcases hall "\x7b\"@odata.id\":\x7b\"a\":1,\"b\":2\x7d\x7d"
    "\x7b\"@odata.id\":\x7b\"b\":2,\"a\":1\x7d\x7d" _ _ (by cbv) (by cbv) h (by decide)
    (Part.forall_reads rfl (Part.forall_reaches.2 ⟨by decide +kernel, List.forall_mem_nil _⟩)) with
    ⟨⟨err, herr⟩, -⟩ | ⟨n, n', hok, hok', hsame⟩
  · cases hn.symm.trans herr
  · obtain rfl := Except.ok.inj (hn.symm.trans hok)
    obtain rfl := Except.ok.inj (hn'.symm.trans hok')
    cases hsame with
    | entry hentry =>
      have hid := congrArg EntryFacts.id hentry.annotations.own_eq
      exact absurd hid (by decide)

end OfJson
end OData
