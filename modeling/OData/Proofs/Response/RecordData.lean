import Mathlib
import OData.Proofs.Response.MemberOrder

/-!
The records that are read from JSON. A record has a field for each property of its object that comes to
something, in the order in which the members are taken; the same reading can be had with the members as
they were sent. The reader moves a member where it looks for `d` at the root, and for `results` in an object
that expands, and puts back what it found.
-/

namespace OData

/-- The values of a node: the record of an entry, or the records of a feed. -/
def Node.data : Node → Value
  | .entry e => .record e.data
  | .feed f => .collection (f.entries.map fun e ↦ .record e.data)
  | .value v => v

/-- A record without fields, and a collection without items, are no values. -/
def Value.unlessEmpty : Value → Option Value
  | .record [] | .collection [] => none
  | v => some v

theorem linkValue?_entry (e : Entry) : linkValue? (some (.entry e)) = (Node.entry e).data.unlessEmpty := by
  rw [linkValue?, Node.data]
  cases e.data <;> rfl

theorem linkValue?_feed (f : Feed) : linkValue? (some (.feed f)) = (Node.feed f).data.unlessEmpty := by
  rw [linkValue?, Node.data]
  cases f.entries <;> rfl

namespace OfJson

/-- The orders of the members of a document: as they were sent, or as the reader takes them. -/
inductive Arrangement
  | sent
  | taken

/-- The part that an object is read as, an entry with its members in the order of an arrangement. -/
def Part.arranged : Arrangement → Json → Part → Part
  | .sent, .object members, .entry _ => .entry members
  | _, _, p => p

/-- The value of a member that does not expand. An object among the properties is deferred then. -/
def plainData? (name : String) (v : Json) : Option Value :=
  match roleOf name, v with
  | .property, .object _ => none
  | .property, v => some (VerboseDate.ofField v)
  | _, _ => none

theorem Part.rank_arranged_lt (a : Arrangement) {annotated : List (List Char)} {name : String} {v : Json}
    {p : Part} (h : memberPart? annotated name v = some p) : (p.arranged a v).rank < 3 * v.depth := by
  unfold arranged
  split
  · simp only [rank, Json.depth]
    omega
  · exact rank_lt_of_memberPart? h

section

variable (a : Arrangement)

mutual

/-- The fields of an entry: the values of its members in their order. -/
def entryData (members : Members) : Record :=
  members.attach.filterMap fun ⟨(name, v), _⟩ ↦
    (memberData? (annotatedProperties members) name v).map (Prod.mk name)
termination_by 3 * Json.membersDepth members + 1
decreasing_by
  rename_i h
  have := Json.depth_le_membersDepth h
  simp only at this
  omega

def memberData? (annotated : List (List Char)) (name : String) (v : Json) : Option Value :=
  match _h : memberPart? annotated name v with
  | some p => (partData (p.arranged a v)).unlessEmpty
  | none => plainData? name v
termination_by 3 * v.depth
decreasing_by exact Part.rank_arranged_lt a _h

/-- The record of an entry, and the records of a feed. -/
def partData : Part → Value
  | .entry members => .record (entryData members)
  | .feed items _ =>
    .collection (items.attach.filterMap fun ⟨item, _⟩ ↦
      match item with
      | .object members => some (.record (entryData members))
      | _ => none)
termination_by p => p.rank
decreasing_by
  · simp only [Part.rank]
    omega
  · rename_i h
    have := Json.depth_le_itemsDepth h
    simp only [Json.depth, Part.rank] at *
    omega

end

theorem filterMap_attach {α β : Type} {l : List α} {g : {a // a ∈ l} → Option β} {f : α → Option β}
    (h : ∀ a ha, g ⟨a, ha⟩ = f a) : l.attach.filterMap g = l.filterMap f := by
  rw [List.filterMap_subtype h, List.unattach_attach]

theorem entryData_eq (members : Members) : entryData a members = members.filterMap fun (name, v) ↦
    (memberData? a (annotatedProperties members) name v).map (Prod.mk name) := by
  rw [entryData]
  exact filterMap_attach fun _ _ ↦ rfl

/-- The record of an item of a feed. -/
def itemData? : Json → Option Value
  | .object members => some (.record (entryData a members))
  | _ => none

theorem partData_entry (members : Members) :
    partData a (.entry members) = .record (entryData a members) := by
  rw [partData]

theorem partData_feed (items : List Json) (notes : Members) :
    partData a (.feed items notes) = .collection (items.filterMap (itemData? a)) := by
  rw [partData, filterMap_attach (f := itemData? a)]
  intro item _
  cases item <;> rfl

section

variable {annotated : List (List Char)} {name : String} {v : Json}

theorem memberData?_of_some {p : Part} (h : memberPart? annotated name v = some p) :
    memberData? a annotated name v = (partData a (p.arranged a v)).unlessEmpty := by
  rw [memberData?]
  split
  · rename_i q hq
    rw [h] at hq
    obtain rfl := Option.some.inj hq
    rfl
  · rename_i hnone
    rw [h] at hnone
    contradiction

theorem memberData?_of_none (h : memberPart? annotated name v = none) :
    memberData? a annotated name v = plainData? name v := by
  rw [memberData?]
  split
  · rename_i q hq
    rw [h] at hq
    contradiction
  · rfl

end

/-- The fields of an entry are in the order of its members. -/
theorem names_entryData (members : Members) :
    ((entryData a members).map Prod.fst).Sublist (members.map Prod.fst) := by
  rw [entryData_eq]
  generalize annotatedProperties members = annotated
  induction members with
  | nil => exact .refl _
  | cons m rest ih =>
    obtain ⟨name, v⟩ := m
    rw [List.filterMap_cons, List.map_cons]
    dsimp only
    cases memberData? a annotated name v with
    | none => exact ih.cons _
    | some w => exact ih.cons_cons _

/-- Where no member expands, the fields are the values of the members. -/
theorem entryData_of_plain {members : Members} (h : members.all fun m ↦
      (memberPart? (annotatedProperties members) m.1 m.2).isNone) :
    entryData a members = members.filterMap fun (name, v) ↦ (plainData? name v).map (Prod.mk name) := by
  rw [entryData_eq]
  refine List.filterMap_congr fun m hm ↦ ?_
  obtain ⟨name, v⟩ := m
  dsimp only
  rw [memberData?_of_none a (Option.isNone_iff_eq_none.1 (List.all_eq_true.1 h _ hm))]

/-- The object that the entry of a document has its members from. -/
def payload : Json → Json
  | .object members =>
    match Fields.take? "d" members with
    | some (v, []) => v
    | _ => .object members
  | doc => doc

/-- What a document comes to with its members in the order of an arrangement. -/
def documentData (doc : Json) : Value :=
  match content doc with
  | .part p => partData a (p.arranged a (payload doc))
  | .value v => VerboseDate.ofField v

end

/-! ### What the reader makes of a document -/

/-- What an item assigns in its entry. -/
def EntryItem.assignments (item : EntryItem) : List (String × Value) :=
  (item.effects id).filterMap Effect.assignment?

theorem assignments_noteItems (name : String) (v : Json) (role : Role) :
    (noteItems name v role).flatMap EntryItem.assignments = [] := by
  refine List.flatMap_eq_nil_iff.2 fun item hitem ↦ ?_
  rcases eq_note_of_mem_noteItems hitem with ⟨a, rfl⟩ | ⟨property, a, rfl⟩ <;> rfl

theorem assignments_plainItems (name : String) (v : Json) :
    (plainItems name v).flatMap EntryItem.assignments =
      ((plainData? name v).map (Prod.mk name)).toList := by
  unfold plainItems plainData?
  cases hrole : roleOf name with
  | property => cases v <;> rfl
  | _ => exact assignments_noteItems name v _

theorem assignments_link (name : String) (t : NodeTree) :
    EntryItem.assignments (.link name (some t)) =
      ((t.node id).data.unlessEmpty.map (Prod.mk name)).toList := by
  have hvalue : linkValue? (some (t.node id)) = (t.node id).data.unlessEmpty := by
    cases t with
    | entry items => exact linkValue?_entry _
    | feed items => exact linkValue?_feed _
  have hnote (note : Bool) (effect : LinkMark) :
      (if note then [] else [Effect.mark name effect]).filterMap Effect.assignment? = [] := by
    cases note <;> rfl
  rw [EntryItem.assignments, EntryItem.effects, NodeTree.node?, linkEffects, List.filterMap_append,
    hnote, List.append_nil, hvalue]
  cases (t.node id).data.unlessEmpty <;> rfl

namespace Part

theorem node_data {p : Part} (hd : p.DistinctNames) : (p.tree.node id).data = partData .taken p := by
  induction p using Part.induction with
  | h p ih =>
  have hchild : ∀ child ∈ p.children, (child.tree.node id).data = partData .taken child :=
    fun child hmem ↦ ih child hmem (distinctNames_of_mem_children hmem hd)
  cases p with
  | entry members =>
    obtain ⟨hnames, -⟩ := Json.distinctNames_object.1 hd
    have hmember : ∀ m ∈ members,
        (memberItems (annotatedProperties members) m.1 m.2).flatMap EntryItem.assignments =
          ((memberData? .taken (annotatedProperties members) m.1 m.2).map (Prod.mk m.1)).toList := by
      intro m hm
      cases hpart : memberPart? (annotatedProperties members) m.1 m.2 with
      | none => rw [memberItems_of_none hpart, memberData?_of_none _ hpart, assignments_plainItems]
      | some child =>
        rw [memberItems_of_some hpart, memberData?_of_some _ hpart, List.flatMap_singleton,
          assignments_link, hchild child (mem_children_entry.2 ⟨m, hm, hpart⟩)]
        rfl
    have hassignments : (entryItems members).flatMap EntryItem.assignments =
        entryData .taken members := by
      rw [entryItems_eq, List.flatMap_assoc, entryData_eq, List.flatMap_congr hmember,
        ← List.filterMap_eq_flatMap_toList]
    have hfields : Effect.fields ((entryItems members).flatMap (EntryItem.effects id)) =
        entryData .taken members := by
      rw [Effect.fields, List.filterMap_flatMap]
      refine (congrArg Fields.ofList hassignments).trans (Fields.ofList_eq_self ?_)
      exact hnames.sublist (names_entryData .taken members)
    rw [tree_entry, NodeTree.node, EntryItem.allEffects_eq, partData_entry]
    exact congrArg Value.record hfields
  | feed items notes =>
    have hitem : ∀ item ∈ items, ((feedItems item).flatMap (FeedItem.entries id)).map
        (fun e ↦ Value.record e.data) = (itemData? .taken item).toList := by
      intro item hmem
      cases item with
      | object members =>
        have hentry := hchild _ (mem_children_feed.2 ⟨_, hmem, members, rfl, rfl⟩)
        rw [tree_entry, NodeTree.node, partData_entry] at hentry
        exact congrArg (fun v ↦ [v]) hentry
      | _ => rfl
    rw [node_feed, partData_feed, Node.data, List.filterMap_eq_flatMap_toList, List.flatMap_assoc,
      List.map_flatMap, List.flatMap_congr hitem]

end Part

theorem documentData_taken {doc : Json} (hd : doc.DistinctNames) :
    ((content doc).document.node id).data = documentData .taken doc := by
  unfold documentData
  cases hcontent : content doc with
  | value v => rfl
  | part p =>
    have hreordered := content_reordered (.refl doc) hd
    rw [hcontent] at hreordered
    cases hreordered with
    | part _ hp => exact Part.node_data hp

end OfJson
end OData
