import Mathlib.Logic.Relation
import OData.Proofs.Response.Document
import OData.Response.OfJson

/-!
A JSON document as a tree of parts. An object is read as an entry or, with its `results`, as a feed,
and an array as a feed; the members of an entry and the items of a feed expand to further parts. A part
denotes a tree of the grammar of responses, whose events are the signals of the part up to an item that
is no object.
-/

namespace OData.OfJson

/-- What is read as an entry, by its members, or as a feed, by its items and the members that may
annotate it. -/
inductive Part
  | entry (members : Members)
  | feed (items : List Json) (notes : Members)

/-- The part that an expanded object is. -/
def Part.ofObject (members : Members) : Part :=
  match resultsFeed? members with
  | some (items, others) => .feed items others
  | none => .entry (movedLast "results" members)

/-- The part that the value of a property expands to. -/
def expansion? (annotated : List (List Char)) (name : String) : Json → Option Part
  | .object members =>
    if Fields.contains "__deferred" members then none else some (.ofObject members)
  | .array items =>
    if items.all Json.isObject && (!items.isEmpty || annotated.contains name.toList) then
      some (.feed items [])
    else none
  | _ => none

/-- The part that a member of an entry expands to. -/
def memberPart? (annotated : List (List Char)) (name : String) (v : Json) : Option Part :=
  match roleOf name with
  | .property => expansion? annotated name v
  | _ => none

namespace Part

def signals : Part → List Signal
  | entry members => entrySignals members
  | feed items notes => feedSignals items notes

/-- The parts right inside a part. -/
def children : Part → List Part
  | entry members =>
    members.filterMap fun (name, v) ↦ memberPart? (annotatedProperties members) name v
  | feed items _ =>
    items.filterMap fun
      | .object members => some (.entry members)
      | _ => none

def rank : Part → Nat
  | entry members => 3 * Json.membersDepth members + 2
  | feed items _ => 3 * Json.itemsDepth items

theorem rank_ofObject_lt (members : Members) :
    (ofObject members).rank < 3 * (Json.object members).depth := by
  rw [ofObject, Json.depth]
  split
  · rename_i items others h
    have hitems := Json.depth_le_membersDepth (mem_of_resultsFeed? h)
    simp only [Json.depth] at hitems
    simp only [rank]
    omega
  · have hmoved := Json.membersDepth_le fun m (hm : m ∈ movedLast "results" members) ↦
      mem_of_mem_movedLast hm
    simp only [rank]
    omega

end Part

/-- The members that expand: properties with an object that is not deferred, or with an array of
objects that is annotated where it is empty. -/
inductive Expands (annotated : List (List Char)) (name : String) : Json → Part → Prop
  | object {members : Members} (hrole : roleOf name = .property)
    (hdeferred : Fields.contains "__deferred" members = false) :
    Expands annotated name (.object members) (.ofObject members)
  | array {items : List Json} (hrole : roleOf name = .property)
    (hitems : (items.all Json.isObject &&
      (!items.isEmpty || annotated.contains name.toList)) = true) :
    Expands annotated name (.array items) (.feed items [])

theorem expands_of_memberPart? {annotated : List (List Char)} {name : String} {v : Json} {p : Part}
    (h : memberPart? annotated name v = some p) : Expands annotated name v p := by
  unfold memberPart? at h
  split at h
  · rename_i hrole
    unfold expansion? at h
    split at h
    · split at h
      · contradiction
      · rename_i hdeferred
        obtain rfl := Option.some.inj h
        exact .object hrole (eq_false_of_ne_true hdeferred)
    · split at h
      · rename_i hitems
        obtain rfl := Option.some.inj h
        exact .array hrole hitems
      · contradiction
    · contradiction
  · contradiction

theorem rank_lt_of_memberPart? {annotated : List (List Char)} {name : String} {v : Json} {p : Part}
    (h : memberPart? annotated name v = some p) : p.rank < 3 * v.depth := by
  cases expands_of_memberPart? h with
  | object => exact Part.rank_ofObject_lt _
  | array =>
    simp only [Part.rank, Json.depth]
    omega

theorem Part.rank_lt_of_mem_children {p child : Part} (h : child ∈ p.children) :
    child.rank < p.rank := by
  cases p with
  | entry members =>
    obtain ⟨⟨name, v⟩, hm, hpart⟩ := List.mem_filterMap.1 h
    have hrank := rank_lt_of_memberPart? hpart
    have hdepth := Json.depth_le_membersDepth hm
    simp only [rank] at *
    omega
  | feed items notes =>
    obtain ⟨item, hitem, hentry⟩ := List.mem_filterMap.1 h
    have hdepth := Json.depth_le_itemsDepth hitem
    split at hentry
    · obtain rfl := Option.some.inj hentry
      simp only [rank, Json.depth] at *
      omega
    · contradiction

/-- What holds of a part whenever it holds of the parts right inside it holds of every part. -/
theorem Part.induction {motive : Part → Prop}
    (h : ∀ p, (∀ child ∈ p.children, motive child) → motive p) (p : Part) : motive p :=
  h p fun child _hchild ↦ Part.induction h child
termination_by p.rank
decreasing_by exact Part.rank_lt_of_mem_children _hchild

/-- The items of a member that is no property: annotations. -/
def noteItems (name : String) (v : Json) : Role → List EntryItem
  | .metadata =>
    match v with
    | .object members =>
      (members.flatMap fun (name, v) ↦ metadataAnnotations name v).map .note
    | _ => []
  | .ownNote => (entryNote? (annotationName name.toList) v).toList.map .note
  | .noteOn property note =>
    (linkNote? (annotationName note) v).toList.map (.linkNote (String.ofList property))
  | .property => []

/-- The items of a member that does not expand. An object among the properties is deferred then. -/
def plainItems (name : String) (v : Json) : List EntryItem :=
  match roleOf name, v with
  | .property, .object _ => []
  | .property, v => [.field name (VerboseDate.ofField v)]
  | role, v => noteItems name v role

def feedNotes (notes : Members) : List FeedNote :=
  notes.filterMap fun (name, v) ↦ feedNote? (annotationName name.toList) v

mutual

/-- The items of an entry whose members are given. -/
def entryItems (members : Members) : List EntryItem :=
  members.attach.flatMap fun ⟨(name, v), _⟩ ↦ memberItems (annotatedProperties members) name v
termination_by 3 * Json.membersDepth members + 1
decreasing_by
  rename_i h
  have := Json.depth_le_membersDepth h
  simp only at this
  omega

def memberItems (annotated : List (List Char)) (name : String) (v : Json) : List EntryItem :=
  match _h : memberPart? annotated name v with
  | some p => [.link name (some p.tree)]
  | none => plainItems name v
termination_by 3 * v.depth
decreasing_by exact rank_lt_of_memberPart? _h

/-- The tree that a part denotes. Items of a feed that are no objects do not count. -/
def Part.tree : Part → NodeTree
  | .entry members => .entry (entryItems members)
  | .feed items notes =>
    .feed ((feedNotes notes).map .note ++ items.attach.flatMap fun ⟨item, _⟩ ↦
      match item with
      | .object members => [.entry (entryItems members)]
      | _ => [])
termination_by p => p.rank
decreasing_by
  · simp only [Part.rank]
    omega
  · rename_i h
    have := Json.depth_le_itemsDepth h
    simp only [Json.depth, Part.rank] at *
    omega

end

/-- The entry that an item of a feed denotes. -/
def feedItems : Json → List FeedItem
  | .object members => [.entry (entryItems members)]
  | _ => []

theorem flatMap_attach {α β : Type} {l : List α} {g : {a // a ∈ l} → List β} {f : α → List β}
    (h : ∀ a ha, g ⟨a, ha⟩ = f a) : l.attach.flatMap g = l.flatMap f := by
  rw [List.flatMap_subtype h, List.unattach_attach]

theorem entryItems_eq (members : Members) : entryItems members =
    members.flatMap fun (name, v) ↦ memberItems (annotatedProperties members) name v := by
  rw [entryItems]
  exact flatMap_attach fun _ _ ↦ rfl

theorem memberItems_of_some {annotated : List (List Char)} {name : String} {v : Json} {p : Part}
    (h : memberPart? annotated name v = some p) :
    memberItems annotated name v = [.link name (some p.tree)] := by
  rw [memberItems]
  split
  · rename_i q hq
    rw [h] at hq
    obtain rfl := Option.some.inj hq
    rfl
  · rename_i hnone
    rw [h] at hnone
    contradiction

theorem memberItems_of_none {annotated : List (List Char)} {name : String} {v : Json}
    (h : memberPart? annotated name v = none) :
    memberItems annotated name v = plainItems name v := by
  rw [memberItems]
  split
  · rename_i q hq
    rw [h] at hq
    contradiction
  · rfl

namespace Part

theorem tree_entry (members : Members) : (entry members).tree = .entry (entryItems members) := by
  rw [tree]

theorem tree_feed (items : List Json) (notes : Members) : (feed items notes).tree =
    .feed ((feedNotes notes).map .note ++ items.flatMap feedItems) := by
  rw [tree, flatMap_attach (f := feedItems)]
  intro item _
  cases item <;> rfl

end Part

/-- The signals of an item of a feed. -/
def itemSignals : Json → List Signal
  | .object members => entrySignals members
  | item => [.stop (.malformed (.itemNotObject item))]

theorem entrySignals_eq (members : Members) : entrySignals members =
    .event .startEntry ::
      members.flatMap (fun (name, v) ↦ memberSignals (annotatedProperties members) name v) ++
      [.event .endEntry] := by
  rw [entrySignals, flatMap_attach fun _ _ ↦ rfl]

theorem feedSignals_eq (items : List Json) (notes : Members) : feedSignals items notes =
    .event .startFeed :: (feedNotes notes).map (fun a ↦ .event (.feedNote a)) ++
      items.flatMap itemSignals ++ [.event .endFeed] := by
  rw [feedSignals]
  have hnotes : feedAnnotations notes = (feedNotes notes).map fun a ↦ .event (.feedNote a) := by
    rw [feedAnnotations, feedNotes, List.map_filterMap]
  rw [hnotes, flatMap_attach (f := itemSignals)]
  intro item _
  cases item <;> rfl

theorem memberSignals_of_some {annotated : List (List Char)} {name : String} {v : Json} {p : Part}
    (h : memberPart? annotated name v = some p) :
    memberSignals annotated name v =
      .event (.startLink name) :: p.signals ++ [.event .endLink] := by
  cases expands_of_memberPart? h with
  | object hrole hdeferred =>
    rw [memberSignals, hrole]
    simp only [hdeferred, Bool.false_eq_true, if_false, Part.ofObject]
    split
    · rename_i hfeed
      rw [hfeed]
      rfl
    · rename_i hentry
      rw [hentry]
      rfl
  | array hrole hitems =>
    rw [memberSignals, hrole]
    simp only [hitems, if_true, Part.signals]

theorem annotating_eq (notes : List EntryNote) :
    annotating notes = ((notes.map .note).flatMap EntryItem.events).map .event := by
  rw [List.flatMap_map]
  simp only [EntryItem.events]
  rw [← List.map_eq_flatMap, List.map_map]
  rfl

theorem annotationSignals_eq (name : String) (v : Json) (role : Role) :
    annotationSignals name v role =
      ((noteItems name v role).flatMap EntryItem.events).map .event := by
  cases role with
  | metadata =>
    cases v with
    | object members => exact annotating_eq _
    | _ => rfl
  | ownNote => exact annotating_eq _
  | noteOn property note =>
    simp only [annotationSignals, noteItems]
    cases linkNote? (annotationName note) v <;> rfl
  | property => rfl

theorem memberSignals_of_none {annotated : List (List Char)} {name : String} {v : Json}
    (h : memberPart? annotated name v = none) :
    memberSignals annotated name v =
      ((plainItems name v).flatMap EntryItem.events).map .event := by
  unfold memberPart? at h
  unfold memberSignals plainItems
  split at h
  · rename_i hrole
    rw [hrole]
    unfold expansion? at h
    cases v with
    | object members =>
      simp only at h
      split at h
      · rename_i hdeferred
        simp only [hdeferred, if_true]
        rfl
      · contradiction
    | array items =>
      simp only at h
      split at h
      · contradiction
      · rename_i hitems
        simp only [hitems, Bool.false_eq_true, if_false]
        rfl
    | _ => rfl
  · rename_i hrole
    cases hrole' : roleOf name with
    | property => contradiction
    | _ => exact annotationSignals_eq name v _

/-- What a document is read as. -/
inductive Content
  | part (p : Part)
  | value (v : Json)

def Content.signals : Content → List Signal
  | part p => p.signals
  | value v => valueSignals v

def Content.document : Content → Document
  | part p => .tree p.tree
  | value v => .value (VerboseDate.ofField v)

def rootContent (members : Members) : Content :=
  match Fields.take? "value" members with
  | some (v, others) =>
    if others.all (fun (name, _) ↦ isMarked name) then
      match v with
      | .array items =>
        if items.all Json.isObject then .part (.feed items others) else .value v
      | _ => .value v
    else .part (.entry members)
  | none => .part (.entry members)

def verboseObjectContent (members : Members) : Content :=
  match members with
  | [(name, v)] =>
    if name ≠ "__metadata" ∧ !v.isObject ∧ !v.isArray then .value v else .part (.entry members)
  | _ => .part (.entry members)

def verboseContent : Json → Content
  | .array items => .part (.feed items [])
  | .object members =>
    match resultsFeed? members with
    | some (items, others) => .part (.feed items others)
    | none => verboseObjectContent (movedLast "results" members)
  | v => .value v

def content : Json → Content
  | .object members =>
    match Fields.take? "d" members with
    | some (v, []) => verboseContent v
    | _ => rootContent (movedLast "d" members)
  | .array items => .part (.feed items [])
  | v => .value v

theorem rootSignals_eq (members : Members) :
    rootSignals members = (rootContent members).signals := by
  unfold rootSignals rootContent
  cases Fields.take? "value" members with
  | none => rfl
  | some found =>
    obtain ⟨v, others⟩ := found
    dsimp only
    split
    · cases v with
      | array items =>
        dsimp only
        split <;> rfl
      | _ => rfl
    · rfl

theorem verboseObjectSignals_eq (members : Members) :
    verboseObjectSignals members = (verboseObjectContent members).signals := by
  match members with
  | [] => rfl
  | [(name, v)] =>
    simp only [verboseObjectSignals, verboseObjectContent]
    split <;> rfl
  | _ :: _ :: _ => rfl

theorem verboseSignals_eq (v : Json) : verboseSignals v = (verboseContent v).signals := by
  cases v with
  | object members =>
    simp only [verboseSignals, verboseContent]
    cases resultsFeed? members with
    | some feed => rfl
    | none => exact verboseObjectSignals_eq _
  | _ => rfl

theorem signals_eq (doc : Json) : signals doc = (content doc).signals := by
  cases doc with
  | object members =>
    simp only [signals, content]
    rcases Fields.take? "d" members with _ | ⟨v, _ | ⟨m, others⟩⟩
    · exact rootSignals_eq _
    · exact verboseSignals_eq v
    · exact rootSignals_eq _
  | _ => rfl

end OData.OfJson
