import OData.Proofs.Number.Integer
import OData.Proofs.Response.EntryMembers

/-!
Links among the members of an entry in JSON: an object with an entry, an object with a feed under
`results`, and an array of entries with annotations beside it.
-/

namespace OData

namespace Source

open OfJson

variable {annotated : List (List Char)} {name : String} {members : Members} {v : Json}

theorem movedLast_of_not_mem (h : name ∉ members.map Prod.fst) : movedLast name members = members := by
  rw [movedLast, Fields.take?_eq_none.2 h]

theorem resultsFeed?_eq_none (h : "results" ∉ members.map Prod.fst) : resultsFeed? members = none := by
  rw [resultsFeed?, Fields.take?_eq_none.2 h]

theorem resultsFeed?_append (h : "results" ∉ members.map Prod.fst) (items : List Json) :
    resultsFeed? (members ++ [("results", .array items)]) = some (items, members) := by
  rw [resultsFeed?, Fields.take?_append_of_not_mem h]

theorem contains_eq_false (h : name ∉ members.map Prod.fst) : Fields.contains name members = false := by
  rw [Fields.contains, Fields.find?_eq_none.2 h]
  rfl

/-- A member that expands to a part settles a link to what the part denotes. -/
theorem linkMembers_single {extent : Extent Entry} {p : Part}
    (h : memberPart? annotated name v = some p) (hp : Denotes p extent.node) :
    LinkMembers annotated (name, extent) [(name, v)] := by
  constructor
  · intro m hm q hq
    obtain rfl := List.mem_singleton.1 hm
    obtain rfl := Option.some.inj (h.symm.trans hq)
    exact hp.clean
  · rw [List.flatMap_singleton, memberItems_of_some h, List.flatMap_singleton, EntryItem.effects,
      NodeTree.node?, hp.node]
    exact settles_linkEffects name extent

theorem memberPart?_object (hname : IsFieldName name) (hdeferred : "__deferred" ∉ members.map Prod.fst) :
    memberPart? annotated name (.object members) = some (.ofObject members) := by
  rw [memberPart?, hname.roleOf]
  simp only [expansion?, contains_eq_false hdeferred, Bool.false_eq_true, if_false]

theorem ofObject_entry (hresults : "results" ∉ members.map Prod.fst) :
    Part.ofObject members = .entry members := by
  rw [Part.ofObject, resultsFeed?_eq_none hresults, movedLast_of_not_mem hresults]

theorem memberPart?_entry (hname : IsFieldName name) (hdeferred : "__deferred" ∉ members.map Prod.fst)
    (hresults : "results" ∉ members.map Prod.fst) :
    memberPart? annotated name (.object members) = some (.entry members) := by
  rw [memberPart?_object hname hdeferred, ofObject_entry hresults]

theorem names_verboseMembers (p : Paging) :
    ∀ key ∈ p.verboseMembers.map Prod.fst, key = "__count" ∨ key = "__next" := by
  obtain ⟨count, next⟩ := p
  cases count <;> cases next <;> simp [Paging.verboseMembers]

theorem not_mem_verboseMembers (p : Paging) : "results" ∉ p.verboseMembers.map Prod.fst := by
  intro hmem
  rcases names_verboseMembers p _ hmem with h | h <;> revert h <;> decide

theorem countOf_decimal (n : UInt64) :
    countOf (.string (String.ofList (Text.decimal n.toNat))) = some n.toNat := by
  have hread : Number.readNatural (UInt64.size - 1) (Text.decimal n.toNat) = .ok n.toNat :=
    Number.readNatural_decimal (Nat.le_sub_one_of_lt n.toNat_lt_size)
  rw [countOf, String.toList_ofList, hread]
  rfl

theorem countOf_integer (n : UInt64) : countOf (.integer n.toNat) = some n.toNat := by
  rw [countOf, if_pos (Int.natCast_nonneg _), Int.toNat_natCast]

theorem feedNotes_append (notes more : Members) :
    feedNotes (notes ++ more) = feedNotes notes ++ feedNotes more :=
  List.filterMap_append

theorem feedNotes_map {α : Type} {f : α → String × Json} {g : α → FeedNote}
    (h : ∀ a, feedNote? (annotationName (f a).1.toList) (f a).2 = some (g a)) (l : List α) :
    feedNotes (l.map f) = l.map g := by
  rw [feedNotes, List.filterMap_map, List.map_eq_flatMap, List.filterMap_eq_flatMap_toList]
  refine List.flatMap_congr fun a _ ↦ ?_
  change (feedNote? (annotationName (f a).1.toList) (f a).2).toList = [g a]
  rw [h]
  rfl

theorem feedNotes_verboseMembers (p : Paging) : feedNotes p.verboseMembers = p.notes := by
  have hcount : ∀ v, feedNote? (annotationName "__count".toList) v = some (.count (countOf v)) := by
    intro v
    cbv
  have hnext : ∀ v, feedNote? (annotationName "__next".toList) v = some (.nextLink (textOf v)) := by
    intro v
    cbv
  rw [Paging.verboseMembers, Paging.notes, feedNotes_append]
  congr 1
  · refine feedNotes_map (fun n ↦ ?_) _
    rw [hcount, countOf_decimal]
  · refine feedNotes_map (fun address ↦ ?_) _
    rw [hnext]
    rfl

/-- An object with the entries of a feed under `results`. -/
theorem linkMembers_feed (hname : IsFieldName name) (paging : Paging) {items : List Item}
    {members : Item → Members} (h : ∀ item ∈ items, Denotes (.entry (members item)) (.entry item.entry)) :
    LinkMembers annotated (name, (Extent.feed paging items).map Item.entry)
      [(name, verboseExtent (.feed paging (items.map members)))] := by
  have hdeferred : "__deferred" ∉ (paging.verboseMembers ++
      [("results", Json.array ((items.map members).map .object))]).map Prod.fst := by
    rw [List.map_append, List.mem_append]
    rintro (hmem | hmem)
    · rcases names_verboseMembers paging _ hmem with h | h <;> revert h <;> decide
    · revert hmem
      simp
  refine linkMembers_single (memberPart?_object hname hdeferred) ?_
  have hfeed := denotes_feed h paging.verboseMembers
  rw [feedNotes_verboseMembers, Paging.foldl_notes] at hfeed
  rw [Part.ofObject, resultsFeed?_append (not_mem_verboseMembers paging)]
  exact hfeed

/-- The note that a member beside a link makes of it. -/
theorem memberItems_beside (hname : IsFieldName name) {full : String} {note : List Char}
    (hfull : full.toList = name.toList ++ '@' :: note) (v : Json) :
    memberPart? annotated full v = none ∧ memberItems annotated full v =
      (linkNote? (annotationName note) v).toList.map (.linkNote name) := by
  have hrole := hname.roleOf_at hfull
  have hproperty : roleOf full ≠ .property := by
    rw [hrole]
    exact nofun
  rw [memberItems_of_roleOf hproperty, hrole, noteItems, String.ofList_toList]
  exact ⟨memberPart?_of_roleOf hproperty, rfl⟩

theorem toList_beside (name mark : String) :
    (name ++ "@odata." ++ mark).toList = name.toList ++ '@' :: ("odata.".toList ++ mark.toList) := by
  rw [String.toList_append, String.toList_append, List.append_assoc]
  rfl

theorem memberItems_lightMembers (hname : IsFieldName name) (p : Paging) :
    (∀ m ∈ p.lightMembers (name ++ "@odata."), memberPart? annotated m.1 m.2 = none) ∧
      ((p.lightMembers (name ++ "@odata.")).flatMap fun m ↦ memberItems annotated m.1 m.2) =
        p.notes.map (.linkNote name) := by
  have hcount : ∀ v, linkNote? (annotationName ("odata.".toList ++ "count".toList)) v =
      some (.count (countOf v)) := by
    intro v
    cbv
  have hnext : ∀ v, linkNote? (annotationName ("odata.".toList ++ "nextLink".toList)) v =
      some (.nextLink (textOf v)) := by
    intro v
    cbv
  have hmember : ∀ mark v, memberPart? annotated (name ++ "@odata." ++ mark) v = none ∧
      memberItems annotated (name ++ "@odata." ++ mark) v =
        (linkNote? (annotationName ("odata.".toList ++ mark.toList)) v).toList.map
          (.linkNote name) :=
    fun mark v ↦ memberItems_beside hname (toList_beside name mark) v
  constructor
  · intro m hm
    rcases List.mem_append.1 hm with hm | hm
    · obtain ⟨n, -, rfl⟩ := List.mem_map.1 hm
      exact (hmember _ _).1
    · obtain ⟨address, -, rfl⟩ := List.mem_map.1 hm
      exact (hmember _ _).1
  · rw [Paging.lightMembers, Paging.notes, List.flatMap_append, List.map_append, List.flatMap_map,
      List.flatMap_map, List.map_map, List.map_map, List.map_eq_flatMap, List.map_eq_flatMap]
    congr 1
    · refine List.flatMap_congr fun n _ ↦ ?_
      rw [(hmember _ _).2, hcount, countOf_integer]
      rfl
    · refine List.flatMap_congr fun address _ ↦ ?_
      rw [(hmember _ _).2, hnext]
      rfl

theorem memberItems_lightNotes (hname : IsFieldName name) (paging : Paging) (entries : List Members) :
    (∀ m ∈ lightNotes name paging entries, memberPart? annotated m.1 m.2 = none) ∧
      ((lightNotes name paging entries).flatMap fun m ↦ memberItems annotated m.1 m.2) =
        paging.notes.map (.linkNote name) := by
  unfold lightNotes
  split
  · rename_i hempty
    obtain ⟨count, next⟩ := paging
    have haddress : ∀ v, linkNote? (annotationName "odata.navigationLink".toList) v = none := by
      intro v
      cbv
    have hfull : (name ++ "@odata.navigationLink").toList =
        name.toList ++ '@' :: "odata.navigationLink".toList :=
      String.toList_append
    obtain ⟨hpart, hitems⟩ := @memberItems_beside annotated _ hname _ _ hfull (.string name)
    rw [List.forall_mem_singleton, List.flatMap_singleton]
    refine ⟨hpart, ?_⟩
    rw [hitems, haddress]
    simp only [Bool.and_eq_true, Option.isNone_iff_eq_none] at hempty
    rw [hempty.1.2, hempty.2]
    rfl
  · exact memberItems_lightMembers hname paging

theorem memberPart?_array (hname : IsFieldName name) {entries : List Members}
    (hannotated : entries = [] → name.toList ∈ annotated) :
    memberPart? annotated name (.array (entries.map .object)) =
      some (.feed (entries.map .object) []) := by
  have hobjects : (entries.map Json.object).all Json.isObject := by
    simp [Json.isObject]
  have hexpands : (!(entries.map Json.object).isEmpty || annotated.contains name.toList) = true := by
    cases entries with
    | nil => simpa using hannotated rfl
    | cons entry rest => rfl
  rw [memberPart?, hname.roleOf]
  simp only [expansion?, hobjects, hexpands, Bool.and_true, if_true]

/-- Notes beside an array of entries, which is a link even where it is empty. -/
theorem linkMembers_lightFeed (hname : IsFieldName name) (paging : Paging) {items : List Item}
    {members : Item → Members} (h : ∀ item ∈ items, Denotes (.entry (members item)) (.entry item.entry))
    (hannotated : items.map members = [] → name.toList ∈ annotated) :
    LinkMembers annotated (name, (Extent.feed paging items).map Item.entry)
      (lightLink (name, .feed paging (items.map members))) := by
  obtain ⟨hclean, hnotes⟩ := @memberItems_lightNotes annotated _ hname paging (items.map members)
  have hpart := memberPart?_array hname hannotated
  have hfeed := denotes_feed h []
  constructor
  · intro m hm p hp
    rcases List.mem_append.1 hm with hm | hm
    · rw [hclean m hm] at hp
      contradiction
    · obtain rfl := List.mem_singleton.1 hm
      obtain rfl := Option.some.inj (hpart.symm.trans hp)
      exact hfeed.clean
  · have hsettles := settles_besideNotes name paging items
    rw [lightLink, List.flatMap_append, hnotes, List.flatMap_singleton, memberItems_of_some hpart,
      List.flatMap_append, List.flatMap_singleton, EntryItem.effects, NodeTree.node?, hfeed.node,
      List.flatMap_map]
    rw [List.map_eq_flatMap] at hsettles
    exact hsettles

end Source
end OData
