import OData.Proofs.Response.LinkMembers

/-!
Entries in light JSON. Whatever depth an entry has, its members denote it, provided that no link leads
to an entry with a `__deferred`.
-/

namespace OData
namespace Source

open OfJson

theorem not_isFieldName_results : ¬ IsFieldName "results" := fun h ↦ h.notReserved (by decide)

theorem not_isFieldName_value : ¬ IsFieldName "value" := fun h ↦ h.notReserved (by decide)

/-! ### Names of members -/

theorem names_lightMembers (mark : String) (p : Paging) :
    ∀ m ∈ p.lightMembers mark, ∃ note, m.1 = mark ++ note := by
  intro m hm
  rcases List.mem_append.1 hm with hm | hm
  · obtain ⟨n, -, rfl⟩ := List.mem_map.1 hm
    exact ⟨_, rfl⟩
  · obtain ⟨address, -, rfl⟩ := List.mem_map.1 hm
    exact ⟨_, rfl⟩

theorem names_lightNotes (name : String) (paging : Paging) (entries : List Members) :
    ∀ m ∈ lightNotes name paging entries, ∃ note, m.1 = name ++ "@odata." ++ note := by
  intro m hm
  unfold lightNotes at hm
  split at hm
  · obtain rfl := List.mem_singleton.1 hm
    have hmark : "@odata.navigationLink" = "@odata." ++ "navigationLink" := by decide
    exact ⟨"navigationLink", by rw [hmark, String.append_assoc]⟩
  · exact names_lightMembers _ paging m hm

theorem names_lightLink (link : String × Extent Members) :
    ∀ m ∈ lightLink link, m.1 = link.1 ∨ '@' ∈ m.1.toList := by
  intro m hm
  obtain ⟨name, members | ⟨paging, entries⟩⟩ := link
  · obtain rfl := List.mem_singleton.1 hm
    exact .inl rfl
  · rcases List.mem_append.1 hm with hm | hm
    · obtain ⟨note, hnote⟩ := names_lightNotes name paging entries m hm
      rw [hnote, toList_beside]
      exact .inr (List.mem_append_right _ (List.mem_cons_self ..))
    · obtain rfl := List.mem_singleton.1 hm
      exact .inl rfl

theorem names_lightOwn {ε : Type} (s : Shape ε) : ∀ m ∈ lightOwn s, '@' ∈ m.1.toList := by
  obtain ⟨id, _ | etag, links, fields⟩ := s
  all_goals
    simp only [lightOwn, Option.toList_none, Option.toList_some, List.map_nil, List.map_cons,
      List.forall_mem_cons]
    simp

theorem names_fieldMembers {ε : Type} (s : Shape ε) : s.fieldMembers.map Prod.fst = s.fields.map Prod.fst := by
  rw [Shape.fieldMembers, List.map_map]
  rfl

/-- Names without a mark are those of links and fields. -/
theorem not_mem_lightEntry {s : Shape Members} {name : String} (h : name ∉ s.names)
    (hmark : '@' ∉ name.toList) : name ∉ (lightEntry s).map Prod.fst := by
  intro hmem
  rw [lightEntry, List.map_append, List.map_append, names_fieldMembers, List.mem_append,
    List.mem_append] at hmem
  rw [Shape.names, List.mem_append, not_or] at h
  rcases hmem with (hmem | hmem) | hmem
  · obtain ⟨m, hm, rfl⟩ := List.mem_map.1 hmem
    exact hmark (names_lightOwn s m hm)
  · obtain ⟨m, hm, rfl⟩ := List.mem_map.1 hmem
    obtain ⟨link, hlink, hm⟩ := List.mem_flatMap.1 hm
    rcases names_lightLink link m hm with heq | hat
    · exact h.1 (List.mem_map.2 ⟨link, hlink, heq.symm⟩)
    · exact hmark hat
  · exact h.2 hmem

/-! ### What the members denote -/

theorem mem_annotatedProperties_beside {name : String} (hname : IsFieldName name) {members : Members}
    {m : String × Json} (hm : m ∈ members) {note : String} (hbeside : m.1 = name ++ "@odata." ++ note) :
    name.toList ∈ annotatedProperties members := by
  refine List.mem_filterMap.2 ⟨m, hm, ?_⟩
  obtain ⟨c, cs, hcs, -⟩ := Xml.exists_cons_of_isName hname.isName
  obtain ⟨full, v⟩ := m
  dsimp only at hbeside ⊢
  rw [hbeside, toList_beside, Text.cutWhere?_append hname.ne_at (by decide), hcs]

/-- An array without entries has a note beside it. -/
theorem exists_lightNotes (name : String) (paging : Paging) : ∃ m, m ∈ lightNotes name paging [] := by
  obtain ⟨_ | count, _ | next⟩ := paging
  all_goals exact ⟨_, List.mem_cons_self ..⟩

/-- The notes that an entry of its own makes. -/
def Shape.ownNotes {ε : Type} (s : Shape ε) : List EntryNote :=
  .id (some s.id) :: .editLink (some s.id) :: s.etag.toList.map fun etag ↦ .etag (some etag)

theorem Shape.foldl_ownNotes {ε : Type} (s : Shape ε) : s.ownNotes.foldl EntryNote.apply {} = s.facts := by
  obtain ⟨id, _ | etag, links, fields⟩ := s <;> rfl

theorem roleOf_lightOwn {ε : Type} (s : Shape ε) : ∀ m ∈ lightOwn s, roleOf m.1 = .ownNote := by
  have hid : roleOf "@odata.id" = .ownNote := by cbv
  have heditLink : roleOf "@odata.editLink" = .ownNote := by cbv
  have hetag : roleOf "@odata.etag" = .ownNote := by cbv
  refine List.forall_mem_cons.2 ⟨hid, List.forall_mem_cons.2 ⟨heditLink, ?_⟩⟩
  exact List.forall_mem_map.2 fun _ _ ↦ hetag

theorem noteItems_lightOwn {ε : Type} (s : Shape ε) :
    ((lightOwn s).flatMap fun m ↦ noteItems m.1 m.2 (roleOf m.1)) = s.ownNotes.map .note := by
  have hnote : ((lightOwn s).flatMap fun m ↦ noteItems m.1 m.2 (roleOf m.1)) =
      (lightOwn s).flatMap fun m ↦ (entryNote? (annotationName m.1.toList) m.2).toList.map .note := by
    refine List.flatMap_congr fun m hm ↦ ?_
    rw [roleOf_lightOwn s m hm, noteItems]
  have hid : annotationName "@odata.id".toList = "id" := by cbv
  have heditLink : annotationName "@odata.editLink".toList = "editLink" := by cbv
  have hetag : annotationName "@odata.etag".toList = "etag" := by cbv
  rw [hnote]
  obtain ⟨id, _ | etag, links, fields⟩ := s
  all_goals
    simp only [lightOwn, Shape.ownNotes, Option.toList_none, Option.toList_some, List.map_nil,
      List.map_cons, List.flatMap_cons, List.flatMap_nil, hid, heditLink, hetag]
    rfl

theorem lightEntry_map (s : Shape Item) (f : Item → Members) : lightEntry (s.map f) =
    lightOwn s ++ s.links.flatMap (fun link ↦ lightLink (link.1, link.2.map f)) ++ s.fieldMembers := by
  rw [lightEntry, Shape.map, List.flatMap_map]
  rfl

theorem not_mem_fold_lightEntry {item : Item} {name : String} (h : name ∉ item.shape.names)
    (hmark : '@' ∉ name.toList) : name ∉ (item.fold lightEntry).map Prod.fst := by
  obtain ⟨s⟩ := item
  rw [Item.fold_mk]
  refine not_mem_lightEntry ?_ hmark
  rw [Shape.names_map]
  exact h

section

variable {s : Shape Item} (hs : s.WellFormed) (hundeferred : s.Undeferred)
  (hinner : ∀ link ∈ s.links, ∀ item ∈ link.2.entries, item.shape.WellFormed)
include hs

/-- The empty array of a link has a note beside it. -/
theorem mem_annotated_lightEntry {name : String} {paging : Paging} {items : List Item}
    (hlink : (name, .feed paging items) ∈ s.links) {f : Item → Members} (hempty : items.map f = []) :
    name.toList ∈ annotatedProperties (lightEntry (s.map f)) := by
  obtain ⟨m, hm⟩ := exists_lightNotes name paging
  obtain ⟨note, hnote⟩ := names_lightNotes name paging [] m hm
  refine mem_annotatedProperties_beside (hs.linkNames _ hlink) ?_ hnote
  rw [lightEntry_map]
  refine List.mem_append_left _ (List.mem_append_right _ (List.mem_flatMap.2 ⟨_, hlink, ?_⟩))
  rw [Extent.map, lightLink, hempty]
  exact List.mem_append_left _ hm

include hundeferred hinner

/-- The object of a link to an entry expands to that entry. -/
theorem memberPart?_lightEntry {annotated : List (List Char)} {name : String} {item : Item}
    (hlink : (name, .entry item) ∈ s.links) :
    memberPart? annotated name (.object (item.fold lightEntry)) =
      some (.entry (item.fold lightEntry)) := by
  have hitem := hinner _ hlink item (List.mem_singleton_self item)
  have hresults := hitem.not_mem_names not_isFieldName_results
  exact memberPart?_entry (hs.linkNames _ hlink)
    (not_mem_fold_lightEntry (hundeferred name item hlink) (by decide))
    (not_mem_fold_lightEntry hresults (by decide))

end

/-- The members of an entry denote it, as those of the entries inside do. -/
theorem denotes_lightEntry {item : Item} (h : item.Every fun s ↦ s.WellFormed ∧ s.Undeferred) :
    Denotes (.entry (item.fold lightEntry)) (.entry item.entry) := by
  induction h with
  | @mk s hs hinner ih =>
  have hownRole : ∀ m ∈ lightOwn s, roleOf m.1 ≠ .property := by
    intro m hm
    rw [roleOf_lightOwn s m hm]
    exact nofun
  have hshapes : ∀ link ∈ s.links, ∀ item ∈ link.2.entries, item.shape.WellFormed :=
    fun link hlink item hitem ↦ (hinner link hlink item hitem).shape.1
  rw [Item.fold_mk, lightEntry_map]
  refine denotes_entry hs.1 hownRole (noteItems_lightOwn s) s.foldl_ownNotes ?_
  rw [← lightEntry_map]
  rintro ⟨name, item | ⟨paging, items⟩⟩ hlink
  · have hitem : item ∈ Extent.entries (.entry item) := List.mem_singleton_self item
    exact linkMembers_single (memberPart?_lightEntry hs.1 hs.2 hshapes hlink) (ih _ hlink item hitem)
  · exact linkMembers_lightFeed (hs.1.linkNames _ hlink) paging (ih _ hlink)
      (mem_annotated_lightEntry hs.1 hlink)

end Source
end OData
