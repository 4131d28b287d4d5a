import OData.Proofs.Response.LightDocument

/-!
Documents in verbose JSON. The facts about an entry stand in its `__metadata`, and a feed lies under
`results`, its annotations beside it.
-/

namespace OData
namespace Source

open OfJson

theorem verboseEntry_map (s : Shape Item) (f : Item → Members) : verboseEntry (s.map f) =
    verboseOwn s ++ s.links.flatMap (fun link ↦ [(link.1, verboseExtent (link.2.map f))]) ++
      s.fieldMembers := by
  rw [verboseEntry, Shape.map, List.map_map, ← List.map_eq_flatMap]
  rfl

theorem names_verboseEntry (s : Shape Members) :
    (verboseEntry s).map Prod.fst = "__metadata" :: s.names := by
  rw [verboseEntry, List.map_append, List.map_append, names_fieldMembers, List.map_map, Shape.names]
  rfl

theorem not_mem_fold_verboseEntry {item : Item} {name : String} (h : name ∉ item.shape.names)
    (hmetadata : name ≠ "__metadata") : name ∉ (item.fold verboseEntry).map Prod.fst := by
  obtain ⟨s⟩ := item
  rw [Item.fold_mk, names_verboseEntry, Shape.names_map, List.mem_cons, not_or]
  exact ⟨hmetadata, h⟩

theorem roleOf_verboseOwn {ε : Type} (s : Shape ε) : ∀ m ∈ verboseOwn s, roleOf m.1 ≠ .property := by
  intro m hm
  obtain rfl := List.mem_singleton.1 hm
  exact nofun

/-- The notes that the `__metadata` of an entry makes. -/
def Shape.metadataNotes {ε : Type} (s : Shape ε) : List EntryNote :=
  .editLink (some s.id) :: .id (some s.id) :: s.etag.toList.map fun etag ↦ .etag (some etag)

theorem Shape.foldl_metadataNotes {ε : Type} (s : Shape ε) :
    s.metadataNotes.foldl EntryNote.apply {} = s.facts := by
  obtain ⟨id, _ | etag, links, fields⟩ := s <;> rfl

theorem noteItems_verboseOwn {ε : Type} (s : Shape ε) :
    ((verboseOwn s).flatMap fun m ↦ noteItems m.1 m.2 (roleOf m.1)) = s.metadataNotes.map .note := by
  obtain ⟨id, _ | etag, links, fields⟩ := s <;> rfl

/-- The members of an entry denote it, as those of the entries inside do. -/
theorem denotes_verboseEntry {item : Item} (h : item.Every fun s ↦ s.WellFormed ∧ s.Undeferred) :
    Denotes (.entry (item.fold verboseEntry)) (.entry item.entry) := by
  induction h with
  | @mk s hs hinner ih =>
  obtain ⟨hs, hundeferred⟩ := hs
  rw [Item.fold_mk, verboseEntry_map]
  refine denotes_entry hs (roleOf_verboseOwn s) (noteItems_verboseOwn s) s.foldl_metadataNotes ?_
  rintro ⟨name, item | ⟨paging, items⟩⟩ hlink
  · have hitem : item ∈ Extent.entries (.entry item) := List.mem_singleton_self item
    have hresults := (hinner _ hlink item hitem).shape.1.not_mem_names not_isFieldName_results
    refine linkMembers_single (memberPart?_entry (hs.linkNames _ hlink) ?_ ?_) (ih _ hlink item hitem)
    · exact not_mem_fold_verboseEntry (hundeferred name item hlink) (by decide)
    · exact not_mem_fold_verboseEntry hresults (by decide)
  · exact linkMembers_feed (hs.linkNames _ hlink) paging (ih _ hlink)

theorem verboseObjectContent_metadata (v : Json) (rest : Members) :
    verboseObjectContent (("__metadata", v) :: rest) = .part (.entry (("__metadata", v) :: rest)) := by
  cases rest with
  | nil =>
    rw [verboseObjectContent, if_neg]
    exact fun h ↦ h.1 rfl
  | cons m rest => rfl

theorem content_verboseEntry {s : Shape Members} (hresults : "results" ∉ s.names) :
    verboseContent (.object (verboseEntry s)) = .part (.entry (verboseEntry s)) := by
  have hnames : "results" ∉ (verboseEntry s).map Prod.fst := by
    rw [names_verboseEntry, List.mem_cons, not_or]
    exact ⟨by decide, hresults⟩
  rw [verboseContent, resultsFeed?_eq_none hnames]
  dsimp only
  rw [movedLast_of_not_mem hnames]
  exact verboseObjectContent_metadata _ _

/-- A document in verbose notation is read as a part that denotes it. -/
theorem exists_content_verbose {d : Extent Item} (hd : WellFormed d) (hundeferred : Undeferred d) :
    ∃ p, content (verbose d) = .part p ∧ Denotes p (node d) := by
  have hevery : ∀ item ∈ d.entries, item.Every fun s ↦ s.WellFormed ∧ s.Undeferred :=
    fun item hitem ↦ (hd item hitem).and (hundeferred item hitem)
  have hroot : ∀ v, content (.object [("d", v)]) = verboseContent v := fun _ ↦ rfl
  rw [verbose, hroot]
  cases d with
  | entry item =>
    have hitem := hevery item (List.mem_singleton_self item)
    refine ⟨_, ?_, denotes_verboseEntry hitem⟩
    have hresults := hitem.shape.1.not_mem_names not_isFieldName_results
    obtain ⟨s⟩ := item
    rw [Item.shape, ← Shape.names_map (Item.fold verboseEntry)] at hresults
    rw [Extent.map, verboseExtent, Item.fold_mk]
    exact content_verboseEntry hresults
  | feed paging items =>
    have hfeed := denotes_feed (fun item hitem ↦ denotes_verboseEntry (hevery item hitem))
      paging.verboseMembers
    rw [feedNotes_verboseMembers, Paging.foldl_notes] at hfeed
    refine ⟨_, ?_, hfeed⟩
    rw [Extent.map, verboseExtent, verboseContent, resultsFeed?_append (not_mem_verboseMembers paging)]
    rfl

/-! ### Texts -/

theorem exact_verboseOwn {ε : Type} (s : Shape ε) : ∀ m ∈ verboseOwn s, m.2.Exact := by
  obtain ⟨id, _ | etag, links, fields⟩ := s
  · refine List.forall_mem_singleton.2 (.object (by simp) ?_)
    exact List.forall_mem_singleton.2 (.string id)
  · refine List.forall_mem_singleton.2 (.object (by simp) ?_)
    exact List.forall_mem_cons.2 ⟨.string id, List.forall_mem_singleton.2 (.string etag)⟩

theorem exact_verboseExtent {extent : Extent Members}
    (h : ∀ members ∈ extent.entries, (Json.object members).Exact) : (verboseExtent extent).Exact := by
  cases extent with
  | entry members => exact h members (List.mem_singleton_self members)
  | feed paging entries =>
    refine .object ?_ (List.forall_mem_append.2 ⟨?_, ?_⟩)
    · rw [List.map_append, List.map_singleton, ← List.concat_eq_append]
      refine List.Nodup.concat (not_mem_verboseMembers paging) ?_
      obtain ⟨_ | count, _ | next⟩ := paging <;> simp [Paging.verboseMembers]
    · intro m hm
      rcases List.mem_append.1 hm with hm | hm
      · obtain ⟨n, -, rfl⟩ := List.mem_map.1 hm
        exact .string _
      · obtain ⟨address, -, rfl⟩ := List.mem_map.1 hm
        exact .string address
    · exact List.forall_mem_singleton.2 (.array (List.forall_mem_map.2 h))

theorem exact_verboseEntry {item : Item} (h : item.Every Shape.WellFormed) :
    (Json.object (item.fold verboseEntry)).Exact := by
  induction h with
  | @mk s hs _ ih =>
  rw [Item.fold_mk]
  refine .object ?_ ?_
  · rw [names_verboseEntry, Shape.names_map, List.nodup_cons]
    exact ⟨hs.not_mem_names fun h ↦ h.notReserved (by decide), hs.nodup⟩
  · rw [verboseEntry_map]
    intro m hm
    rw [List.mem_append, List.mem_append] at hm
    rcases hm with (hm | hm) | hm
    · exact exact_verboseOwn s m hm
    · obtain ⟨link, hlink, hm⟩ := List.mem_flatMap.1 hm
      obtain rfl := List.mem_singleton.1 hm
      refine exact_verboseExtent ?_
      rw [Extent.entries_map]
      exact List.forall_mem_map.2 (ih link hlink)
    · exact exact_fieldMembers s m hm

theorem exact_verbose {d : Extent Item} (hd : WellFormed d) : (verbose d).Exact := by
  refine .object (List.nodup_singleton _) (List.forall_mem_singleton.2 (exact_verboseExtent ?_))
  rw [Extent.entries_map]
  exact List.forall_mem_map.2 fun item hitem ↦ exact_verboseEntry (hd item hitem)

end Source
end OData
