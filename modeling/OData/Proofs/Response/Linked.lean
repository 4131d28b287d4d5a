import OData.Proofs.Fields
import OData.Proofs.Response.Source

/-!
Entries from the effects of their items. Where each name stands once, the order of links and fields is
that of the items, and every link is settled by the items that are about it.
-/

namespace OData

/-- What marks make of the annotations of one link. -/
def LinkMark.applyAll (found : Option LinkAnnotations) (marks : List LinkMark) :
    Option LinkAnnotations :=
  marks.foldl (fun found m ↦ some (m.apply (found.getD .empty))) found

theorem FeedAnnotations.empty_merge (later : FeedAnnotations) :
    FeedAnnotations.merge {} later = later := by
  obtain ⟨count, nextLink, deltaLink⟩ := later
  cases count <;> cases nextLink <;> cases deltaLink <;> rfl

theorem LinkAnnotations.empty_merge (later : LinkAnnotations) : empty.merge later = later := by
  obtain ⟨feed, entries⟩ := later
  rw [merge, empty, FeedAnnotations.empty_merge, List.nil_append]

/-- Marks of a link that is new come to one member at the end. -/
theorem LinkMark.foldl_alter {links : List (String × LinkAnnotations)} {name : String}
    (h : name ∉ links.map Prod.fst) (marks : List LinkMark) (found : Option LinkAnnotations) :
    (marks.map (name, ·)).foldl
        (fun links (name, m) ↦ Fields.alter name .empty (m.apply ·) links)
        (links ++ found.toList.map (name, ·)) =
      links ++ (applyAll found marks).toList.map (name, ·) := by
  induction marks generalizing found with
  | nil => rfl
  | cons m rest ih =>
    have halter : Fields.alter name .empty (m.apply ·) (links ++ found.toList.map (name, ·)) =
        links ++ (some (m.apply (found.getD .empty))).toList.map (name, ·) := by
      cases found with
      | none =>
        simp [Fields.alter, Fields.put_of_not_mem h, Fields.find?_eq_none.2 h]
      | some link =>
        simp [Fields.alter, Fields.put_append_of_not_mem h, Fields.find?_append_of_not_mem h]
    rw [List.map_cons, List.foldl_cons]
    dsimp only
    rw [halter, ih]
    rfl

namespace Source

/-- Effects that settle what an entry says of one of its links. -/
structure Settles (link : String × Extent Entry) (effects : List Effect) : Prop where
  assignments : effects.filterMap Effect.assignment? = (linkField? link).toList
  notes : effects.filterMap Effect.note? = []
  marks : ∃ marks, effects.filterMap Effect.mark? = marks.map (link.1, ·) ∧
    (LinkMark.applyAll none marks).map (link.1, ·) = linkAnnotations? link

/-- A link to a node settles what that node is. -/
theorem settles_linkEffects (name : String) (extent : Extent Entry) :
    Settles (name, extent) (linkEffects name (some extent.node)) := by
  refine ⟨?_, ?_, ?_⟩
  · rw [linkEffects, linkField?]
    cases linkValue? (some extent.node) <;> split <;> rfl
  · rw [linkEffects]
    cases linkValue? (some extent.node) <;> split <;> rfl
  · rw [linkEffects, linkAnnotations?]
    by_cases h : (annotationsIn (some extent.node)).isEmpty
    · refine ⟨[], ?_, ?_⟩
      · rw [if_pos h]
        cases linkValue? (some extent.node) <;> rfl
      · dsimp only
        rw [if_pos h]
        rfl
    · refine ⟨[.closed (annotationsIn (some extent.node))], ?_, ?_⟩
      · rw [if_neg h]
        cases linkValue? (some extent.node) <;> rfl
      · dsimp only
        rw [if_neg h]
        have hclosed : (LinkMark.closed (annotationsIn (some extent.node))).apply .empty =
            annotationsIn (some extent.node) :=
          LinkAnnotations.empty_merge _
        rw [LinkMark.applyAll, List.foldl_cons, List.foldl_nil, Option.getD_none, hclosed]
        rfl

section

variable {links : List (String × Extent Item)} {effectsOf : String × Extent Item → List Effect}
  (h : ∀ link ∈ links, Settles (link.1, link.2.map Item.entry) (effectsOf link))
include h

theorem assignments_links : (links.flatMap effectsOf).filterMap Effect.assignment? =
    links.filterMap fun link ↦ linkField? (link.1, link.2.map Item.entry) := by
  rw [List.filterMap_flatMap, List.filterMap_eq_flatMap_toList]
  exact List.flatMap_congr fun link hlink ↦ (h link hlink).assignments

theorem notes_links : (links.flatMap effectsOf).filterMap Effect.note? = [] := by
  rw [List.filterMap_flatMap, List.flatMap_eq_nil_iff]
  exact fun link hlink ↦ (h link hlink).notes

theorem foldl_marks_links {before : List (String × LinkAnnotations)}
    (hnames : (before.map Prod.fst ++ links.map Prod.fst).Nodup) :
    ((links.flatMap effectsOf).filterMap Effect.mark?).foldl
        (fun links (name, m) ↦ Fields.alter name .empty (m.apply ·) links) before =
      before ++ links.filterMap fun link ↦ linkAnnotations? (link.1, link.2.map Item.entry) := by
  induction links generalizing before with
  | nil => exact (List.append_nil before).symm
  | cons link rest ih =>
    obtain ⟨hlink, hrest⟩ := List.forall_mem_cons.1 h
    obtain ⟨marks, hmarks, hannotations⟩ := hlink.marks
    dsimp only at hmarks hannotations
    have hnew : link.1 ∉ before.map Prod.fst := by
      rw [List.nodup_append] at hnames
      exact fun hmem ↦ hnames.2.2 _ hmem _ (List.mem_cons_self ..) rfl
    have hfold := LinkMark.foldl_alter hnew marks none
    rw [Option.toList_none, List.map_nil, List.append_nil] at hfold
    rw [List.flatMap_cons, List.filterMap_append, List.foldl_append, hmarks, hfold, ih hrest]
    · rw [List.append_assoc]
      congr 1
      rw [List.filterMap_cons, ← hannotations]
      cases LinkMark.applyAll none marks <;> rfl
    · refine hnames.sublist ?_
      rw [List.map_append, List.append_assoc, List.map_cons]
      refine (List.Sublist.refl _).append ?_
      cases LinkMark.applyAll none marks with
      | none => exact List.sublist_cons_self ..
      | some annotations => exact .refl _

end

theorem map_fst_filterMap_sublist {α β : Type} {f : String × α → Option (String × β)}
    (hf : ∀ a b, f a = some b → b.1 = a.1) (l : List (String × α)) :
    ((l.filterMap f).map Prod.fst).Sublist (l.map Prod.fst) := by
  induction l with
  | nil => exact .refl _
  | cons a rest ih =>
    rw [List.filterMap_cons, List.map_cons]
    cases hb : f a with
    | none => exact ih.cons _
    | some b =>
      rw [← hf a b hb]
      exact ih.cons_cons _

@[simp]
theorem Shape.names_map {ε α : Type} (f : ε → α) (s : Shape ε) : (s.map f).names = s.names := by
  rw [names, names, Shape.map, List.map_map]
  rfl

theorem nodup_data {s : Shape Entry} (h : s.names.Nodup) : ((entryOf s).data.map Prod.fst).Nodup := by
  refine h.sublist ?_
  rw [entryOf, List.map_append, List.map_map]
  refine (map_fst_filterMap_sublist ?_ s.links).append (.refl _)
  intro link field hfield
  obtain ⟨v, -, rfl⟩ := Option.map_eq_some_iff.1 hfield
  rfl

/-- What the items of an entry do: its own notes, then what its links bring, then its fields. -/
def assembled (own : List EntryNote) (links : List Effect) (fields : List (String × Scalar)) :
    List Effect :=
  own.map .note ++ links ++ fields.map fun (name, v) ↦ .assign name v.value

section

variable (own : List EntryNote) (links : List Effect) (fields : List (String × Scalar))

theorem assignments_assembled : (assembled own links fields).filterMap Effect.assignment? =
    links.filterMap Effect.assignment? ++ fields.map fun (name, v) ↦ (name, v.value) := by
  have hown : (own.map Effect.note).filterMap Effect.assignment? = [] :=
    List.filterMap_eq_nil_iff.2 (List.forall_mem_map.2 fun _ _ ↦ rfl)
  rw [assembled, List.filterMap_append, List.filterMap_append, hown, List.nil_append,
    List.filterMap_map]
  congr 1
  exact congrFun List.filterMap_eq_map _

theorem notes_assembled : (assembled own links fields).filterMap Effect.note? =
    own ++ links.filterMap Effect.note? := by
  have hfields : (fields.map fun (name, v) ↦ Effect.assign name v.value).filterMap
      Effect.note? = [] :=
    List.filterMap_eq_nil_iff.2 (List.forall_mem_map.2 fun _ _ ↦ rfl)
  rw [assembled, List.filterMap_append, List.filterMap_append, hfields, List.append_nil,
    List.filterMap_map]
  congr 1
  exact List.filterMap_some

theorem marks_assembled : (assembled own links fields).filterMap Effect.mark? =
    links.filterMap Effect.mark? := by
  have hown : (own.map Effect.note).filterMap Effect.mark? = [] :=
    List.filterMap_eq_nil_iff.2 (List.forall_mem_map.2 fun _ _ ↦ rfl)
  have hfields : (fields.map fun (name, v) ↦ Effect.assign name v.value).filterMap
      Effect.mark? = [] :=
    List.filterMap_eq_nil_iff.2 (List.forall_mem_map.2 fun _ _ ↦ rfl)
  rw [assembled, List.filterMap_append, List.filterMap_append, hown, hfields, List.append_nil,
    List.nil_append]

end

/-- An entry is what its notes say, its links settle and its fields assign. -/
theorem entry_assembled {s : Shape Item} (hnames : s.names.Nodup) {own : List EntryNote}
    (hown : own.foldl EntryNote.apply {} = s.facts)
    {effectsOf : String × Extent Item → List Effect}
    (hlinks : ∀ link ∈ s.links, Settles (link.1, link.2.map Item.entry) (effectsOf link)) :
    Effect.entry id (assembled own (s.links.flatMap effectsOf) s.fields) = (Item.mk s).entry := by
  have hentry : (Item.mk s).entry = entryOf (s.map Item.entry) := Item.fold_mk entryOf s
  have hdata : (assembled own (s.links.flatMap effectsOf) s.fields).filterMap Effect.assignment? =
      (entryOf (s.map Item.entry)).data := by
    rw [assignments_assembled, assignments_links hlinks, entryOf, Shape.map, List.filterMap_map]
    rfl
  have hlinkNames : (s.links.map Prod.fst).Nodup := (List.nodup_append.1 hnames).1
  have hfold := @foldl_marks_links _ _ hlinks [] hlinkNames
  have hannotations : (s.map Item.entry).links.filterMap linkAnnotations? =
      s.links.filterMap fun link ↦ linkAnnotations? (link.1, link.2.map Item.entry) := by
    rw [Shape.map, List.filterMap_map]
    rfl
  rw [hentry, Effect.entry, Effect.fields, Effect.annotations, hdata, notes_assembled,
    notes_links hlinks, List.append_nil, marks_assembled, hown, hfold,
    Fields.ofList_eq_self (nodup_data (by rwa [Shape.names_map])), List.nil_append, ← hannotations]
  rfl

/-! ### Annotations beside a link -/

def Paging.notes (p : Paging) : List FeedNote :=
  (p.count.toList.map fun n ↦ .count (some n.toNat)) ++
    p.next.toList.map fun address ↦ .nextLink (some address)

theorem Paging.foldl_notes (p : Paging) : p.notes.foldl FeedNote.apply {} = p.annotations := by
  obtain ⟨count, next⟩ := p
  cases count <;> cases next <;> rfl

theorem Item.isEmpty_annotations (item : Item) : item.entry.annotations.isEmpty = false := by
  obtain ⟨s⟩ := item
  rw [Item.entry, Item.fold_mk, entryOf, EntryAnnotations.isEmpty, Bool.and_eq_false_iff]
  left
  simp [Shape.facts]

/-- Notes in front of a link settle it together with the link, which goes without them. -/
theorem settles_besideNotes (name : String) (paging : Paging) (items : List Item) :
    Settles (name, (Extent.feed paging items).map Item.entry)
      (paging.notes.map (fun a ↦ .mark name (.note a)) ++
        linkEffects name (some (.feed ⟨items.map Item.entry, {}⟩))) := by
  obtain ⟨count, next⟩ := paging
  cases items with
  | nil =>
    refine ⟨?_, ?_, (Paging.notes ⟨count, next⟩).map .note, ?_, ?_⟩
    all_goals cases count <;> cases next <;> rfl
  | cons item rest =>
    -- the annotations of an entry are never empty, so those of the link are not
    have hempty : ∀ feed : FeedAnnotations, LinkAnnotations.isEmpty
        ⟨feed, ((item :: rest).map Item.entry).map Entry.annotations⟩ = false := by
      intro feed
      simp [LinkAnnotations.isEmpty, item.isEmpty_annotations]
    have hlink : linkEffects name (some (.feed ⟨(item :: rest).map Item.entry, {}⟩)) =
        [.assign name (.collection (((item :: rest).map Item.entry).map fun e ↦ .record e.data)),
          .mark name (.closed ⟨{}, ((item :: rest).map Item.entry).map Entry.annotations⟩)] := by
      rw [linkEffects, annotationsIn, hempty]
      rfl
    have hannotations :
        linkAnnotations? (name, (Extent.feed ⟨count, next⟩ (item :: rest)).map Item.entry) =
          some (name, ⟨Paging.annotations ⟨count, next⟩,
            ((item :: rest).map Item.entry).map Entry.annotations⟩) := by
      simp only [linkAnnotations?, Extent.map, Extent.node, annotationsIn, hempty]
      rfl
    rw [hlink]
    refine ⟨?_, ?_, (Paging.notes ⟨count, next⟩).map .note ++
      [.closed ⟨{}, ((item :: rest).map Item.entry).map Entry.annotations⟩], ?_, ?_⟩
    · cases count <;> cases next <;> rfl
    · cases count <;> cases next <;> rfl
    · cases count <;> cases next <;> rfl
    · rw [hannotations]
      cases count <;> cases next <;> rfl

end Source
end OData
