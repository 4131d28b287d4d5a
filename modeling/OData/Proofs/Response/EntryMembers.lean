import OData.Proofs.Json.RoundTrip
import OData.Proofs.Response.Linked
import OData.Proofs.Response.MemberOrder

/-!
How the members of an entry in JSON are read: fields and links under their names, and annotations under
names with marks.
-/

namespace OData

namespace OfJson

theorem startsWith_iff {pattern : String} {name : List Char} :
    startsWith pattern name ↔ pattern.toList <+: name := by
  rw [startsWith, Option.isSome_iff_exists]
  constructor
  · rintro ⟨rest, h⟩
    exact ⟨rest, (Text.eq_append_of_afterPrefix? h).symm⟩
  · rintro ⟨rest, rfl⟩
    exact ⟨rest, Text.afterPrefix?_append _ _⟩

end OfJson

namespace Source

open OfJson

section

variable {name : String} (h : IsFieldName name)
include h

theorem IsFieldName.ne_at : ∀ c ∈ name.toList, decide (c = '@') = false := by
  intro c hc
  rw [decide_eq_false_iff_not]
  rintro rfl
  exact Xml.not_mem_of_isName h.isName (by decide) hc

/-- What stands behind a field name at an at sign does not make a mark of the name. -/
theorem IsFieldName.isMarked {full : String} {rest : List Char}
    (hfull : full.toList = name.toList ++ rest) (hrest : ∀ c ∈ rest.head?, c = '@') :
    OfJson.isMarked full = false := by
  rw [OfJson.isMarked, Bool.or_eq_false_iff, Bool.eq_false_iff, Bool.eq_false_iff, ne_eq, ne_eq,
    startsWith_iff, startsWith_iff, hfull]
  constructor
  · rintro ⟨after, hafter⟩
    rcases List.append_eq_append_iff.1 hafter with ⟨u, hname, -⟩ | ⟨u, hmark, hu⟩
    · exact h.notMarked ⟨u, hname.symm⟩
    · cases u with
      | nil =>
        rw [List.append_nil] at hmark
        exact h.notMarked ⟨[], by rw [List.append_nil, hmark]⟩
      | cons c u =>
        obtain rfl := hrest c (by rw [hu]; rfl)
        have hmem : '@' ∈ "odata.".toList := by
          rw [hmark]
          exact List.mem_append_right _ (List.mem_cons_self ..)
        exact absurd hmem (by decide)
  · obtain ⟨c, cs, hcs, hc⟩ := Xml.exists_cons_of_isName h.isName
    rintro ⟨after, hafter⟩
    rw [hcs] at hafter
    obtain rfl := (List.cons.inj hafter).1
    exact absurd hc (by decide)

theorem IsFieldName.roleOf : OfJson.roleOf name = .property := by
  have hmetadata : name ≠ "__metadata" := by
    rintro rfl
    exact h.notReserved (by decide)
  rw [OfJson.roleOf, if_neg hmetadata, h.isMarked (List.append_nil _).symm fun _ ↦ (Option.not_mem_none _).elim,
    Text.cutWhere?_eq_none h.ne_at]
  rfl

/-- A name with an at sign annotates the field before the sign. -/
theorem IsFieldName.roleOf_at {full : String} {note : List Char}
    (hfull : full.toList = name.toList ++ '@' :: note) :
    OfJson.roleOf full = .noteOn name.toList note := by
  have hmetadata : full ≠ "__metadata" := by
    rintro rfl
    have hmem : '@' ∈ "__metadata".toList := by
      rw [hfull]
      exact List.mem_append_right _ (List.mem_cons_self ..)
    exact absurd hmem (by decide)
  have hmarked := h.isMarked hfull fun c hc ↦ (Option.some.inj hc).symm
  rw [OfJson.roleOf, if_neg hmetadata, hmarked, hfull, Text.cutWhere?_append h.ne_at (by decide)]
  rfl

end

/-- A part without stray items that denotes a node. -/
structure Denotes (p : Part) (n : Node) : Prop where
  clean : ∀ item, ¬ p.HasStray item
  node : p.tree.node id = n

/-- An array of entries, with members that annotate it. -/
theorem denotes_feed {items : List Item} {members : Item → Members}
    (h : ∀ item ∈ items, Denotes (.entry (members item)) (.entry item.entry)) (notes : Members) :
    Denotes (.feed ((items.map members).map .object) notes)
      (.feed ⟨items.map Item.entry, (feedNotes notes).foldl FeedNote.apply {}⟩) := by
  constructor
  · intro stray hstray
    rcases Part.hasStray_feed.1 hstray with ⟨hitem, hobject⟩ | ⟨child, hchild, hstray⟩
    · obtain ⟨_, -, rfl⟩ := List.mem_map.1 hitem
      contradiction
    · obtain ⟨_, hobject, ms, rfl, rfl⟩ := Part.mem_children_feed.1 hchild
      obtain ⟨_, hms, heq⟩ := List.mem_map.1 hobject
      obtain rfl := Json.object.inj heq
      obtain ⟨item, hitem, rfl⟩ := List.mem_map.1 hms
      exact (h item hitem).clean stray hstray
  · rw [Part.node_feed, List.map_map, List.flatMap_map, List.flatMap_assoc]
    congr 2
    rw [List.map_eq_flatMap]
    refine List.flatMap_congr fun item hitem ↦ ?_
    have hnode := (h item hitem).node
    rw [Part.tree_entry] at hnode
    have hentry := Node.entry.inj hnode
    rw [Function.comp_apply, feedItems, List.flatMap_singleton, FeedItem.entries, hentry]

/-- Members that settle a link, without stray items in what they expand to. -/
structure LinkMembers (annotated : List (List Char)) (link : String × Extent Entry)
    (members : Members) : Prop where
  clean : ∀ m ∈ members, ∀ p, memberPart? annotated m.1 m.2 = some p → ∀ item, ¬ p.HasStray item
  settles : Settles link ((members.flatMap fun m ↦ memberItems annotated m.1 m.2).flatMap
    (EntryItem.effects id))

theorem memberPart?_of_roleOf {annotated : List (List Char)} {name : String} {v : Json}
    (h : roleOf name ≠ .property) : memberPart? annotated name v = none := by
  unfold memberPart?
  split
  · contradiction
  · rfl

theorem memberItems_of_roleOf {annotated : List (List Char)} {name : String} {v : Json}
    (h : roleOf name ≠ .property) :
    memberItems annotated name v = noteItems name v (roleOf name) := by
  rw [memberItems_of_none (memberPart?_of_roleOf h)]
  unfold plainItems
  split
  · contradiction
  · contradiction
  · rfl

theorem memberPart?_json (annotated : List (List Char)) (name : String) (v : Scalar) :
    memberPart? annotated name v.json = none := by
  unfold memberPart?
  split
  · cases v <;> rfl
  · rfl

theorem ofField_json {v : Scalar} (h : ∀ text, v = .string text → VerboseDate.ofString? text = none) :
    VerboseDate.ofField v.json = v.value := by
  cases v with
  | null => rfl
  | boolean b => rfl
  | int32 n => exact Value.ofInteger_toInt n
  | string s =>
    rw [Scalar.json, VerboseDate.ofField, h s rfl]
    rfl

theorem memberItems_json (annotated : List (List Char)) {name : String} (hname : IsFieldName name)
    {v : Scalar} (h : ∀ text, v = .string text → VerboseDate.ofString? text = none) :
    memberItems annotated name v.json = [.field name v.value] := by
  rw [memberItems_of_none (memberPart?_json annotated name v), ← ofField_json h]
  unfold plainItems
  rw [hname.roleOf]
  cases v <;> rfl

/-- Members that annotate an entry, members that settle its links, and those of its fields. -/
theorem denotes_entry {s : Shape Item} (hs : s.WellFormed) {own : Members}
    {linkMembers : String × Extent Item → Members} {notes : List EntryNote}
    (hrole : ∀ m ∈ own, roleOf m.1 ≠ .property)
    (hnotes : (own.flatMap fun m ↦ noteItems m.1 m.2 (roleOf m.1)) = notes.map .note)
    (hfacts : notes.foldl EntryNote.apply {} = s.facts)
    (hlinks : ∀ link ∈ s.links,
      LinkMembers (annotatedProperties (own ++ s.links.flatMap linkMembers ++ s.fieldMembers))
        (link.1, link.2.map Item.entry) (linkMembers link)) :
    Denotes (.entry (own ++ s.links.flatMap linkMembers ++ s.fieldMembers))
      (.entry (Item.mk s).entry) := by
  constructor
  · intro stray hstray
    obtain ⟨child, hchild, hstray⟩ := Part.hasStray_entry.1 hstray
    obtain ⟨m, hm, hpart⟩ := Part.mem_children_entry.1 hchild
    rw [List.mem_append, List.mem_append] at hm
    rcases hm with (hm | hm) | hm
    · rw [memberPart?_of_roleOf (hrole m hm)] at hpart
      contradiction
    · obtain ⟨link, hlink, hm⟩ := List.mem_flatMap.1 hm
      exact (hlinks link hlink).clean m hm child hpart stray hstray
    · obtain ⟨⟨name, v⟩, -, rfl⟩ := List.mem_map.1 hm
      rw [memberPart?_json] at hpart
      contradiction
  · rw [Part.tree_entry, NodeTree.node, EntryItem.allEffects_eq, entryItems_eq]
    generalize annotatedProperties (own ++ s.links.flatMap linkMembers ++ s.fieldMembers) =
      annotated at hlinks
    have hown : (own.flatMap fun m ↦ memberItems annotated m.1 m.2) = notes.map .note := by
      rw [← hnotes]
      exact List.flatMap_congr fun m hm ↦ memberItems_of_roleOf (hrole m hm)
    have hfields : (s.fieldMembers.flatMap fun m ↦ memberItems annotated m.1 m.2) =
        s.fields.map fun f ↦ .field f.1 f.2.value := by
      rw [Shape.fieldMembers, List.flatMap_map, List.map_eq_flatMap]
      refine List.flatMap_congr fun f hf ↦ memberItems_json annotated (hs.fieldNames f hf) ?_
      rintro text htext
      exact (hs.texts f.1 text (htext ▸ hf)).2
    have hassembled : (((own ++ s.links.flatMap linkMembers ++ s.fieldMembers).flatMap
        fun m ↦ memberItems annotated m.1 m.2).flatMap (EntryItem.effects id)) =
        assembled notes (s.links.flatMap fun link ↦
          ((linkMembers link).flatMap fun m ↦ memberItems annotated m.1 m.2).flatMap
            (EntryItem.effects id)) s.fields := by
      simp only [List.flatMap_append, hown, hfields, assembled, List.flatMap_assoc,
        List.map_eq_flatMap]
      rfl
    rw [← entry_assembled hs.nodup hfacts fun link hlink ↦ (hlinks link hlink).settles, ← hassembled]

end Source
end OData
