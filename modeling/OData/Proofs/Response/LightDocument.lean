import OData.Proofs.Response.Light

/-!
Documents in light JSON. No name stands twice among the members of an entry, and nothing is denoted twice
there, so that the member that the root has last does not count.
-/

namespace OData
namespace Source

open OfJson

/-! ### No name twice -/

/-- Blocks whose items have keys of their own. -/
theorem nodup_flatMap_of_keys {α β κ : Type} {block : α → List β} {key : β → κ} {keyOf : α → κ}
    {l : List α} (hl : (l.map keyOf).Nodup) (hblock : ∀ a ∈ l, (block a).Nodup)
    (hkey : ∀ a ∈ l, ∀ b ∈ block a, key b = keyOf a) : (l.flatMap block).Nodup := by
  rw [List.nodup_flatMap]
  refine ⟨hblock, ?_⟩
  refine (List.pairwise_map.1 hl).imp_of_mem fun {a a'} ha ha' hne b hb hb' ↦ hne ?_
  rw [← hkey a ha b hb, hkey a' ha' b hb']

/-- What a name begins with, up to a mark. -/
def stem (name : String) : List Char :=
  name.toList.takeWhile (· ≠ '@')

theorem IsFieldName.takeWhile {name : String} (h : IsFieldName name) (rest : List Char) :
    (name.toList ++ rest).takeWhile (· ≠ '@') = name.toList ++ rest.takeWhile (· ≠ '@') := by
  refine List.takeWhile_append_of_pos fun c hc ↦ ?_
  rw [decide_not, h.ne_at c hc]
  rfl

theorem IsFieldName.stem {name : String} (h : IsFieldName name) : stem name = name.toList := by
  have htake := h.takeWhile []
  rwa [List.takeWhile_nil, List.append_nil] at htake

theorem stem_lightOwn {ε : Type} (s : Shape ε) : ∀ m ∈ lightOwn s, stem m.1 = [] := by
  have hid : stem "@odata.id" = [] := by decide
  have heditLink : stem "@odata.editLink" = [] := by decide
  have hetag : stem "@odata.etag" = [] := by decide
  refine List.forall_mem_cons.2 ⟨hid, List.forall_mem_cons.2 ⟨heditLink, ?_⟩⟩
  exact List.forall_mem_map.2 fun _ _ ↦ hetag

theorem stem_lightLink {link : String × Extent Members} (h : IsFieldName link.1) :
    ∀ m ∈ lightLink link, stem m.1 = link.1.toList := by
  intro m hm
  obtain ⟨name, members | ⟨paging, entries⟩⟩ := link
  · obtain rfl := List.mem_singleton.1 hm
    exact h.stem
  · rcases List.mem_append.1 hm with hm | hm
    · obtain ⟨note, hnote⟩ := names_lightNotes name paging entries m hm
      rw [hnote, stem, toList_beside, h.takeWhile]
      exact List.append_nil _
    · obtain rfl := List.mem_singleton.1 hm
      exact h.stem

theorem nodup_lightMembers (mark : String) (p : Paging) :
    ((p.lightMembers mark).map Prod.fst).Nodup := by
  obtain ⟨_ | count, _ | next⟩ := p <;> simp [Paging.lightMembers]

theorem nodup_lightOwn {ε : Type} (s : Shape ε) : ((lightOwn s).map Prod.fst).Nodup := by
  obtain ⟨id, _ | etag, links, fields⟩ := s <;> simp [lightOwn]

theorem nodup_lightLink (link : String × Extent Members) : ((lightLink link).map Prod.fst).Nodup := by
  obtain ⟨name, members | ⟨paging, entries⟩⟩ := link
  · exact List.nodup_singleton _
  · have hnotes : ((lightNotes name paging entries).map Prod.fst).Nodup := by
      unfold lightNotes
      split
      · exact List.nodup_singleton _
      · exact nodup_lightMembers _ paging
    rw [lightLink, List.map_append, List.nodup_append]
    refine ⟨hnotes, List.nodup_singleton _, ?_⟩
    intro full hfull other hother heq
    obtain rfl := List.mem_singleton.1 hother
    obtain ⟨m, hm, rfl⟩ := List.mem_map.1 hfull
    obtain ⟨note, hnote⟩ := names_lightNotes other paging entries m hm
    have hlength : (other ++ "@odata." ++ note).toList.length = other.toList.length := by
      rw [← hnote, heq]
    rw [toList_beside, List.length_append, List.length_cons] at hlength
    omega

theorem names_lightEntry (s : Shape Members) : (lightEntry s).map Prod.fst =
    (lightOwn s).map Prod.fst ++ s.links.flatMap (fun link ↦ (lightLink link).map Prod.fst) ++
      s.fields.map Prod.fst := by
  rw [lightEntry, List.map_append, List.map_append, names_fieldMembers, List.map_flatMap]

/-- The names of the members of an entry differ, by what they begin with or behind it. -/
theorem nodup_lightEntry {s : Shape Members} (hnodup : s.names.Nodup)
    (hnames : ∀ name ∈ s.names, IsFieldName name) : ((lightEntry s).map Prod.fst).Nodup := by
  have hlinks : ∀ link ∈ s.links, IsFieldName link.1 := fun link hlink ↦
    hnames _ (List.mem_append_left _ (List.mem_map_of_mem hlink))
  have hfields : ∀ name ∈ s.fields.map Prod.fst, IsFieldName name := fun name hname ↦
    hnames _ (List.mem_append_right _ hname)
  obtain ⟨hnodupLinks, hnodupFields, hapart⟩ := List.nodup_append.1 hnodup
  have hstem : ∀ link ∈ s.links, ∀ name ∈ (lightLink link).map Prod.fst,
      stem name = link.1.toList := by
    intro link hlink name hname
    obtain ⟨m, hm, rfl⟩ := List.mem_map.1 hname
    exact stem_lightLink (hlinks link hlink) m hm
  have hown : ∀ name ∈ (lightOwn s).map Prod.fst, stem name = [] :=
    List.forall_mem_map.2 (stem_lightOwn s)
  have hne : ∀ {name : String}, IsFieldName name → name.toList ≠ [] := by
    intro name hname
    obtain ⟨c, cs, hcs, -⟩ := Xml.exists_cons_of_isName hname.isName
    rw [hcs]
    exact List.cons_ne_nil c cs
  rw [names_lightEntry, List.append_assoc, List.nodup_append, List.nodup_append]
  refine ⟨nodup_lightOwn s, ⟨?_, hnodupFields, ?_⟩, ?_⟩
  · refine nodup_flatMap_of_keys ?_ (fun link _ ↦ nodup_lightLink link) hstem
    have hinjective : Function.Injective String.toList := fun _ _ ↦ String.toList_injective
    have htoList := hnodupLinks.map hinjective
    rwa [List.map_map] at htoList
  · rintro name hname other hother rfl
    obtain ⟨link, hlink, hname⟩ := List.mem_flatMap.1 hname
    have heq := hstem link hlink name hname
    rw [(hfields name hother).stem, String.toList_inj] at heq
    exact hapart link.1 (List.mem_map_of_mem hlink) name hother heq.symm
  · rintro name hname other hother rfl
    have hnil := hown name hname
    rcases List.mem_append.1 hother with hother | hother
    · obtain ⟨link, hlink, hother⟩ := List.mem_flatMap.1 hother
      exact hne (hlinks link hlink) ((hstem link hlink name hother).symm.trans hnil)
    · exact hne (hfields name hother) ((hfields name hother).stem.symm.trans hnil)

/-! ### Nothing denoted twice -/

theorem nodup_notes (name : String) (p : Paging) :
    (p.notes.map fun a ↦ Denoted.linked name a.cleared).Nodup := by
  obtain ⟨_ | count, _ | next⟩ := p <;> simp [Paging.notes, FeedNote.cleared]

theorem nodup_ownNotes {ε : Type} (s : Shape ε) :
    (s.ownNotes.map fun a ↦ Denoted.own a.cleared).Nodup := by
  obtain ⟨id, _ | etag, links, fields⟩ := s <;> simp [Shape.ownNotes, EntryNote.cleared]

/-- The target of an annotation of a link. -/
def linkOf? : Denoted → Option String
  | .linked name _ => some name
  | _ => none

def Extent.notes {ε : Type} : Extent ε → List FeedNote
  | entry _ => []
  | feed paging _ => paging.notes

section

variable {annotated : List (List Char)} {name : String}

theorem denoted_lightFeed (hname : IsFieldName name) (paging : Paging) {entries : List Members}
    (hannotated : entries = [] → name.toList ∈ annotated) :
    ((lightLink (name, .feed paging entries)).flatMap fun m ↦ memberDenoted annotated m.1 m.2) =
      paging.notes.map fun a ↦ .linked name a.cleared := by
  have harray : memberDenoted annotated name (.array (entries.map .object)) = [] := by
    rw [memberDenoted, memberPart?_array hname hannotated]
    rfl
  have hnotes := (@memberItems_lightNotes annotated _ hname paging entries).2
  rw [lightLink, List.flatMap_append, List.flatMap_singleton, harray, List.append_nil]
  simp only [← Part.denoted_memberItems]
  rw [← List.flatMap_assoc, hnotes, List.flatMap_map, List.map_eq_flatMap]
  rfl

end

section

variable {s : Shape Item} (hs : s.WellFormed) (hundeferred : s.Undeferred)
  (hinner : ∀ link ∈ s.links, ∀ item ∈ link.2.entries, item.shape.WellFormed)
include hs hundeferred hinner

theorem denoted_lightEntry : (Part.entry (lightEntry (s.map (Item.fold lightEntry)))).denoted =
    (s.ownNotes.map fun a ↦ .own a.cleared) ++
      s.links.flatMap fun link ↦ link.2.notes.map fun a ↦ .linked link.1 a.cleared := by
  have hannotated := fun {name paging items} hlink ↦
    @mem_annotated_lightEntry s hs name paging items hlink (Item.fold lightEntry)
  have hlight := lightEntry_map s (Item.fold lightEntry)
  rw [Part.denoted]
  generalize annotatedProperties (lightEntry (s.map (Item.fold lightEntry))) = annotated at hannotated
  rw [hlight, List.flatMap_append, List.flatMap_append, List.flatMap_assoc]
  have hown : ((lightOwn s).flatMap fun m ↦ memberDenoted annotated m.1 m.2) =
      s.ownNotes.map fun a ↦ .own a.cleared := by
    have hitems : ((lightOwn s).flatMap fun m ↦ memberItems annotated m.1 m.2) =
        s.ownNotes.map .note := by
      rw [← noteItems_lightOwn]
      refine List.flatMap_congr fun m hm ↦ memberItems_of_roleOf ?_
      rw [roleOf_lightOwn s m hm]
      exact OfJson.Role.noConfusion
    simp only [← Part.denoted_memberItems]
    rw [← List.flatMap_assoc, hitems, List.flatMap_map, List.map_eq_flatMap]
    rfl
  have hfields : (s.fieldMembers.flatMap fun m ↦ memberDenoted annotated m.1 m.2) = [] := by
    refine List.flatMap_eq_nil_iff.2 fun m hm ↦ ?_
    obtain ⟨⟨name, v⟩, hfield, rfl⟩ := List.mem_map.1 hm
    rw [← Part.denoted_memberItems, memberItems_json annotated (hs.fieldNames _ hfield)]
    · rfl
    · rintro text rfl
      exact (hs.texts name text hfield).2
  rw [hown, hfields, List.append_nil]
  congr 1
  refine List.flatMap_congr fun link hlink ↦ ?_
  obtain ⟨name, item | ⟨paging, items⟩⟩ := link
  · have hobject : memberDenoted annotated name (.object (item.fold lightEntry)) = [] := by
      rw [memberDenoted, memberPart?_lightEntry hs hundeferred hinner hlink]
    rw [Extent.map, lightLink, List.flatMap_singleton]
    exact hobject
  · exact denoted_lightFeed (hs.linkNames _ hlink) paging (hannotated hlink)

theorem nodup_denoted_lightEntry :
    (Part.entry (lightEntry (s.map (Item.fold lightEntry)))).denoted.Nodup := by
  rw [denoted_lightEntry hs hundeferred hinner, List.nodup_append]
  refine ⟨nodup_ownNotes s, ?_, ?_⟩
  · have hnames : (s.links.map Prod.fst).Nodup := (List.nodup_append.1 hs.nodup).1
    have hsome : (s.links.map fun link ↦ some link.1).Nodup := by
      have hinjective : Function.Injective (some : String → Option String) :=
        fun _ _ ↦ Option.some.inj
      have hmap := hnames.map hinjective
      rwa [List.map_map] at hmap
    refine @nodup_flatMap_of_keys _ _ _ _ linkOf? _ _ hsome ?_ ?_
    · rintro ⟨name, item | ⟨paging, items⟩⟩ -
      · exact List.nodup_nil
      · exact nodup_notes name paging
    · intro link _
      exact List.forall_mem_map.2 fun _ _ ↦ rfl
  · rintro d hd other hother rfl
    obtain ⟨a, -, rfl⟩ := List.mem_map.1 hd
    obtain ⟨link, -, hlink⟩ := List.mem_flatMap.1 hother
    obtain ⟨b, -, hb⟩ := List.mem_map.1 hlink
    contradiction

end

/-! ### The root -/

theorem exists_take?_cons {name : String} {m : String × Json} {members : Members} (h : m.1 ≠ name) :
    Fields.take? name (m :: members) = none ∨
      ∃ v others, Fields.take? name (m :: members) = some (v, m :: others) := by
  rw [Fields.take?, if_neg h]
  cases Fields.take? name members with
  | none => exact .inl rfl
  | some found => exact .inr ⟨_, _, rfl⟩

/-- An entry is read as such, with a member `d` of it last. -/
theorem content_lightEntry {s : Shape Members} (hvalue : "value" ∉ s.names) :
    content (.object (lightEntry s)) = .part (.entry (movedLast "d" (lightEntry s))) := by
  have hroot : rootContent (movedLast "d" (lightEntry s)) =
      .part (.entry (movedLast "d" (lightEntry s))) := by
    have hnames : "value" ∉ (movedLast "d" (lightEntry s)).map Prod.fst := by
      rw [((movedLast_perm "d" (lightEntry s)).map Prod.fst).mem_iff]
      exact not_mem_lightEntry hvalue (by decide)
    rw [rootContent, Fields.take?_eq_none.2 hnames]
  have hd : "@odata.id" ≠ "d" := by decide
  have hmembers : ∃ m rest, lightEntry s = m :: rest ∧ m.1 ≠ "d" := ⟨_, _, rfl, hd⟩
  obtain ⟨m, rest, hcons, hne⟩ := hmembers
  rw [content]
  rw [hcons] at hroot ⊢
  rcases exists_take?_cons hne with htake | ⟨v, others, htake⟩
  · rw [htake]
    exact hroot
  · rw [htake]
    exact hroot

theorem isMarked_lightMembers (p : Paging) :
    ((p.lightMembers "@odata.").all fun (name, _) ↦ isMarked name) = true := by
  refine List.all_eq_true.2 fun ⟨name, v⟩ hm ↦ ?_
  obtain ⟨note, hnote⟩ := names_lightMembers "@odata." p _ hm
  dsimp only at hnote
  have hstart : startsWith "@" name.toList = true := by
    rw [startsWith_iff, hnote, String.toList_append]
    exact ⟨_, rfl⟩
  dsimp only
  rw [isMarked, hstart, Bool.or_true]

theorem feedNotes_lightMembers (p : Paging) : feedNotes (p.lightMembers "@odata.") = p.notes := by
  have hcount : ∀ v, feedNote? (annotationName ("@odata.".toList ++ "count".toList)) v =
      some (.count (countOf v)) := by
    intro v
    cbv
  have hnext : ∀ v, feedNote? (annotationName ("@odata.".toList ++ "nextLink".toList)) v =
      some (.nextLink (textOf v)) := by
    intro v
    cbv
  rw [Paging.lightMembers, Paging.notes, feedNotes_append]
  congr 1
  · refine feedNotes_map (fun n ↦ ?_) _
    rw [String.toList_append, hcount, countOf_integer]
  · refine feedNotes_map (fun address ↦ ?_) _
    rw [String.toList_append]
    exact hnext _

theorem not_mem_lightMembers {name : String} (hmark : '@' ∉ name.toList) (p : Paging) :
    name ∉ (p.lightMembers "@odata.").map Prod.fst := by
  intro hname
  obtain ⟨m, hm, rfl⟩ := List.mem_map.1 hname
  obtain ⟨note, hnote⟩ := names_lightMembers "@odata." p m hm
  rw [hnote, String.toList_append] at hmark
  exact hmark (List.mem_append_left _ (by decide))

theorem content_lightFeed (paging : Paging) (entries : List Members) :
    content (lightExtent (.feed paging entries)) =
      .part (.feed (entries.map .object) (paging.lightMembers "@odata.")) := by
  have hvalue : "value" ∉ (paging.lightMembers "@odata.").map Prod.fst :=
    not_mem_lightMembers (by decide) paging
  have hd : "d" ∉ (paging.lightMembers "@odata." ++
      [("value", Json.array (entries.map .object))]).map Prod.fst := by
    rw [List.map_append, List.mem_append, not_or]
    exact ⟨not_mem_lightMembers (by decide) paging, by simp⟩
  have hobjects : (entries.map Json.object).all Json.isObject := by
    simp [Json.isObject]
  rw [lightExtent, content, Fields.take?_eq_none.2 hd]
  dsimp only
  rw [movedLast_of_not_mem hd, rootContent, Fields.take?_append_of_not_mem hvalue]
  simp only [isMarked_lightMembers, hobjects, if_true]

/-- A document in light notation is read as a part that denotes it, but for the place of a member
`d` at its root. -/
theorem exists_content_light {d : Extent Item} (hd : WellFormed d) (hundeferred : Undeferred d) :
    ∃ p n, content (light d) = .part p ∧ Denotes p n ∧ (node d).Same n := by
  have hevery : ∀ item ∈ d.entries, item.Every fun s ↦ s.WellFormed ∧ s.Undeferred :=
    fun item hitem ↦ (hd item hitem).and (hundeferred item hitem)
  cases d with
  | entry item =>
    have hitem := hevery item (List.mem_singleton_self item)
    have hdenotes := denotes_lightEntry hitem
    cases hitem with
    | @mk s hs hinner =>
    have hvalue := hs.1.not_mem_names not_isFieldName_value
    rw [← Shape.names_map (Item.fold lightEntry)] at hvalue
    have hshapes : ∀ link ∈ s.links, ∀ item ∈ link.2.entries, item.shape.WellFormed :=
      fun link hlink item hitem ↦ (hinner link hlink item hitem).shape.1
    have hnames : ((lightEntry (s.map (Item.fold lightEntry))).map Prod.fst).Nodup := by
      refine nodup_lightEntry ?_ ?_
      · rw [Shape.names_map]
        exact hs.1.nodup
      · rw [Shape.names_map]
        exact hs.1.names
    have hperm := (movedLast_perm "d" (lightEntry (s.map (Item.fold lightEntry)))).symm
    have hsame := Part.node_same_of_perm hperm hnames (nodup_denoted_lightEntry hs.1 hs.2 hshapes)
    rw [Item.fold_mk] at hdenotes
    rw [hdenotes.node] at hsame
    refine ⟨.entry (movedLast "d" (lightEntry (s.map (Item.fold lightEntry)))), _, ?_,
      ⟨fun stray hstray ↦ ?_, rfl⟩, hsame⟩
    · rw [light, Extent.map, lightExtent, Item.fold_mk]
      exact content_lightEntry hvalue
    · exact hdenotes.clean stray (Part.hasStray_of_perm hperm hstray)
  | feed paging items =>
    refine ⟨_, _, content_lightFeed paging _, denotes_feed (fun item hitem ↦
      denotes_lightEntry (hevery item hitem)) _, ?_⟩
    rw [feedNotes_lightMembers, Paging.foldl_notes]
    exact .refl _

/-! ### Texts -/

theorem exact_json (v : Scalar) : v.json.Exact := by
  cases v with
  | null => exact .null
  | boolean b => exact .boolean b
  | int32 n =>
    have hlow := n.le_toInt
    have hhigh := n.toInt_lt
    exact .integer (by omega) (by omega)
  | string s => exact .string s

theorem exact_fieldMembers {ε : Type} (s : Shape ε) : ∀ m ∈ s.fieldMembers, m.2.Exact :=
  List.forall_mem_map.2 fun f _ ↦ exact_json f.2

theorem exact_lightMembers (mark : String) (p : Paging) : ∀ m ∈ p.lightMembers mark, m.2.Exact := by
  intro m hm
  rcases List.mem_append.1 hm with hm | hm
  · obtain ⟨n, -, rfl⟩ := List.mem_map.1 hm
    have hhigh : n.toNat < 2 ^ 64 := n.toNat_lt
    exact .integer (by omega) (by omega)
  · obtain ⟨address, -, rfl⟩ := List.mem_map.1 hm
    exact .string address

theorem exact_lightLink {link : String × Extent Members}
    (h : ∀ members ∈ link.2.entries, (Json.object members).Exact) : ∀ m ∈ lightLink link, m.2.Exact := by
  intro m hm
  obtain ⟨name, members | ⟨paging, entries⟩⟩ := link
  · obtain rfl := List.mem_singleton.1 hm
    exact h members (List.mem_singleton_self members)
  · rcases List.mem_append.1 hm with hm | hm
    · unfold lightNotes at hm
      split at hm
      · obtain rfl := List.mem_singleton.1 hm
        exact .string name
      · exact exact_lightMembers _ paging m hm
    · obtain rfl := List.mem_singleton.1 hm
      exact .array (List.forall_mem_map.2 h)

theorem exact_lightEntry {item : Item} (h : item.Every Shape.WellFormed) :
    (Json.object (item.fold lightEntry)).Exact := by
  induction h with
  | @mk s hs _ ih =>
  rw [Item.fold_mk]
  refine .object ?_ ?_
  · refine nodup_lightEntry ?_ ?_
    · rw [Shape.names_map]
      exact hs.nodup
    · rw [Shape.names_map]
      exact hs.names
  · rw [lightEntry_map]
    intro m hm
    rw [List.mem_append, List.mem_append] at hm
    rcases hm with (hm | hm) | hm
    · rcases List.mem_cons.1 hm with rfl | hm
      · exact .string s.id
      · rcases List.mem_cons.1 hm with rfl | hm
        · exact .string s.id
        · obtain ⟨etag, -, rfl⟩ := List.mem_map.1 hm
          exact .string etag
    · obtain ⟨link, hlink, hm⟩ := List.mem_flatMap.1 hm
      refine exact_lightLink ?_ m hm
      rw [Extent.entries_map]
      exact List.forall_mem_map.2 (ih link hlink)
    · exact exact_fieldMembers s m hm

theorem exact_light {d : Extent Item} (hd : WellFormed d) : (light d).Exact := by
  cases d with
  | entry item => exact exact_lightEntry (hd item (List.mem_singleton_self item))
  | feed paging items =>
    refine .object ?_ (List.forall_mem_append.2 ⟨exact_lightMembers _ paging, ?_⟩)
    · have hmark : '@' ∉ "value".toList := by decide
      rw [List.map_append, List.map_singleton, ← List.concat_eq_append]
      exact (nodup_lightMembers "@odata." paging).concat (not_mem_lightMembers hmark paging)
    · refine List.forall_mem_singleton.2 (.array (List.forall_mem_map.2 (List.forall_mem_map.2 ?_)))
      exact fun item hitem ↦ exact_lightEntry (hd item hitem)

end Source
end OData
