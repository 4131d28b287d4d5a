import OData.Proofs.Json.Reordered
import OData.Proofs.Response.Same
import OData.Proofs.Response.Stray

/-!
Documents that differ in the order of members are the same values, and they are read as parts that differ
in it only.
-/

namespace OData

section

open Value VerboseDate

theorem itemsOfJson_eq (items : List Json) : itemsOfJson items = items.map ofJson := by
  induction items with
  | nil => rfl
  | cons item rest ih => rw [itemsOfJson, List.map_cons, ih]

theorem fieldsOfJson_eq (members : List (String × Json)) :
    fieldsOfJson members = members.map fun m ↦ (m.1, ofJson m.2) := by
  induction members with
  | nil => rfl
  | cons m rest ih => rw [fieldsOfJson, List.map_cons, ih]

/-- Reordered documents are the same value, with moments in verbose notation or without. -/
theorem same_of_reordered {j j' : Json} (h : j.Reordered j') (hd : j.DistinctNames) :
    (ofJson j).Same (ofJson j') ∧ (ofField j).Same (ofField j') := by
  revert hd
  refine h.induct (motive := fun j j' ↦ j.DistinctNames →
    (ofJson j).Same (ofJson j') ∧ (ofField j).Same (ofField j')) ?_ ?_ ?_
  · intro j _
    exact ⟨.refl _, .refl _⟩
  · intro items items' ih hd
    have hitems := (List.forall₂_and_left _ _).2 ⟨Json.distinctNames_array.1 hd, ih⟩
    rw [ofJson, ofJson, ofField, ofField, itemsOfJson_eq, itemsOfJson_eq, ofItems_eq_map,
      ofItems_eq_map]
    refine ⟨.collection ?_, .collection ?_⟩
    all_goals rw [List.forall₂_map_left_iff, List.forall₂_map_right_iff]
    · exact hitems.imp fun j j' h ↦ (h.2 h.1).1
    · exact hitems.imp fun j j' h ↦ (h.2 h.1).2
  · intro members members' ih hd
    obtain ⟨hnames, hvalues⟩ := Json.distinctNames_object.1 hd
    have hrecord : (ofJson (.object members)).Same (ofJson (.object members')) := by
      rw [ofJson, ofJson, fieldsOfJson_eq, fieldsOfJson_eq]
      refine .record fun name ↦ Fields.find?_rel ?_ ?_ name
      · exact ih.map fun m hm m' h ↦ ⟨h.1, (h.2 (hvalues m hm)).1⟩
      · rw [List.map_map]
        exact hnames
    exact ⟨hrecord, hrecord⟩

end

namespace OfJson

/-- Members that differ in their order, and in that of the members within. -/
abbrev Rearranged : Members → Members → Prop :=
  UpToOrder (SameName Json.Reordered)

theorem movedLast_perm (name : String) (members : Members) :
    (movedLast name members).Perm members := by
  unfold movedLast
  split
  · rename_i v others h
    exact (List.perm_append_singleton ..).trans (Fields.perm_of_take? h).symm
  · exact .refl _

theorem distinctNames_movedLast {members : Members} (name : String)
    (h : (Json.object members).DistinctNames) :
    (Json.object (movedLast name members)).DistinctNames := by
  have hp := movedLast_perm name members
  rw [Json.distinctNames_object] at h ⊢
  refine ⟨(hp.map _).nodup_iff.2 h.1, fun m hm ↦ h.2 m (hp.mem_iff.1 hm)⟩

section

variable {members members' : Members} (h : Rearranged members members')
include h

theorem rearranged_movedLast (name : String) :
    Rearranged (movedLast name members) (movedLast name members') :=
  (h.perm_left (movedLast_perm name members)).perm_right (movedLast_perm name members').symm

theorem mem_annotatedProperties {property : List Char} :
    property ∈ annotatedProperties members ↔ property ∈ annotatedProperties members' := by
  refine List.mem_filterMap.trans (Iff.trans ?_ List.mem_filterMap.symm)
  refine h.exists_congr fun m _ m' hm ↦ ?_
  obtain ⟨name, v⟩ := m
  obtain ⟨name', v'⟩ := m'
  obtain rfl : name = name' := hm.1
  exact Iff.rfl

variable (hnames : (members.map Prod.fst).Nodup)
include hnames

theorem contains_eq (name : String) :
    Fields.contains name members = Fields.contains name members' := by
  rw [Fields.contains, Fields.contains]
  rcases rel_forms (Fields.find?_rel h hnames name) with ⟨hfind, hfind'⟩ | ⟨_, _, hfind, hfind', -⟩
  · rw [hfind, hfind']
  · rw [hfind, hfind', Option.isSome_some, Option.isSome_some]

theorem resultsFeed?_rel :
    Option.Rel (fun p q ↦ List.Forall₂ Json.Reordered p.1 q.1 ∧ Rearranged p.2 q.2)
      (resultsFeed? members) (resultsFeed? members') := by
  unfold resultsFeed?
  rcases rel_forms (Fields.take?_rel h hnames "results") with
    ⟨htake, htake'⟩ | ⟨⟨v, others⟩, ⟨v', others'⟩, htake, htake', hv, hothers⟩
  all_goals rw [htake, htake']
  · exact .none
  · dsimp only at hv
    rcases hv.forms with ⟨_, _, rfl, rfl, -⟩ | ⟨_, _, rfl, rfl, hitems⟩ | ⟨rfl, -, harray⟩
    · exact .none
    · exact .some ⟨hitems, hothers⟩
    · cases v with
      | array => contradiction
      | _ => exact .none

end

theorem distinctNames_of_resultsFeed? {members others : Members} {items : List Json}
    (h : resultsFeed? members = some (items, others)) (hd : (Json.object members).DistinctNames) :
    ∀ item ∈ items, item.DistinctNames :=
  Json.distinctNames_array.1 ((Json.distinctNames_object.1 hd).2 _ (mem_of_resultsFeed? h))

namespace Part

/-- Parts that differ in the order of members. -/
inductive Reordered : Part → Part → Prop
  | entry {members members' : Members} (h : Rearranged members members') :
    Reordered (.entry members) (.entry members')
  | feed {items items' : List Json} {notes notes' : Members}
    (hitems : List.Forall₂ Json.Reordered items items') (hnotes : Rearranged notes notes') :
    Reordered (.feed items notes) (.feed items' notes')

def DistinctNames : Part → Prop
  | entry members => (Json.object members).DistinctNames
  | feed items _ => ∀ item ∈ items, item.DistinctNames

theorem distinctNames_ofObject {members : Members} (hd : (Json.object members).DistinctNames) :
    (ofObject members).DistinctNames := by
  unfold ofObject
  split
  · rename_i items others h
    exact distinctNames_of_resultsFeed? h hd
  · exact distinctNames_movedLast "results" hd

theorem ofObject_reordered {members members' : Members} (h : Rearranged members members')
    (hd : (Json.object members).DistinctNames) :
    (ofObject members).Reordered (ofObject members') := by
  unfold ofObject
  rcases rel_forms (resultsFeed?_rel h (Json.distinctNames_object.1 hd).1) with
    ⟨hfeed, hfeed'⟩ | ⟨_, _, hfeed, hfeed', hitems, hothers⟩
  all_goals rw [hfeed, hfeed']
  · exact .entry (rearranged_movedLast h "results")
  · exact .feed hitems hothers

end Part

section

variable {annotated annotated' : List (List Char)} {name : String} {v v' : Json}

theorem distinctNames_of_memberPart? {p : Part} (h : memberPart? annotated name v = some p)
    (hd : v.DistinctNames) : p.DistinctNames := by
  cases expands_of_memberPart? h with
  | object => exact Part.distinctNames_ofObject hd
  | array => exact Json.distinctNames_array.1 hd

theorem memberPart?_rel (hv : v.Reordered v') (hd : v.DistinctNames)
    (hannotated : ∀ property, property ∈ annotated ↔ property ∈ annotated') :
    Option.Rel Part.Reordered (memberPart? annotated name v) (memberPart? annotated' name v') := by
  unfold memberPart?
  split
  · rcases hv.forms with ⟨ms, ms', rfl, rfl, h⟩ | ⟨js, js', rfl, rfl, h⟩ | ⟨rfl, hobject, harray⟩
    · simp only [expansion?, contains_eq h (Json.distinctNames_object.1 hd).1]
      split
      · exact .none
      · exact .some (Part.ofObject_reordered h hd)
    · have hempty : js.isEmpty = js'.isEmpty := by
        cases h <;> rfl
      have hcontains : annotated.contains name.toList = annotated'.contains name.toList := by
        rw [Bool.eq_iff_iff, List.contains_iff_mem, List.contains_iff_mem]
        exact hannotated _
      simp only [expansion?, Json.all_isObject_of_reordered h, hempty, hcontains]
      split
      · exact .some (.feed h (.of_forall₂ .nil))
      · exact .none
    · cases v with
      | object | array => contradiction
      | _ => exact .none
  · exact .none

end

namespace Part

theorem distinctNames_of_mem_children {p child : Part} (h : child ∈ p.children)
    (hd : p.DistinctNames) : child.DistinctNames := by
  cases p with
  | entry members =>
    obtain ⟨m, hm, hpart⟩ := mem_children_entry.1 h
    exact distinctNames_of_memberPart? hpart ((Json.distinctNames_object.1 hd).2 m hm)
  | feed items notes =>
    obtain ⟨item, hitem, members, rfl, rfl⟩ := mem_children_feed.1 h
    exact hd _ hitem

theorem children_rel {p p' : Part} (h : p.Reordered p') (hd : p.DistinctNames) :
    UpToOrder Reordered p.children p'.children := by
  cases h with
  | entry h =>
    refine h.filterMap fun m hm m' hmm' ↦ ?_
    obtain ⟨name, v⟩ := m
    obtain ⟨name', v'⟩ := m'
    obtain ⟨rfl, hv⟩ := hmm'
    exact memberPart?_rel hv ((Json.distinctNames_object.1 hd).2 _ hm)
      fun _ ↦ mem_annotatedProperties h
  | feed hitems =>
    refine (UpToOrder.of_forall₂ hitems).filterMap fun item _ item' hitem ↦ ?_
    rcases hitem.forms with ⟨_, _, rfl, rfl, h⟩ | ⟨_, _, rfl, rfl, -⟩ | ⟨rfl, hobject, -⟩
    · exact .some (.entry h)
    · exact .none
    · cases item with
      | object => contradiction
      | _ => exact .none

theorem exists_hasStray_congr {p p' : Part} (h : p.Reordered p') (hd : p.DistinctNames) :
    (∃ item, p.HasStray item) ↔ ∃ item, p'.HasStray item := by
  induction p using Part.induction generalizing p' with
  | h p ih =>
  have hchildren : (∃ child ∈ p.children, ∃ item, child.HasStray item) ↔
      ∃ child ∈ p'.children, ∃ item, child.HasStray item :=
    (children_rel h hd).exists_congr fun child hchild child' hreordered ↦
      ih child hchild hreordered (distinctNames_of_mem_children hchild hd)
  have hswap : ∀ q : Part, (∃ item, ∃ child ∈ q.children, child.HasStray item) ↔
      ∃ child ∈ q.children, ∃ item, child.HasStray item := by
    intro q
    constructor
    · rintro ⟨item, child, hchild, hstray⟩
      exact ⟨child, hchild, item, hstray⟩
    · rintro ⟨child, hchild, item, hstray⟩
      exact ⟨item, child, hchild, hstray⟩
  cases h with
  | entry h =>
    simp only [hasStray_entry]
    rw [hswap, hswap, hchildren]
  | feed hitems hnotes =>
    have hobjects := (UpToOrder.of_forall₂ hitems).exists_congr
      (P := fun item ↦ item.isObject = false) (Q := fun item ↦ item.isObject = false)
      fun item _ item' hitem ↦ by rw [hitem.isObject_eq]
    simp only [hasStray_feed]
    rw [exists_or, exists_or, hswap, hswap, hchildren, hobjects]

end Part

/-- Contents of documents that differ in the order of members. -/
inductive Content.Reordered : Content → Content → Prop
  | part {p p' : Part} (h : p.Reordered p') (hd : p.DistinctNames) : Reordered (.part p) (.part p')
  | value {v v' : Json} (h : v.Reordered v') (hd : v.DistinctNames) :
    Reordered (.value v) (.value v')

theorem all_isMarked_of_reordered {others others' : Members}
    (h : UpToOrder (SameName Json.Reordered) others others') :
    others.all (fun (name, _) ↦ isMarked name) = others'.all (fun (name, _) ↦ isMarked name) :=
  h.all_eq fun _ _ hm ↦ congrArg isMarked hm.1

section

variable {members members' : Members} (h : Rearranged members members')
  (hd : (Json.object members).DistinctNames)
include h hd

theorem rootContent_reordered : (rootContent members).Reordered (rootContent members') := by
  have hentry : Content.Reordered (.part (.entry members)) (.part (.entry members')) :=
    .part (.entry h) hd
  obtain ⟨hnames, hvalues⟩ := Json.distinctNames_object.1 hd
  unfold rootContent
  rcases rel_forms (Fields.take?_rel h hnames "value") with
    ⟨htake, htake'⟩ | ⟨⟨v, others⟩, ⟨v', others'⟩, htake, htake', hv, hothers⟩
  all_goals rw [htake, htake']
  · exact hentry
  · have hdv : v.DistinctNames := hvalues _ (Fields.mem_of_take? htake).1
    have hmarked := all_isMarked_of_reordered hothers
    dsimp only at hv ⊢
    rw [hmarked]
    split
    · rcases hv.forms with ⟨_, _, rfl, rfl, -⟩ | ⟨js, js', rfl, rfl, hjs⟩ | ⟨rfl, -, harray⟩
      · exact .value hv hdv
      · dsimp only
        rw [Json.all_isObject_of_reordered hjs]
        split
        · exact .part (.feed hjs hothers) (Json.distinctNames_array.1 hdv)
        · exact .value hv hdv
      · cases v with
        | array => contradiction
        | _ => exact .value hv hdv
    · exact hentry

theorem verboseObjectContent_reordered :
    (verboseObjectContent members).Reordered (verboseObjectContent members') := by
  have hentry : Content.Reordered (.part (.entry members)) (.part (.entry members')) :=
    .part (.entry h) hd
  have hlength := h.length_eq
  match members, members' with
  | [], [] => exact hentry
  | _ :: _ :: _, _ :: _ :: _ => exact hentry
  | [(name, v)], [(name', v')] =>
    obtain ⟨m, rest, hperm, hm, -⟩ := h.of_cons
    obtain ⟨rfl, rfl⟩ := List.cons.inj (List.singleton_perm.1 hperm)
    obtain ⟨rfl, hv⟩ := hm
    dsimp only at hv
    simp only [verboseObjectContent, hv.isObject_eq, hv.isArray_eq]
    split
    · exact .value hv ((Json.distinctNames_object.1 hd).2 _ (List.mem_singleton_self _))
    · exact hentry

end

theorem verboseContent_reordered {v v' : Json} (h : v.Reordered v') (hd : v.DistinctNames) :
    (verboseContent v).Reordered (verboseContent v') := by
  rcases h.forms with ⟨ms, ms', rfl, rfl, hms⟩ | ⟨js, js', rfl, rfl, hjs⟩ | ⟨rfl, hobject, harray⟩
  · simp only [verboseContent]
    rcases rel_forms (resultsFeed?_rel hms (Json.distinctNames_object.1 hd).1) with
      ⟨hfeed, hfeed'⟩ | ⟨_, _, hfeed, hfeed', hitems, hothers⟩
    all_goals rw [hfeed, hfeed']
    · exact verboseObjectContent_reordered (rearranged_movedLast hms "results")
        (distinctNames_movedLast "results" hd)
    · exact .part (.feed hitems hothers) (distinctNames_of_resultsFeed? hfeed hd)
  · exact .part (.feed hjs (.of_forall₂ .nil)) (Json.distinctNames_array.1 hd)
  · cases v with
    | object | array => contradiction
    | _ => exact .value h hd

theorem content_reordered {doc doc' : Json} (h : doc.Reordered doc') (hd : doc.DistinctNames) :
    (content doc).Reordered (content doc') := by
  rcases h.forms with ⟨ms, ms', rfl, rfl, hms⟩ | ⟨js, js', rfl, rfl, hjs⟩ | ⟨rfl, hobject, harray⟩
  · obtain ⟨hnames, hvalues⟩ := Json.distinctNames_object.1 hd
    have hroot : (rootContent (movedLast "d" ms)).Reordered (rootContent (movedLast "d" ms')) :=
      rootContent_reordered (rearranged_movedLast hms "d") (distinctNames_movedLast "d" hd)
    simp only [content]
    rcases rel_forms (Fields.take?_rel hms hnames "d") with
      ⟨htake, htake'⟩ | ⟨⟨v, others⟩, ⟨v', others'⟩, htake, htake', hv, hothers⟩
    all_goals rw [htake, htake']
    · exact hroot
    · have hlength := hothers.length_eq
      cases others with
      | nil =>
        obtain rfl := List.length_eq_zero_iff.1 hlength.symm
        exact verboseContent_reordered hv (hvalues _ (Fields.mem_of_take? htake).1)
      | cons m others =>
        obtain ⟨m', others', rfl⟩ := List.exists_cons_of_length_eq_add_one hlength.symm
        exact hroot
  · exact .part (.feed hjs (.of_forall₂ .nil)) (Json.distinctNames_array.1 hd)
  · cases doc with
    | object | array => contradiction
    | _ => exact .value h hd

end OfJson
end OData
