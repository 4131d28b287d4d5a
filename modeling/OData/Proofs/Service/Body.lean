import Mathlib.Data.List.Induction
import Mathlib.Data.List.Nodup
import OData.Proofs.Fields
import OData.Proofs.Service.Binding
import OData.Proofs.Service.Request
import OData.Schema.Basic

/-!
The body of an entity that is written: its fields, and behind them one member for each navigation that is
bound, in the order in which the links first mention them.
-/

namespace OData

theorem eraseDups_concat {α : Type} [DecidableEq α] (l : List α) (a : α) :
    (l ++ [a]).eraseDups = if a ∈ l then l.eraseDups else l.eraseDups ++ [a] := by
  rw [List.eraseDups_append, List.removeAll]
  split
  · rename_i h
    simp [h]
  · rename_i h
    simp [h, List.eraseDups_cons]

theorem nodup_eraseDups {α : Type} [DecidableEq α] (l : List α) : l.eraseDups.Nodup := by
  induction l using List.reverseRecOn with
  | nil => exact List.nodup_nil
  | append_singleton l a ih =>
    rw [eraseDups_concat]
    split
    · exact ih
    · rename_i h
      refine List.nodup_append.2 ⟨ih, List.nodup_singleton a, ?_⟩
      intro b hb c hc heq
      rw [List.mem_singleton.1 hc] at heq
      exact h (List.mem_eraseDups.1 (heq ▸ hb))

namespace Fields

variable {α β : Type} {member : β → String} {keys : List β} {k : β}

theorem put_append {name : String} {fields : List (String × α)} (h : name ∉ fields.map Prod.fst)
    (v : α) (more : List (String × α)) : put name v (fields ++ more) = fields ++ put name v more := by
  induction fields with
  | nil => rfl
  | cons m rest ih =>
    rw [List.map_cons, List.mem_cons, not_or] at h
    rw [List.cons_append, put, if_neg (Ne.symm h.1), ih h.2, List.cons_append]

/-- A member of many is set in its place, and the others stay as they are. -/
theorem put_map {value value' : β → α} (hinj : Function.Injective member) (hkeys : keys.Nodup)
    (hk : k ∈ keys) (h : ∀ n ∈ keys, n ≠ k → value' n = value n) :
    put (member k) (value' k) (keys.map fun n ↦ (member n, value n)) =
      keys.map fun n ↦ (member n, value' n) := by
  induction keys with
  | nil => contradiction
  | cons n rest ih =>
    obtain ⟨hn, hrest⟩ := List.nodup_cons.1 hkeys
    rw [List.map_cons, List.map_cons, put]
    by_cases hnk : n = k
    · subst hnk
      rw [if_pos rfl]
      congr 1
      refine List.map_congr_left fun m hm ↦ ?_
      have hne : m ≠ n := fun heq ↦ hn (heq ▸ hm)
      rw [h m (List.mem_cons_of_mem _ hm) hne]
    · have hk : k ∈ rest := (List.mem_cons.1 hk).resolve_left (Ne.symm hnk)
      rw [if_neg fun heq ↦ hnk (hinj heq), h n List.mem_cons_self hnk,
        ih hrest hk fun m hm ↦ h m (List.mem_cons_of_mem _ hm)]

theorem find?_map {value : β → α} (hinj : Function.Injective member) (hk : k ∈ keys) :
    find? (member k) (keys.map fun n ↦ (member n, value n)) = some (value k) := by
  induction keys with
  | nil => contradiction
  | cons n rest ih =>
    rw [List.map_cons, find?]
    by_cases hnk : n = k
    · rw [hnk, if_pos rfl]
    · rw [if_neg fun heq ↦ hnk (hinj heq), ih ((List.mem_cons.1 hk).resolve_left (Ne.symm hnk))]

end Fields

namespace Service

/-- A link whose navigation and target are known: the exact name of the navigation, whether it leads to
several entities, and where the target is. -/
structure BoundLink where
  navigation : String
  multivalued : Bool
  uri : String

variable (s : Service)

/-- What a link comes to. -/
def Resolves (pending : List PendingEntity) (collection : Option String) (link : Link)
    (b : BoundLink) : Prop :=
  s.navigation collection link.navigation = .ok (b.navigation, b.multivalued) ∧
    ∃ location, s.locate pending link.target = .ok location ∧ location.uri = b.uri

def memberName (navigation : String) : String :=
  match s.version with
  | .v4 => navigation ++ "@odata.bind"
  | .v3 => navigation

def reference (uri : String) : Json :=
  match s.version with
  | .v4 => .string uri
  | .v3 => .object [("__metadata", .object [("uri", .string uri)])]

/-- What the links under one navigation bind it to: all their targets, or that of the last one. -/
def boundValue (links : List BoundLink) : Json :=
  match links.getLast? with
  | none => .null
  | some last =>
    if last.multivalued then .array (links.map fun b ↦ s.reference b.uri) else s.reference last.uri

/-- The members of a body that bind navigations, in the order of the first link under each. -/
def boundMembers (links : List BoundLink) : List (String × Json) :=
  (links.map BoundLink.navigation).eraseDups.map fun navigation ↦
    (s.memberName navigation, s.boundValue (links.filter (·.navigation = navigation)))

variable {s} {pending : List PendingEntity} {collection : Option String} {entry : Record}
  {links : List Link} {bound earlier later : List BoundLink} {b : BoundLink}
  {fields : List (String × Json)}

theorem binding_eq (s : Service) (navigation uri : String) :
    s.binding navigation uri = (s.memberName navigation, s.reference uri) := by
  unfold binding memberName reference
  cases s.version <;> rfl

theorem memberName_injective (s : Service) : Function.Injective s.memberName := by
  intro n n' h
  have hmember : (s.binding n "").1 = (s.binding n' "").1 := by
    rw [binding_eq, binding_eq]
    exact h
  exact binding_member_inj hmember

theorem fieldsJson_eq (s : Service) (record : Record) :
    s.fieldsJson record = record.map fun m ↦ (m.1, m.2.toJson s.version) := by
  rw [fieldsJson]
  induction record with
  | nil => rfl
  | cons m rest ih =>
    obtain ⟨name, v⟩ := m
    rw [Value.fieldsToJson, ih, List.map_cons]

theorem boundValue_concat (links : List BoundLink) (b : BoundLink) :
    s.boundValue (links ++ [b]) =
      if b.multivalued then .array ((links ++ [b]).map fun b ↦ s.reference b.uri)
      else s.reference b.uri := by
  rw [boundValue, List.getLast?_concat]

theorem filter_concat_of_eq (links : List BoundLink) (b : BoundLink) :
    (links ++ [b]).filter (·.navigation = b.navigation) =
      links.filter (·.navigation = b.navigation) ++ [b] := by
  simp

theorem filter_concat_of_ne {n : String} (h : n ≠ b.navigation) (links : List BoundLink) :
    (links ++ [b]).filter (·.navigation = n) = links.filter (·.navigation = n) := by
  simp [Ne.symm h]

theorem mem_names_boundMembers {n : String} :
    s.memberName n ∈ (s.boundMembers bound).map Prod.fst ↔ n ∈ bound.map BoundLink.navigation := by
  simp only [boundMembers, List.map_map, List.mem_map, Function.comp_apply, List.mem_eraseDups]
  constructor
  · rintro ⟨n', hn', heq⟩
    exact memberName_injective s heq ▸ hn'
  · intro hn
    exact ⟨n, hn, rfl⟩

theorem boundMembers_concat_of_not_mem (h : b.navigation ∉ earlier.map BoundLink.navigation) :
    s.boundMembers (earlier ++ [b]) = s.boundMembers earlier ++
      [(s.memberName b.navigation, s.boundValue [b])] := by
  have hnone : earlier.filter (·.navigation = b.navigation) = [] := by
    rw [List.filter_eq_nil_iff]
    intro d hd heq
    exact h (List.mem_map.2 ⟨d, hd, of_decide_eq_true heq⟩)
  rw [boundMembers, List.map_append, List.map_singleton, eraseDups_concat, if_neg h, List.map_append,
    List.map_singleton, filter_concat_of_eq, hnone, List.nil_append, boundMembers]
  congr 1
  refine List.map_congr_left fun n hn ↦ ?_
  rw [filter_concat_of_ne]
  rintro rfl
  exact h (List.mem_eraseDups.1 hn)

theorem boundMembers_concat_of_mem (h : b.navigation ∈ earlier.map BoundLink.navigation) :
    s.boundMembers (earlier ++ [b]) = Fields.put (s.memberName b.navigation)
      (s.boundValue (earlier.filter (·.navigation = b.navigation) ++ [b])) (s.boundMembers earlier) := by
  rw [← filter_concat_of_eq, boundMembers, boundMembers, List.map_append, List.map_singleton,
    eraseDups_concat, if_pos h]
  refine (Fields.put_map (memberName_injective s) (nodup_eraseDups _) (List.mem_eraseDups.2 h) ?_).symm
  intro n _ hn
  rw [filter_concat_of_ne hn]

theorem find?_boundMembers (hfields : s.memberName b.navigation ∉ fields.map Prod.fst)
    (h : b.navigation ∈ earlier.map BoundLink.navigation) :
    Fields.find? (s.memberName b.navigation) (fields ++ s.boundMembers earlier) =
      some (s.boundValue (earlier.filter (·.navigation = b.navigation))) := by
  rw [Fields.find?_append, Fields.find?_eq_none.2 hfields, Option.none_or, boundMembers]
  exact Fields.find?_map (memberName_injective s) (List.mem_eraseDups.2 h)

theorem exists_getLast? (h : b.navigation ∈ earlier.map BoundLink.navigation) :
    ∃ d, (earlier.filter (·.navigation = b.navigation)).getLast? = some d := by
  obtain ⟨d, hd, heq⟩ := List.mem_map.1 h
  have hmem : d ∈ earlier.filter (·.navigation = b.navigation) :=
    List.mem_filter.2 ⟨hd, decide_eq_true heq⟩
  exact ⟨_, List.getLast?_eq_getLast_of_ne_nil (List.ne_nil_of_mem hmem)⟩

/-- One more link: its navigation is bound behind all others when it is mentioned first, and in its place
later on. -/
theorem bind_boundMembers (hfields : s.memberName b.navigation ∉ fields.map Prod.fst)
    (hsame : ∀ d ∈ earlier, d.navigation = b.navigation → d.multivalued = b.multivalued) :
    bind b.multivalued (s.memberName b.navigation) (s.reference b.uri)
        (fields ++ s.boundMembers earlier) = fields ++ s.boundMembers (earlier ++ [b]) := by
  rw [Service.bind]
  by_cases h : b.navigation ∈ earlier.map BoundLink.navigation
  · rw [boundMembers_concat_of_mem h, boundValue_concat, ← Fields.put_append hfields]
    split
    · rename_i hmultivalued
      have hfind := find?_boundMembers hfields h
      obtain ⟨d, hlast⟩ := exists_getLast? h
      have hearlier : s.boundValue (earlier.filter (·.navigation = b.navigation)) =
          .array ((earlier.filter (·.navigation = b.navigation)).map fun b ↦ s.reference b.uri) := by
        obtain ⟨hmem, hnavigation⟩ := List.mem_filter.1 (List.mem_of_getLast? hlast)
        rw [boundValue, hlast]
        exact if_pos ((hsame d hmem (of_decide_eq_true hnavigation)).trans hmultivalued)
      rw [hfind, hearlier]
      dsimp only
      rw [List.map_append, List.map_singleton]
    · rfl
  · have hall : s.memberName b.navigation ∉ (fields ++ s.boundMembers earlier).map Prod.fst := by
      rw [List.map_append, List.mem_append, not_or]
      exact ⟨hfields, fun hmem ↦ h (mem_names_boundMembers.1 hmem)⟩
    rw [boundMembers_concat_of_not_mem h, ← List.append_assoc, Fields.find?_eq_none.2 hall]
    have hsingle := boundValue_concat (s := s) [] b
    rw [List.nil_append] at hsingle
    rw [hsingle, ← Fields.put_of_not_mem hall]
    split <;> rfl

theorem bindLinks_boundMembers (h : List.Forall₂ (s.Resolves pending collection) links later)
    (hearlier : ∀ d ∈ earlier, ∃ name, s.navigation collection name = .ok (d.navigation, d.multivalued))
    (hfields : ∀ d ∈ later, s.memberName d.navigation ∉ fields.map Prod.fst) :
    s.bindLinks pending collection links (fields ++ s.boundMembers earlier) =
      .ok (fields ++ s.boundMembers (earlier ++ later)) := by
  induction h generalizing earlier with
  | nil =>
    rw [List.append_nil]
    rfl
  | @cons link b links later hb _ ih =>
    obtain ⟨hnavigation, location, hlocation, huri⟩ := hb
    obtain ⟨hfirst, hrest⟩ := List.forall_mem_cons.1 hfields
    have hsame : ∀ d ∈ earlier, d.navigation = b.navigation → d.multivalued = b.multivalued := by
      intro d hd heq
      obtain ⟨name, hname⟩ := hearlier d hd
      exact multivalued_unique (heq ▸ hname) hnavigation
    have hknown : ∀ d ∈ earlier ++ [b],
        ∃ name, s.navigation collection name = .ok (d.navigation, d.multivalued) := by
      intro d hd
      rcases List.mem_append.1 hd with hd | hd
      · exact hearlier d hd
      · exact ⟨link.navigation, List.mem_singleton.1 hd ▸ hnavigation⟩
    refine bindLinks_cons_eq_ok.2 ⟨location, b.navigation, b.multivalued, hlocation, hnavigation, ?_⟩
    rw [binding_eq, huri, bind_boundMembers hfirst hsame, List.append_cons earlier b later]
    exact ih hknown hrest

/-- The body of an entity is its fields as they are, with one member behind them for each navigation that
its links bind, in the order in which the links mention them first. A navigation to several entities has the
references of all its links there in order, under whatever spelling they have, and one to a single entity
that of its last link. No field may have the name of such a member. -/
theorem entityBody_of_resolves (h : List.Forall₂ (s.Resolves pending collection) links bound)
    (hfree : ∀ b ∈ bound, s.memberName b.navigation ∉ entry.map Prod.fst) :
    s.entityBody pending collection entry links =
      .ok (Json.object ((entry.map fun m ↦ (m.1, m.2.toJson s.version)) ++ s.boundMembers bound)).text := by
  have hnames : (s.fieldsJson entry).map Prod.fst = entry.map Prod.fst := by
    rw [fieldsJson_eq, List.map_map]
    rfl
  have hstart : s.fieldsJson entry ++ s.boundMembers [] = s.fieldsJson entry := List.append_nil _
  have hbind := bindLinks_boundMembers h (List.forall_mem_nil _) (hnames ▸ hfree)
  rw [hstart, List.nil_append] at hbind
  rw [← fieldsJson_eq]
  exact entityBody_eq_ok.2 ⟨_, hbind, rfl⟩

/-- A service whose categories lead to their products and to the category above. -/
def pantry : Service where
  formatting :=
    { resolver := (Schema.mk "NS" [⟨"Categories", [],
        [⟨"Products", "Products", true⟩, ⟨"Parent", "Categories", false⟩]⟩,
        ⟨"Products", [], []⟩] []).resolver
      version := .v4 }

/-- Two products and two categories above, one after the other. -/
def stocked : List Link :=
  [⟨"products", .uri "Products(7)"⟩, ⟨"Parent", .uri "Categories(1)"⟩,
    ⟨"Product", .uri "Products(8)"⟩, ⟨"parent", .uri "Categories(2)"⟩]

def stockedBound : List BoundLink :=
  [⟨"Products", true, "Products(7)"⟩, ⟨"Parent", false, "Categories(1)"⟩,
    ⟨"Products", true, "Products(8)"⟩, ⟨"Parent", false, "Categories(2)"⟩]

/-- A category with a field that is named like a navigation. -/
def tea : Record :=
  [("Name", .string "Tea"), ("Parent", .null)]

theorem entityBody_of_resolves_stocked :
    List.Forall₂ (pantry.Resolves [] (some "Categories")) stocked stockedBound ∧
      (∀ b ∈ stockedBound, pantry.memberName b.navigation ∉ tea.map Prod.fst) ∧
      pantry.entityBody [] (some "Categories") tea stocked =
        .ok (Json.object [("Name", .string "Tea"), ("Parent", .null),
          ("Products@odata.bind", .array [.string "Products(7)", .string "Products(8)"]),
          ("Parent@odata.bind", .string "Categories(2)")]).text := by
  have hbound : List.Forall₂ (pantry.Resolves [] (some "Categories")) stocked stockedBound :=
    .cons ⟨rfl, _, rfl, rfl⟩ (.cons ⟨rfl, _, rfl, rfl⟩ (.cons ⟨rfl, _, rfl, rfl⟩
      (.cons ⟨rfl, _, rfl, rfl⟩ .nil)))
  have hfree : ∀ b ∈ stockedBound, pantry.memberName b.navigation ∉ tea.map Prod.fst := by
    decide
  have hmembers : pantry.boundMembers stockedBound =
      [("Products@odata.bind", .array [.string "Products(7)", .string "Products(8)"]),
        ("Parent@odata.bind", .string "Categories(2)")] := by
    rfl
  have hbody := entityBody_of_resolves hbound hfree
  rw [hmembers] at hbody
  exact ⟨hbound, hfree, hbody⟩

end Service
end OData
