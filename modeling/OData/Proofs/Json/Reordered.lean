import OData.Json.Basic
import OData.Proofs.Fields

/-!
Documents that differ in the order of the members of their objects.
-/

namespace OData.Json

/-- The members of objects may stand in another order, at any depth. -/
inductive Reordered : Json → Json → Prop
  | refl (j : Json) : Reordered j j
  | array {items items' : List Json} (h : List.Forall₂ Reordered items items') :
    Reordered (.array items) (.array items')
  | object {members ordered members' : List (String × Json)} (hp : members.Perm ordered)
    (hn : ordered.map Prod.fst = members'.map Prod.fst)
    (hv : List.Forall₂ Reordered (ordered.map Prod.snd) (members'.map Prod.snd)) :
    Reordered (.object members) (.object members')

mutual

/-- The members of every object in a document. -/
def objects : Json → List (List (String × Json))
  | array items => itemObjects items
  | object members => members :: memberObjects members
  | _ => []

def itemObjects : List Json → List (List (String × Json))
  | [] => []
  | item :: rest => objects item ++ itemObjects rest

def memberObjects : List (String × Json) → List (List (String × Json))
  | [] => []
  | (_, v) :: rest => objects v ++ memberObjects rest

end

theorem itemObjects_eq (items : List Json) : itemObjects items = items.flatMap objects := by
  induction items with
  | nil => rfl
  | cons item rest ih => rw [itemObjects, List.flatMap_cons, ih]

theorem memberObjects_eq (members : List (String × Json)) :
    memberObjects members = members.flatMap fun m ↦ objects m.2 := by
  induction members with
  | nil => rfl
  | cons m rest ih => rw [memberObjects, List.flatMap_cons, ih]

/-- No object has two members of one name. -/
def DistinctNames (j : Json) : Prop :=
  ∀ members ∈ j.objects, (members.map Prod.fst).Nodup

/-- No object has two members, so that there is one order only. -/
def HasOneOrder (j : Json) : Prop :=
  ∀ members ∈ j.objects, members.length ≤ 1

instance (j : Json) : Decidable j.DistinctNames :=
  inferInstanceAs (Decidable (∀ members ∈ j.objects, (members.map Prod.fst).Nodup))

instance (j : Json) : Decidable j.HasOneOrder :=
  inferInstanceAs (Decidable (∀ members ∈ j.objects, members.length ≤ 1))

theorem forall_objects_array {P : List (String × Json) → Prop} {items : List Json} :
    (∀ o ∈ (array items).objects, P o) ↔ ∀ item ∈ items, ∀ o ∈ item.objects, P o := by
  rw [objects, itemObjects_eq]
  simp only [List.mem_flatMap, forall_exists_index, and_imp]
  exact forall_comm.trans (forall_congr' fun item ↦ forall_comm)

theorem forall_objects_object {P : List (String × Json) → Prop} {members : List (String × Json)} :
    (∀ o ∈ (object members).objects, P o) ↔
      P members ∧ ∀ m ∈ members, ∀ o ∈ m.2.objects, P o := by
  rw [objects, memberObjects_eq, List.forall_mem_cons]
  simp only [List.mem_flatMap, forall_exists_index, and_imp]
  exact and_congr_right' (forall_comm.trans (forall_congr' fun m ↦ forall_comm))

theorem distinctNames_array {items : List Json} :
    (array items).DistinctNames ↔ ∀ item ∈ items, item.DistinctNames :=
  forall_objects_array

theorem distinctNames_object {members : List (String × Json)} :
    (object members).DistinctNames ↔
      (members.map Prod.fst).Nodup ∧ ∀ m ∈ members, m.2.DistinctNames :=
  forall_objects_object

/-- What holds of every document and itself, and carries over from the parts to the whole, holds of
reordered documents. -/
theorem Reordered.induct {j j' : Json} (h : j.Reordered j') {motive : Json → Json → Prop}
    (hrefl : ∀ j, motive j j)
    (harray : ∀ items items', List.Forall₂ motive items items' →
      motive (.array items) (.array items'))
    (hobject : ∀ members members', UpToOrder (SameName motive) members members' →
      motive (.object members) (.object members')) : motive j j' := by
  -- the recursor has a second motive, for the lists that the relation nests through
  refine @Reordered.rec (fun j j' _ ↦ motive j j') (fun js js' _ ↦ List.Forall₂ motive js js')
    hrefl ?_ ?_ ?_ ?_ j j' h
  · intro items items' _ ih
    exact harray items items' ih
  · intro members ordered members' hp hn _ ih
    exact hobject members members' ⟨ordered, hp, Fields.forall₂_sameName hn ih⟩
  · exact .nil
  · intro j j' js js' _ _ ih ihs
    exact .cons ih ihs

variable {j j' : Json} {js js' : List Json} {ms ms' : List (String × Json)}

theorem Reordered.items (h : Reordered (.array js) (.array js')) : List.Forall₂ Reordered js js' := by
  cases h with
  | refl => exact List.forall₂_same.2 fun item _ ↦ .refl item
  | array h => exact h

theorem Reordered.members (h : Reordered (.object ms) (.object ms')) :
    UpToOrder (SameName Reordered) ms ms' := by
  cases h with
  | refl => exact .of_forall₂ (List.forall₂_same.2 fun m _ ↦ ⟨rfl, .refl m.2⟩)
  | object hp hn hv => exact ⟨_, hp, Fields.forall₂_sameName hn hv⟩

/-- Reordered documents are objects both, or arrays both, or they are equal. -/
theorem Reordered.forms (h : j.Reordered j') :
    (∃ ms ms', j = .object ms ∧ j' = .object ms' ∧ UpToOrder (SameName Reordered) ms ms') ∨
      (∃ js js', j = .array js ∧ j' = .array js' ∧ List.Forall₂ Reordered js js') ∨
      j = j' ∧ j.isObject = false ∧ j.isArray = false := by
  cases h with
  | object hp hn hv => exact .inl ⟨_, _, rfl, rfl, _, hp, Fields.forall₂_sameName hn hv⟩
  | array h => exact .inr (.inl ⟨_, _, rfl, rfl, h⟩)
  | refl =>
    cases j with
    | object ms => exact .inl ⟨ms, ms, rfl, rfl, (Reordered.refl _).members⟩
    | array js => exact .inr (.inl ⟨js, js, rfl, rfl, (Reordered.refl _).items⟩)
    | _ => exact .inr (.inr ⟨rfl, rfl, rfl⟩)

theorem Reordered.isObject_eq (h : j.Reordered j') : j.isObject = j'.isObject := by
  cases h <;> rfl

theorem Reordered.isArray_eq (h : j.Reordered j') : j.isArray = j'.isArray := by
  cases h <;> rfl

theorem all_isObject_of_reordered (h : List.Forall₂ Reordered js js') :
    js.all isObject = js'.all isObject := by
  induction h with
  | nil => rfl
  | cons h _ ih => rw [List.all_cons, List.all_cons, h.isObject_eq, ih]

/-- There is no other order of objects with one member. -/
theorem Reordered.eq_of_hasOneOrder (h : j.Reordered j') (ho : j.HasOneOrder) : j = j' := by
  revert ho
  refine h.induct (motive := fun j j' ↦ j.HasOneOrder → j = j') (fun _ _ ↦ rfl) ?_ ?_
  · intro items items' ih ho
    have hitems := forall_objects_array.1 ho
    congr 1
    clear ho
    induction ih with
    | nil => rfl
    | cons h _ ihs =>
      obtain ⟨hitem, hrest⟩ := List.forall_mem_cons.1 hitems
      rw [h hitem, ihs hrest]
  · intro members members' ih ho
    obtain ⟨hlength, hvalues⟩ := forall_objects_object.1 ho
    obtain ⟨ordered, hordered, ih⟩ := ih
    match members, hlength with
    | [], _ =>
      obtain rfl := hordered.nil_eq
      cases ih
      rfl
    | [m], _ =>
      obtain rfl := List.singleton_perm.1 hordered
      cases ih with
      | cons h hnil =>
        cases hnil
        rw [← Prod.ext h.1 (h.2 (hvalues _ (List.mem_singleton_self _)))]

end OData.Json
