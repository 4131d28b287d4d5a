import Mathlib.Logic.Basic
import OData.Proofs.Answer
import OData.Schema.Basic

/-!
Names in a schema. A name leads to what has it in its exact spelling, whatever else it may lead to.
-/

namespace OData

/-- A name leads to an exact one: in its spelling, in any letter case, or in the other grammatical
number. -/
def LeadsTo (name exact : String) : Prop :=
  exact = name ∨ Text.sameIgnoringCase exact name ∨
    Text.lower exact.toList ∈ numberVariants name.toList

instance (name exact : String) : Decidable (LeadsTo name exact) :=
  inferInstanceAs (Decidable (_ ∨ _ ∨ _))

section

variable {α : Type} {key : α → String} {name : String} {items : List α} {a : α}

theorem findByName_eq_or : findByName key name items =
    (items.find? fun a ↦ key a = name).or
      ((items.find? fun a ↦ Text.sameIgnoringCase (key a) name).or
        (items.find? fun a ↦ Text.lower (key a).toList ∈ numberVariants name.toList)) := by
  rw [findByName]
  cases items.find? fun a ↦ key a = name with
  | some a => rfl
  | none => cases items.find? fun a ↦ Text.sameIgnoringCase (key a) name <;> rfl

theorem findByName_eq_none :
    findByName key name items = none ↔ ∀ a ∈ items, ¬ LeadsTo name (key a) := by
  simp only [findByName_eq_or, Option.or_eq_none_iff, List.find?_eq_none, decide_eq_true_eq, LeadsTo,
    not_or]
  constructor
  · rintro ⟨hexact, hcase, hnumber⟩ a ha
    exact ⟨hexact a ha, hcase a ha, hnumber a ha⟩
  · intro h
    exact ⟨fun a ha ↦ (h a ha).1, fun a ha ↦ (h a ha).2.1, fun a ha ↦ (h a ha).2.2⟩

theorem isSome_findByName :
    (findByName key name items).isSome ↔ ∃ a ∈ items, LeadsTo name (key a) := by
  simp only [Option.isSome_iff_ne_none, ne_eq, findByName_eq_none, not_forall, not_not, exists_prop]

theorem mem_of_findByName (h : findByName key name items = some a) : a ∈ items := by
  rw [findByName_eq_or] at h
  rcases Option.or_eq_some_iff.1 h with h | ⟨-, h⟩
  · exact List.mem_of_find?_eq_some h
  · rcases Option.or_eq_some_iff.1 h with h | ⟨-, h⟩
    · exact List.mem_of_find?_eq_some h
    · exact List.mem_of_find?_eq_some h

/-- An exact name is the only one that counts. -/
theorem findByName_of_find? (h : items.find? (fun a ↦ key a = name) = some a) :
    findByName key name items = some a := by
  rw [findByName_eq_or, h, Option.some_or]

theorem find?_eq_key {P : String → Bool} (h : items.find? (fun b ↦ P (key b)) = some a) :
    items.find? (fun b ↦ key b = key a) = some a := by
  obtain ⟨ha, before, after, rfl, hbefore⟩ := List.find?_eq_some_iff_append.1 h
  refine List.find?_eq_some_iff_append.2 ⟨decide_eq_true rfl, before, after, rfl, fun b hb ↦ ?_⟩
  have hne : key b ≠ key a := by
    intro heq
    have hb := hbefore b hb
    rw [heq, ha] at hb
    contradiction
  simp [hne]

/-- What any name leads to is the first of its own name. -/
theorem findByName_key (h : findByName key name items = some a) :
    findByName key (key a) items = some a := by
  refine findByName_of_find? ?_
  rw [findByName_eq_or] at h
  rcases Option.or_eq_some_iff.1 h with h | ⟨-, h⟩
  · exact find?_eq_key (P := fun exact ↦ exact = name) h
  · rcases Option.or_eq_some_iff.1 h with h | ⟨-, h⟩
    · exact find?_eq_key (P := fun exact ↦ Text.sameIgnoringCase exact name) h
    · exact find?_eq_key (P := fun exact ↦ Text.lower exact.toList ∈ numberVariants name.toList) h

/-- What is found has the exact name just where anything has it. -/
theorem map_findByName_eq_some :
    (findByName key name items).map key = some name ↔ name ∈ items.map key := by
  constructor
  · intro h
    obtain ⟨a, ha, hkey⟩ := Option.map_eq_some_iff.1 h
    exact hkey ▸ List.mem_map_of_mem (mem_of_findByName ha)
  · intro h
    obtain ⟨a, ha, hkey⟩ := List.mem_map.1 h
    have hsome : (items.find? fun a ↦ key a = name).isSome :=
      List.find?_isSome.2 ⟨a, ha, decide_eq_true hkey⟩
    obtain ⟨b, hb⟩ := Option.isSome_iff_exists.1 hsome
    have hname : key b = name := by simpa using List.find?_some hb
    rw [findByName_of_find? hb, Option.map_some, hname]

end

namespace Schema

variable {s : Schema} {collection name : String} {c : EntitySet}

def names (s : Schema) : List String :=
  s.collections.map EntitySet.name

theorem isSome_findCollection? :
    (s.findCollection? name).isSome ↔ ∃ exact ∈ s.names, LeadsTo name exact := by
  rw [findCollection?, isSome_findByName, names]
  simp only [List.mem_map, exists_exists_and_eq_and]

theorem collection_eq_ok : s.collection name = .ok c ↔ s.findCollection? name = some c := by
  rw [Schema.collection]
  cases s.findCollection? name with
  | none => simp
  | some other => simp

/-- A collection that is known in one spelling is the answer for it. -/
theorem resolver_collection_eq_ok {exact : String} :
    s.resolver.collection name = .ok exact ↔
      ∃ c, s.findCollection? name = some c ∧ c.name = exact := by
  refine Except.map_eq_ok.trans ?_
  simp only [collection_eq_ok]

theorem resolver_collection_self : s.resolver.collection name = .ok name ↔ name ∈ s.names := by
  rw [resolver_collection_eq_ok, ← Option.map_eq_some_iff]
  exact map_findByName_eq_some

theorem resolver_field_eq_ok {exact : String} :
    s.resolver.field collection name = .ok exact ↔
      ∃ c, s.findCollection? collection = some c ∧
        (findByName Prod.fst name c.fields).map Prod.fst = some exact := by
  refine Except.map_eq_ok.trans ?_
  simp only [Schema.field, Except.bind_eq_ok, collection_eq_ok]
  constructor
  · rintro ⟨f, ⟨c, hc, hf⟩, rfl⟩
    refine ⟨c, hc, ?_⟩
    cases hfound : findByName Prod.fst name c.fields with
    | none => simp [hfound] at hf
    | some other =>
      simp only [hfound, Except.ok.injEq] at hf
      rw [hf, Option.map_some]
  · rintro ⟨c, hc, hf⟩
    obtain ⟨f, hfound, rfl⟩ := Option.map_eq_some_iff.1 hf
    exact ⟨f, ⟨c, hc, by rw [hfound]⟩, rfl⟩

theorem navigation_eq_ok {n : Navigation} :
    s.navigation collection name = .ok n ↔
      ∃ c, s.findCollection? collection = some c ∧
        findByName Navigation.name name c.navigations = some n := by
  simp only [Schema.navigation, Except.bind_eq_ok, collection_eq_ok]
  refine exists_congr fun c ↦ and_congr_right fun _ ↦ ?_
  cases findByName Navigation.name name c.navigations <;> simp

theorem resolver_navigation_eq_ok {exact : String} :
    s.resolver.navigation collection name = .ok exact ↔
      ∃ c, s.findCollection? collection = some c ∧
        (findByName Navigation.name name c.navigations).map Navigation.name = some exact := by
  refine Except.map_eq_ok.trans ?_
  simp only [navigation_eq_ok, Option.map_eq_some_iff]
  constructor
  · rintro ⟨n, ⟨c, hc, hn⟩, rfl⟩
    exact ⟨c, hc, n, hn, rfl⟩
  · rintro ⟨c, hc, n, hn, rfl⟩
    exact ⟨n, ⟨c, hc, hn⟩, rfl⟩

end Schema

end OData
