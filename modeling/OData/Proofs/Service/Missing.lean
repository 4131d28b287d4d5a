import OData.Service.Request

/-!
What requests make of entities that have not been inserted: a request that does not fail for want of
one comes to the same with any further entities.
-/

namespace OData

theorem PendingEntity.find?_append {entity : EntityId} {pending : List PendingEntity}
    {p : PendingEntity} (h : find? entity pending = some p) (more : List PendingEntity) :
    find? entity (pending ++ more) = some p := by
  induction pending with
  | nil => contradiction
  | cons first rest ih =>
    rw [find?] at h
    rw [List.cons_append, find?]
    split at h
    · rename_i hf
      rw [if_pos hf, h]
    · rename_i hf
      rw [if_neg hf, ih h]

theorem PendingEntity.mem_of_find? {entity : EntityId} {pending : List PendingEntity}
    {p : PendingEntity} (h : find? entity pending = some p) : p ∈ pending ∧ p.entity = entity := by
  induction pending with
  | nil => contradiction
  | cons first rest ih =>
    rw [find?] at h
    split at h
    · rename_i hf
      obtain rfl := Option.some.inj h
      exact ⟨List.mem_cons_self, hf⟩
    · obtain ⟨hmem, hentity⟩ := ih h
      exact ⟨List.mem_cons_of_mem _ hmem, hentity⟩

/-- An answer that lacks an entity, or that stands. -/
def Settled {α : Type} (answer later : Except FormatError α) : Prop :=
  answer = .error (.malformedCommand .notInserted) ∨ answer = later

namespace Settled

variable {α β : Type} {x y : Except FormatError α}

theorem refl (x : Except FormatError α) : Settled x x :=
  .inr rfl

theorem bind {f g : α → Except FormatError β} (h : Settled x y) (hf : ∀ a, Settled (f a) (g a)) :
    Settled (x >>= f) (y >>= g) := by
  obtain rfl | rfl := h
  · exact .inl rfl
  · cases x with
    | error e => exact .refl _
    | ok a => exact hf a

theorem map (f : α → β) (h : Settled x y) : Settled (x.map f) (y.map f) := by
  obtain rfl | rfl := h
  · exact .inl rfl
  · exact .refl _

end Settled

namespace Service

variable (s : Service) (pending more : List PendingEntity)

theorem settled_locate (target : Target) :
    Settled (s.locate pending target) (s.locate (pending ++ more) target) := by
  cases target with
  | entity command => exact .refl _
  | uri uri => exact .refl _
  | pending entity =>
    rw [locate, locate]
    cases h : PendingEntity.find? entity pending with
    | none => exact .inl rfl
    | some p =>
      rw [PendingEntity.find?_append h]
      exact .refl _

theorem settled_bindLinks (collection : Option String) (links : List Link)
    (body : List (String × Json)) :
    Settled (s.bindLinks pending collection links body)
      (s.bindLinks (pending ++ more) collection links body) := by
  induction links generalizing body with
  | nil => exact .refl _
  | cons link rest ih =>
    rw [bindLinks, bindLinks]
    exact (s.settled_locate pending more link.target).bind fun location ↦
      (Settled.refl _).bind fun navigation ↦ ih _

theorem settled_entityBody (collection : Option String) (entry : Record) (links : List Link) :
    Settled (s.entityBody pending collection entry links)
      (s.entityBody (pending ++ more) collection entry links) :=
  (s.settled_bindLinks pending more collection links _).bind fun _ ↦ .refl _

theorem settled_insertRequest (collection : String) (entry : Record) (links : List Link) :
    Settled (s.insertRequest pending collection entry links)
      (s.insertRequest (pending ++ more) collection entry links) :=
  (Settled.refl _).bind fun exact ↦
    (s.settled_entityBody pending more (some exact) entry links).bind fun _ ↦ .refl _

theorem settled_updateRequest (target : Target) (entry : Record) (links : List Link) :
    Settled (s.updateRequest pending target entry links)
      (s.updateRequest (pending ++ more) target entry links) :=
  (s.settled_locate pending more target).bind fun location ↦
    (s.settled_entityBody pending more location.collection entry links).bind fun _ ↦ .refl _

theorem settled_deleteRequest (target : Target) :
    Settled (s.deleteRequest pending target) (s.deleteRequest (pending ++ more) target) :=
  (s.settled_locate pending more target).bind fun _ ↦ .refl _

theorem settled_linkRequest (source : Target) (navigation : String) (target : Target) :
    Settled (s.linkRequest pending source navigation target)
      (s.linkRequest (pending ++ more) source navigation target) :=
  (s.settled_locate pending more source).bind fun _ ↦
    (s.settled_locate pending more target).bind fun _ ↦ .refl _

theorem settled_unlinkRequest (source : Target) (navigation : String) (target : Option Target) :
    Settled (s.unlinkRequest pending source navigation target)
      (s.unlinkRequest (pending ++ more) source navigation target) := by
  refine (s.settled_locate pending more source).bind fun origin ↦ (Settled.refl _).bind ?_
  rintro ⟨exact, multivalued⟩
  cases multivalued with
  | false => exact .refl _
  | true =>
    cases target with
    | none => exact .refl _
    | some target =>
      exact (s.settled_locate pending more target).bind fun _ ↦ .refl _

end Service
end OData
