import OData.Proofs.Answer
import OData.Service.Request

/-!
What the requests of a service are made of: one equivalence a request, between its answer and the
answers that it is put together from.
-/

namespace OData.Service

variable {s : Service} {pending : List PendingEntity} {collection exact navigation body : String}
  {entry : Record} {links : List Link} {target source : Target} {request : Request} {method : Method}
  {uri : String}

@[simp]
theorem method_writeRequest : (s.writeRequest method uri body).method = method := rfl

@[simp]
theorem uri_writeRequest : (s.writeRequest method uri body).uri = uri := rfl

@[simp]
theorem body_writeRequest : (s.writeRequest method uri body).body = some body := rfl

@[simp]
theorem method_withPreference : (s.withPreference request).method = request.method := by
  rw [withPreference]
  split
  · cases s.version <;> rfl
  · rfl

@[simp]
theorem uri_withPreference : (s.withPreference request).uri = request.uri := by
  rw [withPreference]
  split
  · cases s.version <;> rfl
  · rfl

@[simp]
theorem body_withPreference : (s.withPreference request).body = request.body := by
  rw [withPreference]
  split
  · cases s.version <;> rfl
  · rfl

theorem insertRequest_eq_ok :
    s.insertRequest pending collection entry links = .ok (request, exact) ↔
      s.resolver.collection collection = .ok exact ∧
        ∃ body, s.entityBody pending (some exact) entry links = .ok body ∧
          s.withPreference (s.writeRequest .post (s.absolute exact) body) = request := by
  constructor
  · intro h
    obtain ⟨name, hname, h⟩ := Except.bind_eq_ok.1 h
    obtain ⟨body, hbody, h⟩ := Except.bind_eq_ok.1 h
    obtain ⟨rfl, rfl⟩ := Prod.mk.inj (Except.ok.inj h)
    exact ⟨Except.mapError_eq_ok.1 hname, body, hbody, rfl⟩
  · rintro ⟨hname, body, hbody, rfl⟩
    rw [insertRequest, FormatError.ofName, hname]
    exact Except.bind_eq_ok.2 ⟨exact, rfl, Except.bind_eq_ok.2 ⟨body, hbody, rfl⟩⟩

theorem entityBody_eq_ok {collection : Option String} :
    s.entityBody pending collection entry links = .ok body ↔
      ∃ members, s.bindLinks pending collection links (s.fieldsJson entry) = .ok members ∧
        (Json.object members).text = body := by
  constructor
  · intro h
    obtain ⟨members, hmembers, h⟩ := Except.bind_eq_ok.1 h
    exact ⟨members, hmembers, Except.ok.inj h⟩
  · rintro ⟨members, hmembers, rfl⟩
    exact Except.bind_eq_ok.2 ⟨members, hmembers, rfl⟩

theorem of_updateRequest_eq_ok (h : s.updateRequest pending target entry links = .ok request) :
    ∃ location body, s.locate pending target = .ok location ∧
      s.entityBody pending location.collection entry links = .ok body ∧
      request.uri = location.uri ∧ request.body = some body := by
  obtain ⟨location, hlocation, h⟩ := Except.bind_eq_ok.1 h
  obtain ⟨body, hbody, h⟩ := Except.bind_eq_ok.1 h
  obtain rfl := Except.ok.inj h
  exact ⟨location, body, hlocation, hbody, by simp [Request.withHeader],
    by simp [Request.withHeader]⟩

theorem of_deleteRequest_eq_ok (h : s.deleteRequest pending target = .ok request) :
    ∃ location, s.locate pending target = .ok location ∧ request.uri = location.uri := by
  obtain ⟨location, hlocation, h⟩ := Except.bind_eq_ok.1 h
  obtain rfl := Except.ok.inj h
  exact ⟨location, hlocation, rfl⟩

theorem of_linkRequest_eq_ok (h : s.linkRequest pending source navigation target = .ok request) :
    ∃ origin destination exact multivalued, s.locate pending source = .ok origin ∧
      s.locate pending target = .ok destination ∧
      s.navigation origin.collection navigation = .ok (exact, multivalued) ∧
      request.uri = s.referencesUri origin.uri exact ∧
      request.body = some (s.referenceBody destination.uri) := by
  obtain ⟨origin, horigin, h⟩ := Except.bind_eq_ok.1 h
  obtain ⟨destination, hdestination, h⟩ := Except.bind_eq_ok.1 h
  obtain ⟨⟨exact, multivalued⟩, hexact, h⟩ := Except.bind_eq_ok.1 h
  obtain rfl := Except.ok.inj h
  exact ⟨origin, destination, exact, multivalued, horigin, hdestination, hexact, rfl, rfl⟩

theorem of_unlinkRequest_eq_ok {target : Option Target}
    (h : s.unlinkRequest pending source navigation target = .ok request) :
    ∃ origin exact multivalued member, s.locate pending source = .ok origin ∧
      s.navigation origin.collection navigation = .ok (exact, multivalued) ∧
      request.uri = s.referencesUri origin.uri exact ++ member := by
  obtain ⟨origin, horigin, h⟩ := Except.bind_eq_ok.1 h
  obtain ⟨⟨exact, multivalued⟩, hexact, h⟩ := Except.bind_eq_ok.1 h
  dsimp only at h
  split at h
  · obtain ⟨_, -, h⟩ := Except.bind_eq_ok.1 h
    obtain ⟨member, -, h⟩ := Except.bind_eq_ok.1 h
    obtain rfl := Except.ok.inj h
    exact ⟨origin, exact, _, member, horigin, hexact, rfl⟩
  · obtain rfl := Except.ok.inj h
    exact ⟨origin, exact, _, "", horigin, hexact, rfl⟩

end OData.Service
