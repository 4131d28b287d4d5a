import OData.Proofs.Batch.Layout
import OData.Proofs.Batch.Run
import OData.Proofs.Service.Binding
import OData.Proofs.Service.Missing

/-!
References to entities that a batch inserts: a request names the part of an earlier insert, or it is
not made at all.
-/

namespace OData

namespace BatchCall

/-- Where a call takes a target: what it changes or leads away from, what it links that to, and what
a navigation of the written entity is bound to. -/
inductive Place
  | addressed
  | linked
  | bound (i : Nat)

variable {s : Service} {pending more : List PendingEntity} {c : BatchCall} {place : Place}
  {target : Target} {request : Request}

def targetAt : BatchCall → Place → Option Target
  | update target _ _, .addressed => some target
  | delete target, .addressed => some target
  | link source _ _, .addressed => some source
  | link _ _ target, .linked => some target
  | unlink source _ _, .addressed => some source
  | insert _ _ _ links, .bound i => links[i]?.map Link.target
  | update _ _ links, .bound i => links[i]?.map Link.target
  | _, _ => none

/-- How a request refers to the target at a place of its call, by its location. -/
def RefersTo (s : Service) (pending : List PendingEntity) (location : Location)
    (request : Request) : BatchCall → Place → Prop
  | update _ _ _, .addressed => request.uri = location.uri
  | delete _, .addressed => request.uri = location.uri
  | link _ navigation _, .addressed => ∃ exact multivalued,
    s.navigation location.collection navigation = .ok (exact, multivalued) ∧
      request.uri = s.referencesUri location.uri exact
  | link _ _ _, .linked => request.body = some (s.referenceBody location.uri)
  | unlink _ navigation _, .addressed => ∃ exact multivalued member,
    s.navigation location.collection navigation = .ok (exact, multivalued) ∧
      request.uri = s.referencesUri location.uri exact ++ member
  | insert _ collection _ links, .bound i => ∃ exact members link,
    s.resolver.collection collection = .ok exact ∧ links[i]? = some link ∧
      s.Binds (some exact) (links.drop (i + 1)) link.navigation location.uri members ∧
      request.body = some (Json.object members).text
  | update target _ links, .bound i => ∃ origin members link,
    s.locate pending target = .ok origin ∧ links[i]? = some link ∧
      s.Binds origin.collection (links.drop (i + 1)) link.navigation location.uri members ∧
      request.body = some (Json.object members).text
  | _, _ => False

theorem isWrite_of_targetAt (h : c.targetAt place = some target) : c.isWrite := by
  cases c with
  | get command => cases place <;> contradiction
  | _ => rfl

theorem binds_of_entityBody {collection : Option String} {entry : Record} {links : List Link}
    {body : String} {i : Nat} (h : s.entityBody pending collection entry links = .ok body)
    (hi : links[i]?.map Link.target = some target) :
    ∃ location members link, s.locate pending target = .ok location ∧ links[i]? = some link ∧
      s.Binds collection (links.drop (i + 1)) link.navigation location.uri members ∧
      body = (Json.object members).text := by
  obtain ⟨members, hmembers, rfl⟩ := Service.entityBody_eq_ok.1 h
  obtain ⟨link, hlink, rfl⟩ := Option.map_eq_some_iff.1 hi
  obtain ⟨location, hlocation, hbinds⟩ := Service.binds_of_bindLinks hmembers hlink
  exact ⟨location, members, link, hlocation, hlink, hbinds, rfl⟩

/-- A request is made only where every target is found, and refers to each by its location. -/
theorem refersTo_of_request (h : c.request s pending = .ok request)
    (ht : c.targetAt place = some target) :
    ∃ location, s.locate pending target = .ok location ∧
      RefersTo s pending location request c place := by
  cases c with
  | insert entity collection entry links =>
    cases place with
    | bound i =>
      obtain ⟨⟨_, exact⟩, hinsert, rfl⟩ := Except.map_eq_ok.1 h
      obtain ⟨hexact, body, hbody, rfl⟩ := Service.insertRequest_eq_ok.1 hinsert
      obtain ⟨location, members, link, hlocation, hlink, hbinds, rfl⟩ := binds_of_entityBody hbody ht
      exact ⟨location, hlocation, exact, members, link, hexact, hlink, hbinds, by simp⟩
    | addressed | linked => contradiction
  | update origin entry links =>
    obtain ⟨found, body, hfound, hbody, huri, hrequest⟩ := Service.of_updateRequest_eq_ok h
    cases place with
    | addressed =>
      obtain rfl := Option.some.inj ht
      exact ⟨found, hfound, huri⟩
    | bound i =>
      obtain ⟨location, members, link, hlocation, hlink, hbinds, rfl⟩ := binds_of_entityBody hbody ht
      exact ⟨location, hlocation, found, members, link, hfound, hlink, hbinds, hrequest⟩
    | linked => contradiction
  | delete origin =>
    cases place with
    | addressed =>
      obtain rfl := Option.some.inj ht
      exact Service.of_deleteRequest_eq_ok h
    | linked | bound => contradiction
  | link source navigation destination =>
    obtain ⟨origin, found, exact, multivalued, horigin, hfound, hexact, huri, hbody⟩ :=
      Service.of_linkRequest_eq_ok h
    cases place with
    | addressed =>
      obtain rfl := Option.some.inj ht
      exact ⟨origin, horigin, exact, multivalued, hexact, huri⟩
    | linked =>
      obtain rfl := Option.some.inj ht
      exact ⟨found, hfound, hbody⟩
    | bound => contradiction
  | unlink source navigation destination =>
    cases place with
    | addressed =>
      obtain rfl := Option.some.inj ht
      obtain ⟨origin, exact, multivalued, member, horigin, hexact, huri⟩ :=
        Service.of_unlinkRequest_eq_ok h
      exact ⟨origin, horigin, exact, multivalued, member, hexact, huri⟩
    | linked | bound => contradiction
  | action | get => cases place <;> contradiction

theorem settled_request (s : Service) (pending more : List PendingEntity) (c : BatchCall) :
    Settled (c.request s pending) (c.request s (pending ++ more)) := by
  cases c with
  | insert entity collection entry links =>
    exact (s.settled_insertRequest pending more collection entry links).map _
  | update target entry links => exact s.settled_updateRequest pending more target entry links
  | delete target => exact s.settled_deleteRequest pending more target
  | link source navigation target =>
    exact s.settled_linkRequest pending more source navigation target
  | unlink source navigation target =>
    exact s.settled_unlinkRequest pending more source navigation target
  | action | get => exact .refl _

end BatchCall

namespace Batch

variable {κ : Type} {b : Batch κ} {i n : Nat}

theorem isWriteAt_of_contentId (h : b.contentIds[i]? = some (some n)) : b.isWriteAt i := by
  rw [contentIds, List.getElem?_map] at h
  obtain ⟨op, hop, hid⟩ := Option.map_eq_some_iff.1 h
  rw [isWriteAt, hop, Option.any_some, Operation.isWrite, hid]
  rfl

/-- Whether a call inserts an entity again. -/
def repeats (b : Batch κ) (c : BatchCall) : Bool :=
  c.inserted?.any fun entity ↦ b.pending.any (·.entity = entity)

theorem repeats_append {c : BatchCall} {more : List PendingEntity} :
    repeats { b with pending := b.pending ++ more } c =
      (b.repeats c || c.inserted?.any fun entity ↦ more.any (·.entity = entity)) := by
  rw [repeats, repeats]
  cases c.inserted? with
  | none => rfl
  | some entity => simp only [Option.any_some, List.any_append]

theorem call_eq_error {c : BatchCall} {e : BatchError} : b.call c = .error e ↔
    if b.repeats c then .malformed .alreadyInserted = e
    else BatchError.ofFormat (c.request b.service b.pending) = .error e := by
  cases c with
  | insert entity collection entry links =>
    rw [call, Batch.insert, repeats, BatchCall.inserted?, Option.any_some]
    split
    · exact ⟨Except.error.inj, congrArg _⟩
    · rw [BatchCall.request]
      generalize b.service.insertRequest b.pending collection entry links = answer
      cases answer with
      | error e' =>
        exact ⟨fun h ↦ congrArg _ (Except.error.inj h), fun h ↦ congrArg _ (Except.error.inj h)⟩
      | ok answer =>
        constructor
        · intro h
          contradiction
        · intro h
          contradiction
  | update | delete | link | unlink | action | get => exact Except.map_eq_error

/-- A call that fails lacks an entity, or fails whatever further entities are inserted. -/
theorem error_of_call {c : BatchCall} {e : BatchError} (h : b.call c = .error e) :
    e = .format (.malformedCommand .notInserted) ∨
      ∀ more, (∀ p ∈ more, c.inserted? ≠ some p.entity) →
        Batch.call { b with pending := b.pending ++ more } c = .error e := by
  rw [call_eq_error] at h
  by_cases hc : b.repeats c
  · rw [if_pos hc] at h
    refine .inr fun more _ ↦ call_eq_error.2 ?_
    rw [repeats_append, hc, Bool.true_or, if_pos rfl]
    exact h
  · rw [if_neg hc] at h
    obtain ⟨e', he', rfl⟩ := Except.mapError_eq_error.1 h
    by_cases hmissing : e' = .malformedCommand .notInserted
    · exact .inl (congrArg BatchError.format hmissing)
    · refine .inr fun more hmore ↦ call_eq_error.2 ?_
      -- The further entities do not make the call an insert for the second time.
      have hnew : ¬ c.inserted?.any fun entity ↦ more.any (·.entity = entity) := by
        intro h
        obtain ⟨entity, hentity, hmem⟩ := (Option.any_eq_true _ _).1 h
        obtain ⟨p, hp, hpe⟩ := List.any_eq_true.1 hmem
        exact hmore p hp (hentity.trans (congrArg some (of_decide_eq_true hpe).symm))
      rw [repeats_append, eq_false_of_ne_true hc, Bool.false_or, if_neg hnew]
      rcases BatchCall.settled_request b.service b.pending more c with hfirst | hsame
      · rw [hfirst] at he'
        exact absurd (Except.error.inj he').symm hmissing
      · exact Except.mapError_eq_error.2 ⟨e', hsame.symm.trans he', rfl⟩

end Batch

namespace BatchRun

variable {κ : Type} {service : Service} {s : BatchRun κ} {c : BatchCall} {q : Queued} {e : EntityId}
  {place : BatchCall.Place} {i : Nat}

theorem locate_pending {pending : List PendingEntity} {location : Location}
    (h : service.locate pending (.pending e) = .ok location) :
    ∃ p ∈ pending, p.entity = e ∧
      location = { uri := contentReference p.contentId, collection := some p.collection } := by
  rw [Service.locate] at h
  split at h
  · rename_i p hp
    obtain ⟨hmem, hentity⟩ := PendingEntity.mem_of_find? hp
    exact ⟨p, hmem, hentity, (Except.ok.inj h).symm⟩
  · contradiction

theorem Coherent.refersTo (hs : s.Coherent service) (hq : s.queued[i]? = some q)
    (ht : q.call.targetAt place = some (.pending e)) :
    ∃ j p n request, j < i ∧ s.Posts service j p ∧ p.entity = e ∧
      q.handle.contentId = some n ∧ p.contentId < n ∧ s.batch.requests[i]? = some request ∧
      BatchCall.RefersTo service (Queued.inserted service (s.queued.take i))
        { uri := contentReference p.contentId, collection := some p.collection } request q.call
        place ∧
      ∃ writes, s.batch.layout.filterMap Slot.changeset? = [writes] ∧ i ∈ writes ∧ j ∈ writes := by
  obtain ⟨request, hr, hrequest⟩ := hs.requests i q hq
  obtain ⟨location, hlocation, hrefers⟩ := BatchCall.refersTo_of_request hrequest ht
  obtain ⟨p, hp, hentity, rfl⟩ := locate_pending hlocation
  obtain ⟨q', hq', hqp⟩ := List.mem_filterMap.1 hp
  obtain ⟨j, hj⟩ := List.mem_iff_getElem?.1 hq'
  rw [List.getElem?_take] at hj
  split at hj
  · rename_i hji
    have hposts := hs.posts_of_queued hj hqp
    obtain ⟨n, hn⟩ := hs.contentId_of_isWrite hq (BatchCall.isWrite_of_targetAt ht)
    obtain ⟨hi, -⟩ := hs.handle_eq hq
    rw [hn] at hi
    obtain ⟨-, -, -, -, -, -, hpn, -⟩ := id hposts
    obtain ⟨writes, hwrites, hmem⟩ := s.batch.changeset?_layout (Batch.isWriteAt_of_contentId hi)
    exact ⟨j, p, n, request, hji, hposts, hentity, hn, hs.contentId_lt hji hpn hi, hr, hrefers, writes,
      hwrites, (hmem i).2 (Batch.isWriteAt_of_contentId hi),
      (hmem j).2 (Batch.isWriteAt_of_contentId hpn)⟩
  · contradiction

/-- An entity that has not been inserted before cannot be referred to. -/
theorem Coherent.error_of_missing (hs : s.Coherent service)
    (ht : c.targetAt place = some (.pending e)) (hq : ∀ q ∈ s.queued, q.call.inserted? ≠ some e) :
    ∃ error, s.batch.call c = .error error := by
  cases hc : s.batch.call c with
  | error error => exact ⟨error, rfl⟩
  | ok answer =>
    obtain ⟨request, ha⟩ := Batch.accepts_of_call hc
    obtain ⟨location, hlocation, -⟩ := BatchCall.refersTo_of_request ha.request_eq ht
    obtain ⟨p, hp, rfl, -⟩ := locate_pending hlocation
    have hmem : p.entity ∈ s.queued.filterMap fun q ↦ q.call.inserted? := by
      rw [← hs.entities]
      exact List.mem_map_of_mem hp
    obtain ⟨q, hqs, hinserted⟩ := List.mem_filterMap.1 hmem
    exact absurd hinserted (hq q hqs)

theorem perform_of_error {error : BatchError} (h : s.batch.call c = .error error) :
    s.perform (.call c) = s := by
  rw [BatchRun.perform, h]

/-- A category, and a product in it. -/
def categorized : BatchRun Nat :=
  (start catalogue "b" "c").run [.call (.insert ⟨0⟩ "Categories" [] []),
    .call (.insert ⟨1⟩ "Products" [] [⟨"category", .pending ⟨0⟩⟩])]

end BatchRun
end OData
