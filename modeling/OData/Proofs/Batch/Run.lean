import Mathlib.Data.List.Nodup
import OData.Client
import OData.Proofs.Service.Request
import OData.Schema.Basic

/-!
Runs of a batch: calls that queue an operation or fail, and callbacks set in between. What an accepted
call does is said once, and carried through every run as an invariant.
-/

namespace OData

inductive BatchAction (κ : Type)
  | call (c : BatchCall)
  | onResponse (handle : PartHandle) (callback : κ)

/-- A call that was accepted, with the handle that it returned. -/
structure Queued where
  call : BatchCall
  handle : PartHandle

/-- A batch with the calls that it has accepted, in order, and with a list of callbacks that is kept
beside it. -/
structure BatchRun (κ : Type) where
  batch : Batch κ
  queued : List Queued := []
  callbacks : List (Option κ) := []

namespace BatchCall

def isWrite : BatchCall → Bool
  | get _ => false
  | _ => true

def inserted? : BatchCall → Option EntityId
  | insert entity _ _ _ => some entity
  | _ => none

/-- The request that a call makes, where some entities have been inserted before. -/
def request (s : Service) (pending : List PendingEntity) : BatchCall → Except FormatError Request
  | insert _ collection entry links =>
    (s.insertRequest pending collection entry links).map Prod.fst
  | update target entry links => s.updateRequest pending target entry links
  | delete target => s.deleteRequest pending target
  | link source navigation target => s.linkRequest pending source navigation target
  | unlink source navigation target => s.unlinkRequest pending source navigation target
  | action command arguments => s.actionRequest command arguments
  | get command => s.queryRequest command

end BatchCall

namespace Queued

variable {s : Service} {q : Queued} {p : PendingEntity}

/-- The entity that an accepted call has inserted, by its part and the exact name of its collection. -/
def pending? (s : Service) (q : Queued) : Option PendingEntity :=
  match q.call with
  | .insert entity collection _ _ =>
    match q.handle.contentId, s.resolver.collection collection with
    | some contentId, .ok exact => some ⟨entity, contentId, exact⟩
    | _, _ => none
  | _ => none

theorem pending?_eq_some : q.pending? s = some p ↔
    ∃ collection entry links, q.call = .insert p.entity collection entry links ∧
      q.handle.contentId = some p.contentId ∧
      s.resolver.collection collection = .ok p.collection := by
  rw [pending?]
  constructor
  · intro h
    split at h
    · rename_i entity collection entry links hc
      split at h
      · rename_i contentId exact hn he
        obtain rfl := Option.some.inj h
        exact ⟨collection, entry, links, hc, hn, he⟩
      · contradiction
    · contradiction
  · rintro ⟨collection, entry, links, hc, hn, he⟩
    simp [hc, hn, he]

theorem pending?_eq_none (h : q.call.inserted? = none) : q.pending? s = none := by
  rw [Option.eq_none_iff_forall_ne_some]
  intro p hp
  obtain ⟨collection, entry, links, hc, -⟩ := pending?_eq_some.1 hp
  rw [hc] at h
  contradiction

/-- The entities that a list of accepted calls has inserted. -/
def inserted (s : Service) (queued : List Queued) : List PendingEntity :=
  queued.filterMap (pending? s)

theorem inserted_concat (queued : List Queued) :
    inserted s (queued ++ [q]) = inserted s queued ++ (q.pending? s).toList := by
  rw [inserted, inserted, List.filterMap_append]
  cases h : q.pending? s <;> simp [h]

end Queued

namespace Batch

variable {κ : Type} {b b' : Batch κ} {c : BatchCall} {h : PartHandle}

def requests (b : Batch κ) : List Request :=
  b.operations.map Operation.request

def contentIds (b : Batch κ) : List (Option Nat) :=
  b.operations.map Operation.contentId

def callbacks (b : Batch κ) : List (Option κ) :=
  b.operations.map Operation.callback

/-- What an accepted call does to a batch, and the handle that it returns. -/
structure Accepts (b : Batch κ) (c : BatchCall) (request : Request) (h : PartHandle)
    (b' : Batch κ) : Prop where
  request_eq : c.request b.service b.pending = .ok request
  handle : h = ⟨b.size, if c.isWrite then some b.nextContentId else none⟩
  service : b'.service = b.service
  operations : b'.operations = b.operations ++ [{ request, contentId := h.contentId }]
  nextContentId : b'.nextContentId = b.nextContentId + if c.isWrite then 1 else 0
  pending : b'.pending = b.pending ++ (Queued.pending? b.service ⟨c, h⟩).toList
  new : ∀ e, c.inserted? = some e → ∀ p ∈ b.pending, p.entity ≠ e

theorem accepts_of_write (hw : c.isWrite) (hi : c.inserted? = none)
    (hc : b.write (c.request b.service b.pending) = .ok (h, b')) :
    ∃ request, b.Accepts c request h b' := by
  obtain ⟨request, hr, he⟩ := Except.map_eq_ok.1 hc
  obtain ⟨rfl, rfl⟩ := Prod.mk.inj he
  exact ⟨request, Except.mapError_eq_ok.1 hr, by simp [hw], rfl, rfl,
    by simp [hw], by simp [Queued.pending?_eq_none, hi], by simp [hi]⟩

theorem accepts_of_insert {entity : EntityId} {collection : String} {entry : Record}
    {links : List Link} (hc : b.insert entity collection entry links = .ok (h, b')) :
    ∃ request, b.Accepts (.insert entity collection entry links) request h b' := by
  by_cases hn : b.pending.any (·.entity = entity)
  · rw [insert, if_pos hn] at hc
    contradiction
  · rw [insert, if_neg hn] at hc
    obtain ⟨⟨request, exact⟩, hr, he⟩ := Except.bind_eq_ok.1 hc
    obtain ⟨rfl, rfl⟩ := Prod.mk.inj (Except.ok.inj he)
    have hr := Except.mapError_eq_ok.1 hr
    obtain ⟨hexact, -⟩ := Service.insertRequest_eq_ok.1 hr
    refine ⟨request, Except.map_eq_ok.2 ⟨_, hr, rfl⟩, rfl, rfl, rfl, rfl, ?_, ?_⟩
    · simp [Queued.pending?, hexact]
    · intro e he p hp hpe
      obtain rfl := Option.some.inj he
      exact hn (List.any_eq_true.2 ⟨p, hp, decide_eq_true hpe⟩)

theorem accepts_of_call (hc : b.call c = .ok (h, b')) : ∃ request, b.Accepts c request h b' := by
  cases c with
  | insert => exact accepts_of_insert hc
  | get command =>
    obtain ⟨request, hr, he⟩ := Except.map_eq_ok.1 hc
    obtain ⟨rfl, rfl⟩ := Prod.mk.inj he
    exact ⟨request, Except.mapError_eq_ok.1 hr, rfl, rfl, rfl, rfl, by simp [Queued.pending?],
      nofun⟩
  | update | delete | link | unlink | action => exact accepts_of_write rfl rfl hc

theorem Accepts.entity {request : Request} (ha : b.Accepts c request h b') :
    (Queued.pending? b.service ⟨c, h⟩).map (·.entity) = c.inserted? := by
  cases c with
  | insert entity collection entry links =>
    obtain ⟨⟨_, exact⟩, hr, -⟩ := Except.map_eq_ok.1 ha.request_eq
    obtain ⟨hexact, -⟩ := Service.insertRequest_eq_ok.1 hr
    have hid : h.contentId = some b.nextContentId := by
      rw [ha.handle]
      rfl
    simp [Queued.pending?, hexact, hid, BatchCall.inserted?]
  | _ => rfl

/-- Setting a callback changes nothing else. -/
theorem map_onResponse {α : Type} (f : Operation κ → α)
    (hf : ∀ op k, f { op with callback := k } = f op) (k : κ) :
    (b.onResponse h k).operations.map f = b.operations.map f := by
  refine List.ext_getElem? fun i ↦ ?_
  rw [onResponse, List.getElem?_map, List.getElem?_map, List.getElem?_modify,
    Option.map_eq_map, Option.map_map]
  refine congrArg (Option.map · _) (funext fun op ↦ ?_)
  by_cases hi : h.index = i
  · simp [hi, hf]
  · simp [hi]

theorem callbacks_onResponse (k : κ) :
    (b.onResponse h k).callbacks = b.callbacks.set h.index (some k) := by
  refine List.ext_getElem? fun i ↦ ?_
  rw [callbacks, callbacks, onResponse, List.getElem?_map, List.getElem?_modify, List.getElem?_set]
  by_cases hi : h.index = i
  · subst hi
    by_cases hlt : h.index < b.operations.length
    · simp [hlt]
    · simp [hlt]
  · simp [hi]

end Batch

namespace BatchRun

variable {κ : Type}

/-- A call that fails leaves everything as it is. -/
def perform (s : BatchRun κ) : BatchAction κ → BatchRun κ
  | .call c =>
    match s.batch.call c with
    | .ok (handle, batch) => ⟨batch, s.queued ++ [⟨c, handle⟩], s.callbacks ++ [none]⟩
    | .error _ => s
  | .onResponse handle callback =>
    ⟨s.batch.onResponse handle callback, s.queued, s.callbacks.set handle.index (some callback)⟩

def run (s : BatchRun κ) (actions : List (BatchAction κ)) : BatchRun κ :=
  actions.foldl perform s

def start (service : Service) (boundary changesetBoundary : String) : BatchRun κ :=
  { batch := service.startBatch boundary changesetBoundary }

def writes (s : BatchRun κ) : Nat :=
  s.queued.countP (·.call.isWrite)

/-- What holds of a batch with the calls that it has accepted. -/
structure Coherent (service : Service) (s : BatchRun κ) : Prop where
  service_eq : s.batch.service = service
  callbacks : s.callbacks = s.batch.callbacks
  callbacks_length : s.callbacks.length = s.batch.size
  handles : s.queued.map Queued.handle = s.batch.contentIds.mapIdx PartHandle.mk
  numbered_iff_write :
    s.batch.contentIds.map Option.isSome = s.queued.map fun q ↦ q.call.isWrite
  numbers : s.batch.contentIds.filterMap id = List.range' 1 s.writes
  nextContentId : s.batch.nextContentId = s.writes + 1
  pending : s.batch.pending = Queued.inserted service s.queued
  entities : s.batch.pending.map (·.entity) = s.queued.filterMap fun q ↦ q.call.inserted?
  nodup : (s.batch.pending.map (·.entity)).Nodup
  /-- Every operation is the request that its call made of what had been inserted before it. -/
  requests : ∀ (i : Nat) (q : Queued), s.queued[i]? = some q →
    ∃ request, s.batch.requests[i]? = some request ∧
      q.call.request service (Queued.inserted service (s.queued.take i)) = .ok request

variable {service : Service} {s : BatchRun κ} {c : BatchCall} {request : Request} {h : PartHandle}
  {b' : Batch κ}

theorem getElem?_concat_eq_some {α : Type} {l : List α} {a b : α} {i : Nat}
    (h : (l ++ [a])[i]? = some b) : l[i]? = some b ∨ i = l.length ∧ a = b := by
  rcases Nat.lt_trichotomy i l.length with hi | rfl | hi
  · rw [List.getElem?_append_left hi] at h
    exact .inl h
  · rw [List.getElem?_concat_length] at h
    exact .inr ⟨rfl, Option.some.inj h⟩
  · rw [List.getElem?_eq_none (by simpa using Nat.succ_le_of_lt hi)] at h
    contradiction

theorem Coherent.length_queued (hs : s.Coherent service) :
    s.queued.length = s.batch.operations.length := by
  have hl := congrArg List.length hs.handles
  simpa [Batch.contentIds] using hl

theorem Coherent.accept (hs : s.Coherent service) (ha : s.batch.Accepts c request h b') :
    Coherent service ⟨b', s.queued ++ [⟨c, h⟩], s.callbacks ++ [none]⟩ := by
  have hcallbacks : s.callbacks ++ [none] = b'.callbacks := by
    rw [hs.callbacks, Batch.callbacks, Batch.callbacks, ha.operations, List.map_append]
    rfl
  have hids : b'.contentIds = s.batch.contentIds ++ [h.contentId] := by
    simp [Batch.contentIds, ha.operations]
  have hlength := hs.length_queued
  have hid : h.contentId = if c.isWrite then some s.batch.nextContentId else none := by
    rw [ha.handle]
  have hwrites : writes ⟨b', s.queued ++ [⟨c, h⟩], s.callbacks ++ [none]⟩ =
      s.writes + if c.isWrite then 1 else 0 := by
    simp [writes, List.countP_singleton]
  constructor
  case service_eq => exact ha.service.trans hs.service_eq
  case callbacks => exact hcallbacks
  case callbacks_length =>
    rw [hcallbacks, Batch.callbacks, List.length_map]
    rfl
  case handles =>
    -- The handle has the place that the operation takes, which is the number of those before it.
    have hindex : h = ⟨s.batch.contentIds.length, h.contentId⟩ := by
      rw [Batch.contentIds, List.length_map, hid]
      exact ha.handle
    rw [List.map_append, hs.handles, hids, List.mapIdx_concat, ← hindex]
    rfl
  case numbered_iff_write =>
    rw [hids, List.map_append, List.map_append, hs.numbered_iff_write]
    cases hw : c.isWrite <;> simp [hid, hw]
  case numbers =>
    rw [hids, List.filterMap_append, hs.numbers, hwrites, hid, hs.nextContentId]
    cases hw : c.isWrite
    · simp
    · rw [if_pos rfl, if_pos rfl, List.range'_1_concat]
      simp [Nat.add_comm]
  case nextContentId =>
    rw [hwrites, Nat.add_right_comm, ← hs.nextContentId]
    exact ha.nextContentId
  case pending =>
    rw [ha.pending, hs.pending, hs.service_eq, Queued.inserted_concat]
  case entities =>
    rw [ha.pending, List.map_append, hs.entities, List.filterMap_append, ← Option.toList_map,
      ha.entity]
    cases hi : c.inserted? <;> simp [hi]
  case nodup =>
    rw [ha.pending, List.map_append, ← Option.toList_map, ha.entity]
    cases hi : c.inserted? with
    | none => simpa using hs.nodup
    | some e =>
      rw [Option.toList_some, List.nodup_append]
      refine ⟨hs.nodup, List.nodup_singleton e, fun e' he' e'' he'' ↦ ?_⟩
      obtain ⟨p, hp, rfl⟩ := List.mem_map.1 he'
      rw [List.mem_singleton.1 he'']
      exact ha.new e hi p hp
  case requests =>
    have hrequests : b'.requests = s.batch.requests ++ [request] := by
      simp [Batch.requests, ha.operations]
    intro i q hq
    obtain hq | ⟨rfl, rfl⟩ := getElem?_concat_eq_some hq
    · obtain ⟨r, hr, hmade⟩ := hs.requests i q hq
      refine ⟨r, ?_, ?_⟩
      · rw [hrequests, List.getElem?_append_left (List.getElem?_eq_some_iff.1 hr).1, hr]
      · have hi := (List.getElem?_eq_some_iff.1 hq).1
        rwa [List.take_append_of_le_length (Nat.le_of_lt hi)]
    · refine ⟨request, ?_, ?_⟩
      · rw [hrequests, hlength, Batch.requests]
        simp
      · rw [List.take_left' rfl, ← hs.pending, ← hs.service_eq]
        exact ha.request_eq

theorem Coherent.handle_eq (hs : s.Coherent service) {i : Nat} {q : Queued}
    (hq : s.queued[i]? = some q) :
    s.batch.contentIds[i]? = some q.handle.contentId ∧ q.handle.index = i := by
  have hi := congrArg (·[i]?) hs.handles
  simp only [List.getElem?_map, hq, List.getElem?_mapIdx, Option.map_some] at hi
  obtain ⟨contentId, hid, hh⟩ := Option.map_eq_some_iff.1 hi.symm
  rw [hid, ← hh]
  exact ⟨rfl, rfl⟩

theorem Coherent.contentId_of_isWrite (hs : s.Coherent service) {i : Nat} {q : Queued}
    (hq : s.queued[i]? = some q) (hw : q.call.isWrite) : ∃ n, q.handle.contentId = some n := by
  have hi := congrArg (·[i]?) hs.numbered_iff_write
  simp only [List.getElem?_map, (hs.handle_eq hq).1, hq, Option.map_some, Option.some.injEq] at hi
  exact Option.isSome_iff_exists.1 (hi.trans hw)

/-- The operation at a place is the request that inserts an entity. -/
def Posts (service : Service) (s : BatchRun κ) (i : Nat) (p : PendingEntity) : Prop :=
  ∃ collection entry links request,
    s.queued[i]? = some ⟨.insert p.entity collection entry links, ⟨i, some p.contentId⟩⟩ ∧
      service.resolver.collection collection = .ok p.collection ∧
      s.batch.contentIds[i]? = some (some p.contentId) ∧ s.batch.requests[i]? = some request ∧
      request.method = .post ∧ request.uri = service.absolute p.collection

theorem Coherent.posts_of_queued (hs : s.Coherent service) {i : Nat} {q : Queued} {p : PendingEntity}
    (hq : s.queued[i]? = some q) (hp : q.pending? service = some p) : s.Posts service i p := by
  obtain ⟨collection, entry, links, hc, hid, hexact⟩ := Queued.pending?_eq_some.1 hp
  obtain ⟨hcontent, hindex⟩ := hs.handle_eq hq
  obtain ⟨r, hr, hmade⟩ := hs.requests i q hq
  rw [hc] at hmade
  obtain ⟨⟨request, exact⟩, hinsert, rfl⟩ := Except.map_eq_ok.1 hmade
  obtain ⟨hexact', body, -, rfl⟩ := Service.insertRequest_eq_ok.1 hinsert
  rw [hexact] at hexact'
  obtain rfl := Except.ok.inj hexact'
  refine ⟨collection, entry, links, _, ?_, hexact, ?_, hr, by simp, by simp⟩
  · rw [hq, ← hc, ← hid, ← hindex]
  · rw [hcontent, hid]

theorem Coherent.posts (hs : s.Coherent service) {p : PendingEntity} (hp : p ∈ s.batch.pending) :
    ∃ i, s.Posts service i p := by
  rw [hs.pending] at hp
  obtain ⟨q, hq, hqp⟩ := List.mem_filterMap.1 hp
  obtain ⟨i, hi⟩ := List.mem_iff_getElem?.1 hq
  exact ⟨i, hs.posts_of_queued hi hqp⟩

theorem Coherent.contentId_lt (hs : s.Coherent service) {i j n m : Nat} (hij : i < j)
    (hi : s.batch.contentIds[i]? = some (some n)) (hj : s.batch.contentIds[j]? = some (some m)) :
    n < m := by
  have hp : (s.batch.contentIds.filterMap id).Pairwise (· < ·) := by
    rw [hs.numbers]
    exact List.pairwise_lt_range'
  rw [List.pairwise_filterMap, List.pairwise_iff_getElem] at hp
  obtain ⟨hilt, hin⟩ := List.getElem?_eq_some_iff.1 hi
  obtain ⟨hjlt, hjm⟩ := List.getElem?_eq_some_iff.1 hj
  exact hp i j hilt hjlt hij n hin m hjm

theorem Coherent.onResponse (hs : s.Coherent service) (k : κ) :
    Coherent service
      ⟨s.batch.onResponse h k, s.queued, s.callbacks.set h.index (some k)⟩ := by
  have hcallbacks : s.callbacks.set h.index (some k) = (s.batch.onResponse h k).callbacks := by
    rw [Batch.callbacks_onResponse, hs.callbacks]
  have hids : (s.batch.onResponse h k).contentIds = s.batch.contentIds :=
    Batch.map_onResponse _ (fun _ _ ↦ rfl) k
  have hrequests : (s.batch.onResponse h k).requests = s.batch.requests :=
    Batch.map_onResponse _ (fun _ _ ↦ rfl) k
  exact {
    service_eq := hs.service_eq
    callbacks := hcallbacks
    callbacks_length := by
      rw [hcallbacks, Batch.callbacks, List.length_map]
      rfl
    handles := hids ▸ hs.handles
    numbered_iff_write := hids ▸ hs.numbered_iff_write
    numbers := hids ▸ hs.numbers
    nextContentId := hs.nextContentId
    pending := hs.pending
    entities := hs.entities
    nodup := hs.nodup
    requests := hrequests ▸ hs.requests }

theorem Coherent.perform (hs : s.Coherent service) (action : BatchAction κ) :
    (s.perform action).Coherent service := by
  cases action with
  | call c =>
    rw [BatchRun.perform]
    split
    · rename_i handle batch hc
      obtain ⟨request, ha⟩ := Batch.accepts_of_call hc
      exact hs.accept ha
    · exact hs
  | onResponse handle callback => exact hs.onResponse callback

theorem coherent_start (boundary changesetBoundary : String) :
    (start service boundary changesetBoundary : BatchRun κ).Coherent service := by
  constructor
  all_goals simp [start, Service.startBatch, Batch.callbacks, Batch.contentIds, Batch.size,
    Batch.requests, writes, Queued.inserted]

theorem Coherent.run (hs : s.Coherent service) (actions : List (BatchAction κ)) :
    (s.run actions).Coherent service := by
  induction actions generalizing s with
  | nil => exact hs
  | cons action rest ih => exact ih (hs.perform action)

theorem run_of_error {actions : List (BatchAction κ)} {before after : List (BatchAction κ)}
    {e : BatchError} (h : actions = before ++ .call c :: after)
    (he : (s.run before).batch.call c = .error e) : s.run actions = s.run (before ++ after) := by
  have hc : (s.run before).perform (.call c) = s.run before := by
    rw [BatchRun.perform, he]
  rw [h, BatchRun.run, List.foldl_append, List.foldl_cons]
  rw [BatchRun.run] at hc
  rw [hc, BatchRun.run, List.foldl_append]

/-- A service of products in categories. -/
def catalogue : Service where
  formatting := { version := .v4, resolver := (Schema.mk "NS"
    [⟨"Products", [("Name", .string)], [⟨"Category", "Categories", false⟩]⟩,
      ⟨"Categories", [("Name", .string)], [⟨"Products", "Products", true⟩]⟩] []).resolver }

end BatchRun
end OData
