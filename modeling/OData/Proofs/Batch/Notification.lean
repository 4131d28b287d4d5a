import OData.Proofs.Batch.Correlation

/-!
What the callbacks of a batch hear: every operation before the first failure its own response, the one
that failed the error of the whole call, and no operation behind it anything.
-/

namespace OData

namespace PartOutcome

def succeeded : Option PartOutcome → Bool
  | some (.response p) => p.isSuccess
  | _ => false

/-- The ways in which the operation at an index fails, each with its error. -/
inductive Fails (index : Nat) : Option PartOutcome → BatchError → Prop
  | missing : Fails index none (.malformed (.noResponse index))
  | fault (e : InvalidStatusLine) : Fails index (some (.fault e)) (.partFault index e)
  | refused (p : PartResponse) (h : p.isSuccess = false) :
    Fails index (some (.response p)) (.remoteOperation index p.response.status p.response.body)

variable {outcome : Option PartOutcome}

theorem result_of_succeeded (index : Nat) (h : succeeded outcome) :
    ∃ p, outcome = some (.response p) ∧ p.isSuccess ∧ result index outcome = .ok p := by
  match outcome with
  | some (.response p) => exact ⟨p, rfl, h, if_pos h⟩

theorem result_of_not_succeeded (index : Nat) (h : succeeded outcome = false) :
    ∃ e, Fails index outcome e ∧ result index outcome = .error e := by
  match outcome with
  | none => exact ⟨_, .missing, rfl⟩
  | some (.fault e) => exact ⟨_, .fault e, rfl⟩
  | some (.response p) =>
    have hp : ¬ p.isSuccess := by
      intro hs
      exact Bool.false_ne_true (h.symm.trans hs)
    exact ⟨_, .refused p h, if_neg hp⟩

end PartOutcome

/-- The place of the first operation that did not succeed; the number of operations if all did. -/
def firstFailure (outcomes : List (Option PartOutcome)) : Nat :=
  outcomes.findIdx (!PartOutcome.succeeded ·)

section

variable {outcome : Option PartOutcome} {outcomes : List (Option PartOutcome)} {i : Nat}

theorem firstFailure_cons_of_succeeded (h : PartOutcome.succeeded outcome) :
    firstFailure (outcome :: outcomes) = firstFailure outcomes + 1 := by
  simp [firstFailure, List.findIdx_cons, h]

theorem firstFailure_cons_of_not_succeeded (h : PartOutcome.succeeded outcome = false) :
    firstFailure (outcome :: outcomes) = 0 := by
  simp [firstFailure, List.findIdx_cons, h]

theorem succeeded_of_lt_firstFailure (h : i < firstFailure outcomes) :
    ∃ outcome, outcomes[i]? = some outcome ∧ PartOutcome.succeeded outcome := by
  have hlt : i < outcomes.length := Nat.lt_of_lt_of_le h List.findIdx_le_length
  refine ⟨outcomes[i], List.getElem?_eq_getElem hlt, ?_⟩
  have hi := List.not_of_lt_findIdx h
  simpa using hi

theorem not_succeeded_firstFailure (h : firstFailure outcomes < outcomes.length) :
    ∃ outcome, outcomes[firstFailure outcomes]? = some outcome ∧
      PartOutcome.succeeded outcome = false := by
  unfold firstFailure at h ⊢
  refine ⟨_, List.getElem?_eq_getElem h, ?_⟩
  have hi := List.findIdx_getElem (w := h)
  simpa using hi

end

variable {κ : Type} {outcomes : List (Option PartOutcome)} {callbacks : List (Option κ)} {i : Nat}

/-- What the operation at a place hears, where its callbacks are told. -/
def heardAt (start : Nat) (outcomes : List (Option PartOutcome)) (i : Nat) :
    Except BatchError PartResponse :=
  PartOutcome.result (start + i) outcomes[i]?.join

/-- The notification of the operation at a place, if it has a callback. -/
def notificationAt (callbacks : List (Option κ)) (heard : Nat → Except BatchError PartResponse)
    (i : Nat) : Option (Notification κ) :=
  callbacks[i]?.join.map fun c ↦ ⟨c, heard i⟩

theorem heardAt_cons_succ (start : Nat) (outcome : Option PartOutcome) :
    heardAt start (outcome :: outcomes) (i + 1) = heardAt (start + 1) outcomes i := by
  rw [heardAt, heardAt, List.getElem?_cons_succ, Nat.add_right_comm, Nat.add_assoc]

/-- The callbacks that are told are those of the operations up to the first failure, in order. -/
theorem notifications_dispatchFrom (start : Nat) (hl : outcomes.length = callbacks.length) :
    (dispatchFrom start outcomes callbacks).notifications =
      (List.range (min (firstFailure outcomes + 1) outcomes.length)).filterMap
        (notificationAt callbacks (heardAt start outcomes)) := by
  induction outcomes generalizing start callbacks with
  | nil => rfl
  | cons outcome outcomes ih =>
    cases callbacks with
    | nil => contradiction
    | cons callback callbacks =>
      have hfirst : notificationAt (callback :: callbacks) (heardAt start (outcome :: outcomes)) 0 =
          callback.map fun c ↦ ⟨c, PartOutcome.result start outcome⟩ := rfl
      cases hs : PartOutcome.succeeded outcome with
      | false =>
        obtain ⟨e, -, he⟩ := PartOutcome.result_of_not_succeeded start hs
        rw [firstFailure_cons_of_not_succeeded hs, List.length_cons, Nat.min_eq_left (by omega),
          List.range_one, List.filterMap_cons, hfirst, dispatchFrom, he]
        cases callback <;> rfl
      | true =>
        obtain ⟨p, -, -, hp⟩ := PartOutcome.result_of_succeeded start hs
        have hrest : notificationAt (callback :: callbacks) (heardAt start (outcome :: outcomes)) ∘
            Nat.succ = notificationAt callbacks (heardAt (start + 1) outcomes) := by
          funext i
          rw [Function.comp_apply, notificationAt, notificationAt, heardAt_cons_succ,
            List.getElem?_cons_succ]
        rw [firstFailure_cons_of_succeeded hs, List.length_cons, Nat.add_min_add_right,
          List.range_succ_eq_map, List.filterMap_cons, hfirst, List.filterMap_map, hrest,
          ← ih (start + 1) (Nat.succ.inj hl), dispatchFrom, hp]
        cases callback <;> rfl

theorem result_dispatchFrom_of_failure (start : Nat) (hl : outcomes.length = callbacks.length)
    (hk : firstFailure outcomes < outcomes.length) {e : BatchError}
    (he : heardAt start outcomes (firstFailure outcomes) = .error e) :
    (dispatchFrom start outcomes callbacks).result = .error e := by
  induction outcomes generalizing start callbacks with
  | nil => contradiction
  | cons outcome outcomes ih =>
    cases callbacks with
    | nil => contradiction
    | cons callback callbacks =>
      cases hs : PartOutcome.succeeded outcome with
      | false =>
        rw [firstFailure_cons_of_not_succeeded hs] at he
        have he : PartOutcome.result start outcome = .error e := he
        rw [result_dispatchFrom_cons, he]
        rfl
      | true =>
        obtain ⟨p, -, -, hp⟩ := PartOutcome.result_of_succeeded start hs
        rw [firstFailure_cons_of_succeeded hs] at hk he
        rw [heardAt_cons_succ] at he
        rw [result_dispatchFrom_cons, hp]
        exact Except.map_eq_error.2 (ih (start + 1) (Nat.succ.inj hl) (Nat.lt_of_succ_lt_succ hk) he)

theorem result_dispatchFrom_of_success (start : Nat) (hl : outcomes.length = callbacks.length)
    (hk : firstFailure outcomes = outcomes.length) :
    ∃ rs, (dispatchFrom start outcomes callbacks).result = .ok rs := by
  induction outcomes generalizing start callbacks with
  | nil => exact ⟨[], rfl⟩
  | cons outcome outcomes ih =>
    cases callbacks with
    | nil => contradiction
    | cons callback callbacks =>
      cases hs : PartOutcome.succeeded outcome with
      | false =>
        rw [firstFailure_cons_of_not_succeeded hs] at hk
        contradiction
      | true =>
        obtain ⟨p, -, -, hp⟩ := PartOutcome.result_of_succeeded start hs
        rw [firstFailure_cons_of_succeeded hs] at hk
        obtain ⟨rs, hrs⟩ := ih (start + 1) (Nat.succ.inj hl) (Nat.succ.inj hk)
        refine ⟨p :: rs, ?_⟩
        rw [result_dispatchFrom_cons, hp]
        exact Except.map_eq_ok.2 ⟨rs, hrs, rfl⟩

/-- A dispatch that ends at the first failure. Its notifications are those of the operations up to
there, in order; `heard` is what each of these operations is told. -/
structure EndsAtFirstFailure (outcomes : List (Option PartOutcome)) (callbacks : List (Option κ))
    (heard : Nat → Except BatchError PartResponse) (d : Dispatch κ BatchError) : Prop where
  before : ∀ i < firstFailure outcomes, ∃ p,
    outcomes[i]? = some (some (.response p)) ∧ p.isSuccess ∧ heard i = .ok p
  failure : firstFailure outcomes < outcomes.length → ∃ outcome e,
    outcomes[firstFailure outcomes]? = some outcome ∧
      PartOutcome.Fails (firstFailure outcomes) outcome e ∧
      heard (firstFailure outcomes) = .error e ∧ d.result = .error e
  notifications : d.notifications =
    (List.range (min (firstFailure outcomes + 1) outcomes.length)).filterMap
      (notificationAt callbacks heard)
  success : ∀ rs, d.result = .ok rs ↔
    firstFailure outcomes = outcomes.length ∧ outcomes = rs.map fun p ↦ some (.response p)

theorem endsAtFirstFailure_dispatchFrom (hl : outcomes.length = callbacks.length) :
    EndsAtFirstFailure outcomes callbacks (heardAt 0 outcomes)
      (dispatchFrom 0 outcomes callbacks) := by
  have hfailure : firstFailure outcomes < outcomes.length → ∃ outcome e,
      outcomes[firstFailure outcomes]? = some outcome ∧
        PartOutcome.Fails (firstFailure outcomes) outcome e ∧
        heardAt 0 outcomes (firstFailure outcomes) = .error e ∧
        (dispatchFrom 0 outcomes callbacks).result = .error e := by
    intro hk
    obtain ⟨outcome, ho, hs⟩ := not_succeeded_firstFailure hk
    obtain ⟨e, hfails, he⟩ := PartOutcome.result_of_not_succeeded (firstFailure outcomes) hs
    have hheard : heardAt 0 outcomes (firstFailure outcomes) = .error e := by
      rw [heardAt, Nat.zero_add, ho]
      exact he
    exact ⟨outcome, e, ho, hfails, hheard, result_dispatchFrom_of_failure 0 hl hk hheard⟩
  refine ⟨fun i hi ↦ ?_, hfailure, notifications_dispatchFrom 0 hl, fun rs ↦ ⟨fun h ↦ ?_, ?_⟩⟩
  · obtain ⟨outcome, ho, hs⟩ := succeeded_of_lt_firstFailure hi
    obtain ⟨p, rfl, hp, hresult⟩ := PartOutcome.result_of_succeeded (0 + i) hs
    refine ⟨p, ho, hp, ?_⟩
    rw [heardAt, ho]
    exact hresult
  · have hmap := eq_map_of_dispatchFrom hl h
    rw [List.map_map] at hmap
    refine ⟨?_, hmap⟩
    have hle : firstFailure outcomes ≤ outcomes.length := List.findIdx_le_length
    by_contra hne
    obtain ⟨-, e, -, -, -, he⟩ := hfailure (by omega)
    rw [h] at he
    contradiction
  · rintro ⟨hk, hmap⟩
    obtain ⟨rs', h⟩ := result_dispatchFrom_of_success 0 hl hk
    have hmap' := eq_map_of_dispatchFrom hl h
    rw [List.map_map, hmap] at hmap'
    have hinj : Function.Injective fun p ↦ some (PartOutcome.response p) := by
      intro p q hpq
      exact PartOutcome.response.inj (Option.some.inj hpq)
    rw [h, List.map_injective_iff.2 hinj hmap']

namespace Batch

/-- However a batch came about, the response to it is handed out in the order of its operations, each
callback hears once, and nothing is heard behind the first failure, which is the error of the call. -/
theorem dispatch_up_to_first_failure (service : Service) (boundary changesetBoundary : String)
    (actions : List (BatchAction κ)) (parts : List ResponsePart)
    (outcomes : List (Option PartOutcome)) (run : BatchRun κ)
    (hrun : run = (BatchRun.start service boundary changesetBoundary).run actions)
    (h : correlate run.batch.layout parts run.batch.size = .ok outcomes) :
    outcomes.length = run.batch.size ∧ run.callbacks.length = run.batch.size ∧
      (∃ heard, EndsAtFirstFailure outcomes run.callbacks heard
        (dispatchFrom 0 outcomes run.callbacks)) ∧
      ∀ contentType body, run.batch.outcomes contentType body = .ok outcomes →
        run.batch.dispatch contentType body = dispatchFrom 0 outcomes run.callbacks := by
  have hs : run.Coherent service := by
    rw [hrun]
    exact (BatchRun.coherent_start boundary changesetBoundary).run actions
  have hlength : outcomes.length = run.batch.size := length_of_correlate h
  refine ⟨hlength, hs.callbacks_length,
    ⟨_, endsAtFirstFailure_dispatchFrom (hlength.trans hs.callbacks_length.symm)⟩, ?_⟩
  intro contentType body ho
  rw [dispatch, ho, hs.callbacks]
  rfl

/-- Two writes that are listened to, with a read between them. -/
def watched : BatchRun Nat :=
  (BatchRun.start BatchRun.catalogue "b" "c").run [.call (.delete (.uri "Products(1)")),
    .onResponse ⟨0, some 1⟩ 10, .call (.get (.collection "Products" {})),
    .call (.delete (.uri "Products(2)")), .onResponse ⟨2, some 2⟩ 12]

/-- The changeset is answered as a whole, so its second write has no outcome. -/
def collapsedOutcomes : List (Option PartOutcome) :=
  [some (.response ⟨⟨204, [], ""⟩, none⟩), some (.response ⟨⟨200, [], "[]"⟩, none⟩), none]

theorem dispatch_watched :
    correlate watched.batch.layout [.single (.response ⟨⟨204, [], ""⟩, none⟩),
        .single (.response ⟨⟨200, [], "[]"⟩, none⟩)] watched.batch.size = .ok collapsedOutcomes ∧
      watched.callbacks = [some 10, none, some 12] ∧ firstFailure collapsedOutcomes = 2 ∧
      ∃ heard, EndsAtFirstFailure collapsedOutcomes watched.callbacks heard
        (dispatchFrom 0 collapsedOutcomes watched.callbacks) := by
  have h : correlate watched.batch.layout [.single (.response ⟨⟨204, [], ""⟩, none⟩),
      .single (.response ⟨⟨200, [], "[]"⟩, none⟩)] watched.batch.size = .ok collapsedOutcomes := by
    decide +kernel
  obtain ⟨-, -, hends, -⟩ := dispatch_up_to_first_failure _ _ _ _ _ _ watched rfl h
  exact ⟨h, by decide +kernel, by decide +kernel, hends⟩

end Batch
end OData
