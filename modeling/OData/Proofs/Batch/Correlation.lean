import Mathlib.Data.List.Forall2
import OData.Batch.Dispatch
import OData.Proofs.Answer
import OData.Proofs.Batch.Layout
import OData.Proofs.Batch.Run

/-!
Correlation undoes the layout: the parts of a response come in the order of the slots, and every
outcome goes to the operation that it answers.
-/

namespace OData

def ResponsePart.outcomes : ResponsePart → List PartOutcome
  | single outcome => [outcome]
  | changeset outcomes => outcomes

namespace Slot

/-- The part that answers a slot, where the outcome of every operation is given. -/
def answer (o : Nat → PartOutcome) : Slot Nat → ResponsePart
  | read i => .single (o i)
  | changeset writes => .changeset (writes.map o)

/-- A part that answers a slot. A changeset of one write may be answered by a part of its own. -/
inductive Answered (os : List PartOutcome) : Slot Nat → ResponsePart → Prop
  | read {i : Nat} {o : PartOutcome} (h : os[i]? = some o) : Answered os (.read i) (.single o)
  | changeset {writes : List Nat} {answers : List PartOutcome}
    (h : writes.map (os[·]?) = answers.map some) :
    Answered os (.changeset writes) (.changeset answers)
  | collapsed {i : Nat} {o : PartOutcome} (h : os[i]? = some o) :
    Answered os (.changeset [i]) (.single o)

variable {os : List PartOutcome} {slot : Slot Nat} {part : ResponsePart}

theorem Answered.outcomes (h : Answered os slot part) :
    slot.toList.map (os[·]?) = part.outcomes.map some := by
  cases h with
  | read h | collapsed h => simp [toList, ResponsePart.outcomes, h]
  | changeset h => exact h

/-- The outcomes of a response, one after the other, are those of the operations in the order of the
slots. -/
theorem outcomes_of_answered {slots : List (Slot Nat)} {parts : List ResponsePart}
    (h : List.Forall₂ (Answered os) slots parts) :
    (slots.flatMap toList).map (os[·]?) = (parts.flatMap ResponsePart.outcomes).map some := by
  induction h with
  | nil => rfl
  | cons hpart _ ih =>
    rw [List.flatMap_cons, List.flatMap_cons, List.map_append, List.map_append, hpart.outcomes, ih]

end Slot

variable {os answers : List PartOutcome} {indices : List Nat} {slot : Slot Nat}
  {slots : List (Slot Nat)} {part : ResponsePart} {parts : List ResponsePart}
  {outcomes result : List (Option PartOutcome)} {i n : Nat}

@[simp]
theorem length_setOutcomes (indices : List Nat) (answers : List PartOutcome)
    (outcomes : List (Option PartOutcome)) :
    (setOutcomes indices answers outcomes).length = outcomes.length := by
  induction indices generalizing answers outcomes with
  | nil => rfl
  | cons index rest ih =>
    cases answers with
    | nil => rfl
    | cons answer answers => rw [setOutcomes, ih, List.length_set]

theorem getElem?_setOutcomes_of_not_mem (h : i ∉ indices) :
    (setOutcomes indices answers outcomes)[i]? = outcomes[i]? := by
  induction indices generalizing answers outcomes with
  | nil => rfl
  | cons index rest ih =>
    obtain ⟨hne, hrest⟩ := not_or.1 (mt List.mem_cons.2 h)
    cases answers with
    | nil => rfl
    | cons answer answers => rw [setOutcomes, ih hrest, List.getElem?_set_ne (Ne.symm hne)]

/-- Where the places are different, each has the answer that was set there. -/
theorem map_getElem?_setOutcomes (hd : indices.Nodup) (hl : indices.length = answers.length)
    (hi : ∀ i ∈ indices, i < outcomes.length) :
    indices.map ((setOutcomes indices answers outcomes)[·]?) =
      answers.map fun answer ↦ some (some answer) := by
  induction indices generalizing answers outcomes with
  | nil =>
    rw [List.length_eq_zero_iff.1 hl.symm]
    rfl
  | cons index rest ih =>
    cases answers with
    | nil => contradiction
    | cons answer answers =>
      obtain ⟨hnew, hrest⟩ := List.nodup_cons.1 hd
      rw [setOutcomes, List.map_cons, List.map_cons, ih hrest (Nat.succ.inj hl) fun i h ↦ ?_,
        getElem?_setOutcomes_of_not_mem hnew, List.getElem?_set_self (hi index List.mem_cons_self)]
      rw [List.length_set]
      exact hi i (List.mem_cons_of_mem _ h)

/-- Setting outcomes at some places: they have the given ones afterwards, and all others are as they
were. -/
structure Fills (os : List PartOutcome) (indices : List Nat)
    (outcomes result : List (Option PartOutcome)) : Prop where
  length : result.length = outcomes.length
  filled : ∀ i ∈ indices, i < outcomes.length → result[i]? = some os[i]?
  kept : ∀ i, i ∉ indices → result[i]? = outcomes[i]?

theorem fills_setOutcomes (h : indices.map (os[·]?) = answers.map some) :
    Fills os indices outcomes (setOutcomes indices answers outcomes) := by
  refine ⟨length_setOutcomes _ _ _, ?_, fun i ↦ getElem?_setOutcomes_of_not_mem⟩
  induction indices generalizing answers outcomes with
  | nil => simp
  | cons index rest ih =>
    cases answers with
    | nil => contradiction
    | cons answer answers =>
      obtain ⟨hanswer, hanswers⟩ := List.cons.inj h
      intro i hi hlt
      rw [setOutcomes]
      by_cases hr : i ∈ rest
      · exact ih hanswers i hr (by rwa [List.length_set])
      · obtain rfl := (List.mem_cons.1 hi).resolve_right hr
        rw [getElem?_setOutcomes_of_not_mem hr, List.getElem?_set_self hlt]
        exact congrArg some hanswer.symm

theorem Fills.append {is₁ is₂ : List Nat} {middle : List (Option PartOutcome)}
    (h₁ : Fills os is₁ outcomes middle) (h₂ : Fills os is₂ middle result) :
    Fills os (is₁ ++ is₂) outcomes result := by
  refine ⟨h₂.length.trans h₁.length, fun i hi hlt ↦ ?_, fun i hi ↦ ?_⟩
  · by_cases hr : i ∈ is₂
    · exact h₂.filled i hr (h₁.length ▸ hlt)
    · rw [h₂.kept i hr]
      exact h₁.filled i ((List.mem_append.1 hi).resolve_right hr) hlt
  · obtain ⟨hl, hr⟩ := not_or.1 (mt List.mem_append.2 hi)
    rw [h₂.kept i hr, h₁.kept i hl]

/-- What a part sets, wherever it fits its slot at all. -/
theorem eq_setOutcomes_of_correlatePart (h : correlatePart outcomes slot part = .ok result) :
    result = setOutcomes slot.toList part.outcomes outcomes := by
  cases slot with
  | read i =>
    cases part with
    | single o => exact (Except.ok.inj h).symm
    | changeset answers => contradiction
  | changeset writes =>
    cases part with
    | single o => exact (Except.ok.inj h).symm
    | changeset answers =>
      rw [correlatePart] at h
      split at h
      · exact (Except.ok.inj h).symm
      · contradiction

theorem correlatePart_of_answered (h : Slot.Answered os slot part) :
    correlatePart outcomes slot part = .ok (setOutcomes slot.toList part.outcomes outcomes) := by
  cases h with
  | read h | collapsed h => rfl
  | changeset h =>
    have hl := congrArg List.length h
    rw [List.length_map, List.length_map] at hl
    rw [correlatePart, if_pos hl]
    rfl

theorem correlateParts_of_answered (h : List.Forall₂ (Slot.Answered os) slots parts) :
    ∃ result, correlateParts slots parts outcomes = .ok result ∧
      Fills os (slots.flatMap Slot.toList) outcomes result := by
  induction h generalizing outcomes with
  | nil => exact ⟨outcomes, rfl, rfl, by simp, fun _ _ ↦ rfl⟩
  | cons hpart _ ih =>
    obtain ⟨result, hresult, hfills⟩ := ih
    refine ⟨result, Except.bind_eq_ok.2 ⟨_, correlatePart_of_answered hpart, hresult⟩, ?_⟩
    rw [List.flatMap_cons]
    exact (fills_setOutcomes hpart.outcomes).append hfills

section

variable (h : correlatePart outcomes slot part = .ok result) (hd : slot.toList.Nodup)
  (hu : ∀ i ∈ slot.toList, outcomes[i]? = some none)
  (hr : ∀ i ∈ slot.toList, ∃ o, os[i]? = some o ∧ result[i]? = some (some o))

include h hd hu hr

theorem outcomes_of_correlatePart (hl : slot.toList.length = part.outcomes.length) :
    slot.toList.map (os[·]?) = part.outcomes.map some := by
  have hlt : ∀ i ∈ slot.toList, i < outcomes.length := fun i hi ↦
    (List.getElem?_eq_some_iff.1 (hu i hi)).1
  have hresult := map_getElem?_setOutcomes hd hl hlt
  have hos : slot.toList.map (result[·]?) = (slot.toList.map (os[·]?)).map some := by
    rw [List.map_map]
    refine List.map_congr_left fun i hi ↦ ?_
    obtain ⟨o, ho, hi⟩ := hr i hi
    rw [Function.comp_apply, hi, ho]
  rw [← eq_setOutcomes_of_correlatePart h, hos] at hresult
  rw [← List.map_inj_right fun _ _ ↦ Option.some.inj, hresult, List.map_map]
  rfl

/-- A part that fits its slot answers it, where in the end every operation of the slot has an
outcome. -/
theorem answered_of_correlatePart (hne : slot.toList ≠ []) : Slot.Answered os slot part := by
  have hos := outcomes_of_correlatePart h hd hu hr
  cases slot with
  | read i =>
    cases part with
    | single o => exact .read (List.cons.inj (hos rfl)).1
    | changeset answers => contradiction
  | changeset writes =>
    cases part with
    | changeset answers =>
      refine .changeset (hos ?_)
      by_cases hl : writes.length = answers.length
      · exact hl
      · rw [correlatePart, if_neg hl] at h
        contradiction
    | single o =>
      obtain ⟨i, rest, hw⟩ := List.exists_cons_of_ne_nil hne
      obtain rfl : writes = i :: rest := hw
      cases rest with
      | nil => exact .collapsed (List.cons.inj (hos rfl)).1
      | cons j rest =>
        -- The second write has no outcome then.
        obtain ⟨o', -, hj⟩ := hr j (List.mem_cons_of_mem _ List.mem_cons_self)
        have hij : i ≠ j := fun hij ↦ (List.nodup_cons.1 hd).1 (hij ▸ List.mem_cons_self)
        obtain rfl : outcomes.set i (some o) = result := Except.ok.inj h
        rw [List.getElem?_set_ne hij, hu j (List.mem_cons_of_mem _ List.mem_cons_self)] at hj
        exact absurd (Option.some.inj hj) nofun

end

theorem kept_of_correlateParts (h : correlateParts slots parts outcomes = .ok result) :
    result.length = outcomes.length ∧
      ∀ i, i ∉ slots.flatMap Slot.toList → result[i]? = outcomes[i]? := by
  induction slots generalizing parts outcomes with
  | nil =>
    obtain rfl := Except.ok.inj h
    exact ⟨rfl, fun _ _ ↦ rfl⟩
  | cons slot slots ih =>
    cases parts with
    | nil =>
      obtain rfl := Except.ok.inj h
      exact ⟨rfl, fun _ _ ↦ rfl⟩
    | cons part parts =>
      obtain ⟨middle, hpart, hparts⟩ := Except.bind_eq_ok.1 h
      obtain rfl := eq_setOutcomes_of_correlatePart hpart
      obtain ⟨hlength, hkept⟩ := ih hparts
      refine ⟨hlength.trans (length_setOutcomes _ _ _), fun i hi ↦ ?_⟩
      obtain ⟨hslot, hslots⟩ := not_or.1 (mt List.mem_append.2 hi)
      rw [hkept i hslots, getElem?_setOutcomes_of_not_mem hslot]

theorem answered_of_correlateParts (hl : slots.length = parts.length)
    (h : correlateParts slots parts outcomes = .ok result)
    (hne : ∀ slot ∈ slots, slot.toList ≠ []) (hd : (slots.flatMap Slot.toList).Nodup)
    (hu : ∀ i ∈ slots.flatMap Slot.toList, outcomes[i]? = some none)
    (hr : ∀ i ∈ slots.flatMap Slot.toList, ∃ o, os[i]? = some o ∧ result[i]? = some (some o)) :
    List.Forall₂ (Slot.Answered os) slots parts := by
  induction slots generalizing parts outcomes with
  | nil =>
    rw [List.length_eq_zero_iff.1 hl.symm]
    exact .nil
  | cons slot slots ih =>
    cases parts with
    | nil => contradiction
    | cons part parts =>
      obtain ⟨middle, hpart, hparts⟩ := Except.bind_eq_ok.1 h
      obtain ⟨hdslot, hdslots, hdisjoint⟩ := List.nodup_append.1 hd
      obtain ⟨-, hkept⟩ := kept_of_correlateParts hparts
      -- What this part has set is still there in the end, as no later slot has a place of this one.
      have hleft : ∀ i ∈ slot.toList, i ∉ slots.flatMap Slot.toList := fun i hi hi' ↦
        hdisjoint i hi i hi' rfl
      refine .cons (answered_of_correlatePart hpart hdslot
        (fun i hi ↦ hu i (List.mem_append_left _ hi)) (fun i hi ↦ ?_)
        (hne slot List.mem_cons_self)) ?_
      · rw [← hkept i (hleft i hi)]
        exact hr i (List.mem_append_left _ hi)
      · refine ih (Nat.succ.inj hl) hparts (fun slot h ↦ hne slot (List.mem_cons_of_mem _ h)) hdslots
          (fun i hi ↦ ?_) fun i hi ↦ hr i (List.mem_append_right _ hi)
        rw [eq_setOutcomes_of_correlatePart hpart,
          getElem?_setOutcomes_of_not_mem fun h ↦ hleft i h hi]
        exact hu i (List.mem_append_right _ hi)

/-- The slots of `n` operations, each of which is in exactly one of them. -/
theorem correlate_eq_ok (hp : (slots.flatMap Slot.toList).Perm (List.range n))
    (hne : ∀ slot ∈ slots, slot.toList ≠ []) (hn : os.length = n) :
    correlate slots parts n = .ok (os.map some) ↔ List.Forall₂ (Slot.Answered os) slots parts := by
  have hmem : ∀ i, i ∈ slots.flatMap Slot.toList ↔ i < n := fun i ↦
    hp.mem_iff.trans List.mem_range
  constructor
  · intro h
    rw [correlate] at h
    split at h
    · rename_i hl
      refine answered_of_correlateParts hl h hne (hp.nodup_iff.2 List.nodup_range)
        (fun i hi ↦ ?_) fun i hi ↦ ?_
      · rw [List.getElem?_replicate_of_lt ((hmem i).1 hi)]
      · have hlt := (hmem i).1 hi
        rw [← hn] at hlt
        exact ⟨os[i], List.getElem?_eq_getElem hlt, by simp [hlt]⟩
    · contradiction
  · intro h
    obtain ⟨result, hresult, hfills⟩ : ∃ result,
        correlateParts slots parts (List.replicate n none) = .ok result ∧
          Fills os (slots.flatMap Slot.toList) (List.replicate n none) result :=
      correlateParts_of_answered h
    rw [correlate, if_pos h.length_eq, hresult]
    refine congrArg _ (List.ext_getElem? fun i ↦ ?_)
    by_cases hi : i < n
    · rw [hfills.filled i ((hmem i).2 hi) (by simpa using hi), List.getElem?_map]
      have hlt := hi
      rw [← hn] at hlt
      rw [List.getElem?_eq_getElem hlt]
      rfl
    · rw [hfills.kept i (mt (hmem i).1 hi), List.getElem?_eq_none (by simpa using hi),
        List.getElem?_eq_none (by simpa [hn] using hi)]

theorem PartOutcome.result_eq_ok {outcome : Option PartOutcome} {p : PartResponse} :
    PartOutcome.result i outcome = .ok p ↔ outcome = some (.response p) ∧ p.isSuccess := by
  constructor
  · intro h
    match outcome with
    | some (.response r) =>
      rw [result] at h
      split at h
      · rename_i hs
        obtain rfl := Except.ok.inj h
        exact ⟨rfl, hs⟩
      · contradiction
  · rintro ⟨rfl, hs⟩
    rw [result, if_pos hs]

theorem result_dispatchFrom_cons {κ : Type} {outcome : Option PartOutcome} {callback : Option κ}
    {callbacks : List (Option κ)} :
    (dispatchFrom i (outcome :: outcomes) (callback :: callbacks)).result = (do
      let response ← PartOutcome.result i outcome
      (dispatchFrom (i + 1) outcomes callbacks).result.map (response :: ·)) := by
  rw [dispatchFrom]
  cases PartOutcome.result i outcome <;> rfl

/-- Where no operation has failed, the responses are all outcomes. -/
theorem eq_map_of_dispatchFrom {κ : Type} {callbacks : List (Option κ)} {rs : List PartResponse}
    (hl : outcomes.length = callbacks.length)
    (h : (dispatchFrom i outcomes callbacks).result = .ok rs) :
    outcomes = (rs.map PartOutcome.response).map some := by
  induction outcomes generalizing i callbacks rs with
  | nil =>
    obtain rfl := Except.ok.inj h
    rfl
  | cons outcome outcomes ih =>
    cases callbacks with
    | nil => contradiction
    | cons callback callbacks =>
      rw [result_dispatchFrom_cons] at h
      obtain ⟨p, hp, h⟩ := Except.bind_eq_ok.1 h
      obtain ⟨later, hlater, rfl⟩ := Except.map_eq_ok.1 h
      obtain ⟨rfl, -⟩ := PartOutcome.result_eq_ok.1 hp
      rw [ih (Nat.succ.inj hl) hlater]
      rfl

theorem length_of_correlate (h : correlate slots parts n = .ok result) : result.length = n := by
  rw [correlate] at h
  split at h
  · rw [(kept_of_correlateParts h).1, List.length_replicate]
  · contradiction

namespace Batch

variable {κ : Type} {b : Batch κ} {contentType body : String} {rs : List PartResponse}

theorem correlate_layout_eq_ok (hn : os.length = b.size) :
    correlate b.layout parts b.size = .ok (os.map some) ↔
      List.Forall₂ (Slot.Answered os) b.layout parts :=
  correlate_eq_ok b.layout_partitions.perm (fun _ ↦ b.ne_nil_of_mem_layout) hn

theorem answered_of_dispatch (h : (b.dispatch contentType body).result = .ok rs) :
    rs.length = b.size ∧ ∃ parts, ResponsePart.ofBody contentType body = .ok parts ∧
      List.Forall₂ (Slot.Answered (rs.map .response)) b.layout parts := by
  rw [dispatch] at h
  split at h
  · rename_i outcomes ho
    obtain ⟨parts, hparts, hc⟩ := Except.bind_eq_ok.1 ho
    have hlength := length_of_correlate hc
    obtain rfl := eq_map_of_dispatchFrom (by rw [hlength, List.length_map, size]) h
    rw [List.length_map, List.length_map] at hlength
    exact ⟨hlength, parts, Except.mapError_eq_ok.1 hparts,
      (correlate_layout_eq_ok (by rwa [List.length_map])).1 hc⟩
  · contradiction

/-- The parts of a response that answers every operation, in the order of the slots. -/
theorem correlate_answer (b : Batch κ) (o : Nat → PartOutcome) :
    correlate b.layout (b.layout.map (Slot.answer o)) b.size =
      .ok ((List.range b.size).map fun i ↦ some (o i)) := by
  have hget : ∀ slot ∈ b.layout, ∀ i ∈ slot.toList,
      ((List.range b.size).map o)[i]? = some (o i) := fun slot hs i hi ↦ by
    rw [List.getElem?_map, List.getElem?_range (b.lt_of_mem_layout hs hi)]
    rfl
  have hanswered : List.Forall₂ (Slot.Answered ((List.range b.size).map o)) b.layout
      (b.layout.map (Slot.answer o)) := by
    rw [List.forall₂_map_right_iff, List.forall₂_same]
    intro slot hs
    cases slot with
    | read i => exact .read (hget _ hs i List.mem_cons_self)
    | changeset writes =>
      refine .changeset ?_
      rw [List.map_map]
      exact List.map_congr_left (hget _ hs)
  rw [(correlate_layout_eq_ok (by simp)).2 hanswered, List.map_map]
  rfl

/-- No answer to one write is taken for an answer to several. -/
theorem length_of_collapsed {writes : List Nat} {o : PartOutcome}
    (h : List.Forall₂ (Slot.Answered os) b.layout parts)
    (hw : b.layout[i]? = some (.changeset writes)) (ho : parts[i]? = some (.single o)) :
    writes.length = 1 := by
  obtain ⟨hi, hw⟩ := List.getElem?_eq_some_iff.1 hw
  obtain ⟨hi', ho⟩ := List.getElem?_eq_some_iff.1 ho
  have ha := h.get hi hi'
  rw [List.get_eq_getElem, List.get_eq_getElem, hw, ho] at ha
  cases ha
  rfl

/-- The layout puts every operation into one slot, a response in the order of the slots is brought
back to the operations, and where a batch succeeds, every operation has the answer to its own slot. -/
theorem dispatch_by_layout (b : Batch κ) :
    Slot.Partitions b.isWriteAt b.size b.layout ∧
      (∀ slot ∈ b.layout, ∀ i ∈ slot.toList, i < b.size) ∧
      b.layout.map (Slot.map (b.operations[·]?)) =
        (Slot.arrange Operation.isWrite b.operations).map (Slot.map some) ∧
      (∀ o : Nat → PartOutcome, correlate b.layout (b.layout.map (Slot.answer o)) b.size =
        .ok ((List.range b.size).map fun i ↦ some (o i))) ∧
      (∀ contentType body rs, (b.dispatch contentType body).result = .ok rs →
        rs.length = b.size ∧ ∃ parts, ResponsePart.ofBody contentType body = .ok parts ∧
          List.Forall₂ (Slot.Answered (rs.map .response)) b.layout parts ∧
          (parts.flatMap ResponsePart.outcomes).map some =
            (b.layout.flatMap Slot.toList).map ((rs.map PartOutcome.response)[·]?)) ∧
      ∀ (contentType body : String) (parts : List ResponsePart) (i : Nat) (writes : List Nat)
        (o : PartOutcome), ResponsePart.ofBody contentType body = .ok parts →
        b.layout[i]? = some (.changeset writes) → parts[i]? = some (.single o) →
        2 ≤ writes.length → ∀ rs, (b.dispatch contentType body).result ≠ .ok rs := by
  refine ⟨b.layout_partitions, fun slot hs i ↦ b.lt_of_mem_layout hs, b.layout_operations,
    b.correlate_answer, fun contentType body rs h ↦ ?_,
    fun contentType body parts i writes o hparts hw ho hl rs h ↦ ?_⟩
  · obtain ⟨hlength, parts, hparts, ha⟩ := answered_of_dispatch h
    exact ⟨hlength, parts, hparts, ha, (Slot.outcomes_of_answered ha).symm⟩
  · obtain ⟨-, parts', hparts', ha⟩ := answered_of_dispatch h
    rw [hparts] at hparts'
    obtain rfl := Except.ok.inj hparts'
    rw [length_of_collapsed ha hw ho] at hl
    contradiction

/-- A write, a read and another write. -/
def mixed : Batch Nat :=
  ((BatchRun.start BatchRun.catalogue "b" "c").run [.call (.delete (.uri "Products(1)")),
    .call (.get (.collection "Products" {})), .call (.delete (.uri "Products(2)"))]).batch

def mixedAnswer : String :=
  "--b\r\nContent-Type: multipart/mixed; boundary=c\r\n\r\n" ++
    "--c\r\n\r\n\r\nHTTP/1.1 204 No Content\r\n\r\n\r\n" ++
    "--c\r\n\r\n\r\nHTTP/1.1 205 Reset Content\r\n\r\n\r\n--c--\r\n\r\n" ++
    "--b\r\n\r\n\r\nHTTP/1.1 200 OK\r\n\r\n[]\r\n--b--\r\n"

theorem dispatch_mixed :
    (mixed.dispatch "multipart/mixed; boundary=b" mixedAnswer).result =
        .ok [⟨⟨204, [], ""⟩, none⟩, ⟨⟨200, [], "[]"⟩, none⟩, ⟨⟨205, [], ""⟩, none⟩] ∧
      mixed.layout = [.changeset [0, 2], .read 1] ∧
      ∃ parts, ResponsePart.ofBody "multipart/mixed; boundary=b" mixedAnswer = .ok parts ∧
        List.Forall₂ (Slot.Answered [.response ⟨⟨204, [], ""⟩, none⟩,
          .response ⟨⟨200, [], "[]"⟩, none⟩, .response ⟨⟨205, [], ""⟩, none⟩]) mixed.layout parts := by
  have h : (mixed.dispatch "multipart/mixed; boundary=b" mixedAnswer).result =
      .ok [⟨⟨204, [], ""⟩, none⟩, ⟨⟨200, [], "[]"⟩, none⟩, ⟨⟨205, [], ""⟩, none⟩] := by
    decide +kernel
  obtain ⟨-, -, -, -, hdispatch, -⟩ := dispatch_by_layout mixed
  obtain ⟨-, parts, hparts, ha, -⟩ := hdispatch _ _ _ h
  exact ⟨h, by decide +kernel, parts, hparts, ha⟩

end Batch
end OData
