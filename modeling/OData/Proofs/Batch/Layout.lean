import Mathlib.Data.List.Basic
import OData.Batch.Layout

/-!
The layout of a batch as a partition of its operations: which slots there are, in which order, and
that every operation is in exactly one of them.
-/

namespace OData

namespace Slot

variable {α β : Type} {w : α → Bool}

def read? : Slot α → Option α
  | read a => some a
  | changeset _ => none

def changeset? : Slot α → Option (List α)
  | read _ => none
  | changeset writes => some writes

theorem arrange_map (f : α → β) {w' : β → Bool} {l : List α} (h : ∀ a ∈ l, w' (f a) = w a) :
    arrange w' (l.map f) = (arrange w l).map (map f) := by
  induction l with
  | nil => rfl
  | cons a rest ih =>
    have hrest : ∀ a ∈ rest, w' (f a) = w a := fun a ha ↦ h a (List.mem_cons_of_mem _ ha)
    have hwrites : (rest.map f).filter w' = (rest.filter w).map f := by
      rw [List.filter_map]
      exact congrArg _ (List.filter_congr hrest)
    have hreads : (rest.map f).filter (!w' ·) = (rest.filter (!w ·)).map f := by
      rw [List.filter_map]
      exact congrArg _ (List.filter_congr fun a ha ↦ congrArg _ (hrest a ha))
    rw [List.map_cons, arrange, arrange, h a List.mem_cons_self, ih hrest, hwrites, hreads]
    split
    · simp [map, Function.comp_def]
    · rfl

theorem flatMap_toList_read (l : List α) : (l.map read).flatMap toList = l := by
  simp [List.flatMap_map, toList]

theorem arrange_perm (w : α → Bool) (l : List α) : ((arrange w l).flatMap toList).Perm l := by
  induction l with
  | nil => exact .refl _
  | cons a rest ih =>
    rw [arrange]
    split
    · rw [List.flatMap_cons, flatMap_toList_read]
      exact (List.filter_append_perm w rest).cons a
    · exact ih.cons a

theorem filterMap_read?_read (l : List α) : (l.map read).filterMap read? = l := by
  rw [List.filterMap_map]
  exact List.filterMap_some

theorem filterMap_changeset?_read (l : List α) : (l.map read).filterMap changeset? = [] := by
  rw [List.filterMap_map]
  exact List.filterMap_eq_nil_iff.2 fun _ _ ↦ rfl

theorem filterMap_read?_arrange (w : α → Bool) (l : List α) :
    (arrange w l).filterMap read? = l.filter (!w ·) := by
  induction l with
  | nil => rfl
  | cons a rest ih =>
    cases ha : w a
    · rw [arrange, if_neg (by simp [ha]), List.filterMap_cons, ih]
      simp [ha, read?]
    · rw [arrange, if_pos ha, List.filterMap_cons, filterMap_read?_read]
      simp [ha, read?]

theorem filterMap_changeset?_arrange (w : α → Bool) (l : List α) :
    (arrange w l).filterMap changeset? = if l.any w then [l.filter w] else [] := by
  induction l with
  | nil => rfl
  | cons a rest ih =>
    cases ha : w a
    · rw [arrange, if_neg (by simp [ha]), List.filterMap_cons, ih, List.any_cons, ha,
        Bool.false_or, List.filter_cons_of_neg (by simp [ha])]
      rfl
    · rw [arrange, if_pos ha, List.filterMap_cons, filterMap_changeset?_read, List.any_cons, ha,
        Bool.true_or, List.filter_cons_of_pos ha]
      rfl

theorem of_read_mem_arrange {l : List α} {a : α} (h : read a ∈ arrange w l) :
    a ∈ l ∧ w a = false := by
  have hread : a ∈ (arrange w l).filterMap read? := List.mem_filterMap.2 ⟨_, h, rfl⟩
  rw [filterMap_read?_arrange, List.mem_filter] at hread
  exact ⟨hread.1, by simpa using hread.2⟩

theorem of_changeset_mem_arrange {l writes : List α} (h : changeset writes ∈ arrange w l) :
    writes = l.filter w := by
  have hchangeset : writes ∈ (arrange w l).filterMap changeset? :=
    List.mem_filterMap.2 ⟨_, h, rfl⟩
  rw [filterMap_changeset?_arrange] at hchangeset
  split at hchangeset
  · exact List.mem_singleton.1 hchangeset
  · exact absurd hchangeset List.not_mem_nil

theorem eq_append_of_arrange {l : List α} {before after : List (Slot α)} {writes : List α}
    (h : arrange w l = before ++ changeset writes :: after) :
    ∃ l₁ a l₂, l = l₁ ++ a :: l₂ ∧ before = l₁.map read ∧ writes = a :: l₂.filter w := by
  induction l generalizing before with
  | nil =>
    have hlength := congrArg List.length h
    simp [arrange] at hlength
  | cons a rest ih =>
    by_cases ha : w a
    · rw [arrange, if_pos ha] at h
      cases before with
      | nil =>
        obtain ⟨hw, -⟩ := List.cons.inj h
        exact ⟨[], a, rest, rfl, rfl, (changeset.inj hw).symm⟩
      | cons slot before =>
        obtain ⟨-, h⟩ := List.cons.inj h
        have hmem : changeset writes ∈ (rest.filter (!w ·)).map read := by
          rw [h]
          exact List.mem_append_right _ List.mem_cons_self
        obtain ⟨x, -, hx⟩ := List.mem_map.1 hmem
        contradiction
    · rw [arrange, if_neg ha] at h
      cases before with
      | nil =>
        obtain ⟨hw, -⟩ := List.cons.inj h
        contradiction
      | cons slot before =>
        obtain ⟨rfl, hrest⟩ := List.cons.inj h
        obtain ⟨l₁, x, l₂, rfl, rfl, rfl⟩ := ih hrest
        exact ⟨a :: l₁, x, l₂, rfl, rfl, rfl⟩

/-- The slots of the numbers below a bound: every number is in one of them, the reads ascend, and
all writes are in one changeset, which stands where the first of them would. -/
structure Partitions (w : Nat → Bool) (n : Nat) (slots : List (Slot Nat)) : Prop where
  perm : (slots.flatMap toList).Perm (List.range n)
  reads : slots.filterMap read? = (List.range n).filter (!w ·)
  changesets : slots.filterMap changeset? =
    if (List.range n).any w then [(List.range n).filter w] else []
  place : ∀ before writes after, slots = before ++ changeset writes :: after →
    before = (List.range before.length).map read ∧ writes.head? = some before.length

end Slot

namespace Batch

variable {κ : Type} (b : Batch κ)

def isWriteAt (i : Nat) : Bool :=
  b.operations[i]?.any Operation.isWrite

theorem layout_eq : b.layout = Slot.arrange b.isWriteAt (List.range b.size) := by
  have hrange : b.operations.zipIdx.map Prod.snd = List.range b.size := by
    rw [List.zipIdx_map_snd, List.range_eq_range']
    rfl
  rw [← hrange, layout]
  refine (Slot.arrange_map _ ?_).symm
  rintro ⟨op, i⟩ h
  rw [isWriteAt, List.mem_zipIdx_iff_getElem?.1 h]
  rfl

/-- The places of the layout stand for the operations of the document. -/
theorem layout_operations : b.layout.map (Slot.map (b.operations[·]?)) =
    (Slot.arrange Operation.isWrite b.operations).map (Slot.map some) := by
  have hrange : (List.range b.size).map (b.operations[·]?) = b.operations.map some := by
    refine List.ext_getElem (by simp [size]) fun i hi hi' ↦ ?_
    simp
  calc b.layout.map (Slot.map (b.operations[·]?))
    _ = Slot.arrange (Option.any Operation.isWrite)
          ((List.range b.size).map (b.operations[·]?)) := by
      rw [layout_eq, Slot.arrange_map _ fun _ _ ↦ rfl]
      rfl
    _ = (Slot.arrange Operation.isWrite b.operations).map (Slot.map some) := by
      rw [hrange, Slot.arrange_map _ fun _ _ ↦ rfl]
      rfl

theorem layout_partitions : Slot.Partitions b.isWriteAt b.size b.layout := by
  rw [layout_eq]
  refine ⟨Slot.arrange_perm _ _, Slot.filterMap_read?_arrange _ _,
    Slot.filterMap_changeset?_arrange _ _, fun before writes after h ↦ ?_⟩
  obtain ⟨l₁, a, l₂, hl, rfl, rfl⟩ := Slot.eq_append_of_arrange h
  rw [List.range_eq_range', List.range'_eq_append_iff] at hl
  obtain ⟨k, -, rfl, hl⟩ := hl
  obtain ⟨rfl, -⟩ := List.range'_eq_cons_iff.1 hl.symm
  rw [List.length_map, List.length_range', List.range_eq_range']
  exact ⟨rfl, by simp⟩

theorem lt_of_mem_layout {slot : Slot Nat} (hs : slot ∈ b.layout) {i : Nat}
    (hi : i ∈ slot.toList) : i < b.size :=
  List.mem_range.1 (b.layout_partitions.perm.mem_iff.1 (List.mem_flatMap.2 ⟨slot, hs, hi⟩))

theorem changeset?_layout {i : Nat} (h : b.isWriteAt i) :
    ∃ writes, b.layout.filterMap Slot.changeset? = [writes] ∧
      ∀ j, j ∈ writes ↔ b.isWriteAt j := by
  have hlt : ∀ j, b.isWriteAt j → j < b.size := fun j hj ↦ by
    obtain ⟨op, hop, -⟩ := (Option.any_eq_true _ _).1 hj
    exact (List.getElem?_eq_some_iff.1 hop).1
  refine ⟨(List.range b.size).filter b.isWriteAt, ?_, fun j ↦ ?_⟩
  · rw [b.layout_partitions.changesets, if_pos]
    exact List.any_eq_true.2 ⟨i, List.mem_range.2 (hlt i h), h⟩
  · rw [List.mem_filter, List.mem_range]
    exact and_iff_right_of_imp (hlt j)

theorem ne_nil_of_mem_layout {slot : Slot Nat} (hs : slot ∈ b.layout) : slot.toList ≠ [] := by
  cases slot with
  | read i => exact List.cons_ne_nil _ _
  | changeset writes =>
    obtain ⟨before, after, h⟩ := List.append_of_mem hs
    obtain ⟨-, hfirst⟩ := b.layout_partitions.place before writes after h
    rintro rfl
    contradiction

end Batch
end OData
