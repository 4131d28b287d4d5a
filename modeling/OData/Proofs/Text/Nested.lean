import Mathlib.Data.List.Basic
import OData.Text.Search

/-!
Texts with parentheses in them, cut at the marks that stand outside of the parentheses.
-/

namespace OData.Text

/-- A text in front of the first of some pieces. -/
def glue (cs : List Char) : List (List Char) → List (List Char)
  | [] => [cs]
  | piece :: rest => (cs ++ piece) :: rest

/-- How many parentheses are open behind a character. -/
def depthAfter (depth : Nat) (c : Char) : Nat :=
  if c = '(' then depth + 1 else if c = ')' then depth - 1 else depth

/-- The pieces between the marks outside of parentheses. -/
def outerPieces (mark : Char) : (depth : Nat) → List Char → List (List Char)
  | _, [] => [[]]
  | depth, c :: cs =>
    if c = mark ∧ depth = 0 then [] :: outerPieces mark depth cs
    else glue [c] (outerPieces mark (depthAfter depth c) cs)

/-- The text is not cut, and as many parentheses are open behind it as in front of it. -/
def Whole (mark : Char) (depth : Nat) (cs : List Char) : Prop :=
  ∀ rest, outerPieces mark depth (cs ++ rest) = glue cs (outerPieces mark depth rest)

variable {mark c : Char} {depth : Nat} {cs xs ys : List Char} {texts : List (List Char)}

theorem glue_append (xs ys : List Char) (pieces : List (List Char)) :
    glue (xs ++ ys) pieces = glue xs (glue ys pieces) := by
  cases pieces with
  | nil => rfl
  | cons piece rest => simp [glue]

theorem outerPieces_ne_nil (mark : Char) (depth : Nat) (cs : List Char) :
    outerPieces mark depth cs ≠ [] := by
  cases cs with
  | nil => exact List.cons_ne_nil _ _
  | cons c cs =>
    rw [outerPieces]
    split
    · exact List.cons_ne_nil _ _
    · cases outerPieces mark (depthAfter depth c) cs <;> exact List.cons_ne_nil _ _

theorem whole_nil (mark : Char) (depth : Nat) : Whole mark depth [] := by
  intro rest
  obtain ⟨piece, others, heq⟩ := List.exists_cons_of_ne_nil (outerPieces_ne_nil mark depth rest)
  rw [List.nil_append, heq]
  rfl

theorem Whole.append (hx : Whole mark depth xs) (hy : Whole mark depth ys) :
    Whole mark depth (xs ++ ys) := by
  intro rest
  rw [List.append_assoc, hx, hy, glue_append]

theorem whole_singleton (ho : c ≠ '(') (hc : c ≠ ')') (hm : c = mark → depth ≠ 0) :
    Whole mark depth [c] := by
  intro rest
  have hmark : ¬ (c = mark ∧ depth = 0) := fun ⟨heq, hzero⟩ ↦ hm heq hzero
  rw [List.singleton_append, outerPieces, if_neg hmark, depthAfter, if_neg ho, if_neg hc]

theorem whole_of_forall (h : ∀ c ∈ cs, c ≠ '(' ∧ c ≠ ')' ∧ c ≠ mark) : Whole mark depth cs := by
  induction cs with
  | nil => exact whole_nil mark depth
  | cons c cs ih =>
    obtain ⟨⟨ho, hc, hm⟩, hrest⟩ := List.forall_mem_cons.1 h
    exact (whole_singleton ho hc fun heq ↦ absurd heq hm).append (ih hrest)

/-- Between parentheses nothing is cut. -/
theorem whole_parenthesized (ho : mark ≠ '(') (hc : mark ≠ ')') (h : Whole mark (depth + 1) cs) :
    Whole mark depth ('(' :: cs ++ [')']) := by
  intro rest
  have hopen : ¬ ('(' = mark ∧ depth = 0) := fun ⟨heq, _⟩ ↦ ho heq.symm
  have hclose : ¬ (')' = mark ∧ depth + 1 = 0) := fun ⟨heq, _⟩ ↦ hc heq.symm
  have hinside : depthAfter depth '(' = depth + 1 := rfl
  have hbehind : depthAfter (depth + 1) ')' = depth := rfl
  rw [List.cons_append, List.cons_append, List.append_assoc, List.singleton_append, outerPieces,
    if_neg hopen, hinside, h, outerPieces, if_neg hclose, hbehind, ← glue_append, ← glue_append]
  rfl

theorem whole_intercalate (hc : Whole mark depth [c]) (h : ∀ cs ∈ texts, Whole mark depth cs) :
    Whole mark depth (List.intercalate [c] texts) := by
  induction texts with
  | nil => exact whole_nil mark depth
  | cons cs texts ih =>
    obtain ⟨hfirst, hrest⟩ := List.forall_mem_cons.1 h
    cases texts with
    | nil => rwa [List.intercalate_singleton]
    | cons ds texts =>
      rw [List.intercalate_cons_cons]
      exact (hfirst.append hc).append (ih hrest)

/-- Cutting undoes putting marks between texts that are not cut themselves, however the marks are told
apart. -/
theorem cut_intercalate {cut : List Char → List (List Char)} (hnil : cut [] = [[]])
    (hmark : ∀ rest, cut (mark :: rest) = [] :: cut rest) (hne : texts ≠ [])
    (h : ∀ cs ∈ texts, ∀ rest, cut (cs ++ rest) = glue cs (cut rest)) :
    cut (List.intercalate [mark] texts) = texts := by
  induction texts with
  | nil => contradiction
  | cons cs texts ih =>
    obtain ⟨hfirst, hrest⟩ := List.forall_mem_cons.1 h
    cases texts with
    | nil =>
      have hend := hfirst []
      rw [List.append_nil] at hend
      rw [List.intercalate_singleton, hend, hnil, glue, List.append_nil]
    | cons ds texts =>
      rw [List.intercalate_cons_cons, List.append_assoc, hfirst, List.singleton_append, hmark,
        ih (List.cons_ne_nil _ _) hrest, glue, List.append_nil]

theorem outerPieces_intercalate (hne : texts ≠ []) (h : ∀ cs ∈ texts, Whole mark 0 cs) :
    outerPieces mark 0 (List.intercalate [mark] texts) = texts :=
  cut_intercalate rfl (fun rest ↦ by rw [outerPieces, if_pos ⟨rfl, rfl⟩]) hne h

end OData.Text
