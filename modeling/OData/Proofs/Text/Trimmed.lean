import Mathlib.Data.List.Basic
import OData.Text.Blank
import OData.Text.Search

/-!
Texts without blanks at their ends, and what trimming and cutting make of them.
-/

namespace OData.Text

structure Trimmed (cs : List Char) : Prop where
  head : ∀ c ∈ cs.head?, isBlank c = false
  last : ∀ c ∈ cs.getLast?, isBlank c = false

theorem trimmed_iff {cs : List Char} :
    cs.head?.all (!isBlank ·) ∧ cs.getLast?.all (!isBlank ·) ↔ Trimmed cs := by
  simp only [Option.all_eq_true, Bool.not_eq_true']
  exact ⟨fun h ↦ ⟨h.1, h.2⟩, fun h ↦ ⟨h.head, h.last⟩⟩

-- The tests are Boolean functions, since all characters are a finite type for a quantifier.
instance (cs : List Char) : Decidable (Trimmed cs) :=
  decidable_of_iff _ trimmed_iff

variable {p : Char → Bool} {cs before after rest : List Char} {c : Char}

theorem isBlank_of_isAlphanum (h : c.isAlphanum) : isBlank c = false := by
  have hrange : 48 ≤ c.toNat ∧ c.toNat ≤ 122 := by
    rcases Bool.or_eq_true_iff.1 h with hletter | hdigit
    · rcases Bool.or_eq_true_iff.1 hletter with hupper | hlower
      · obtain ⟨hlow, hhigh⟩ := of_decide_eq_true hupper
        have hlow : 65 ≤ c.toNat := UInt32.le_iff_toNat_le.1 hlow
        have hhigh : c.toNat ≤ 90 := UInt32.le_iff_toNat_le.1 hhigh
        omega
      · obtain ⟨hlow, hhigh⟩ := Bool.and_eq_true_iff.1 hlower
        have hlow : 97 ≤ c.toNat := UInt32.le_iff_toNat_le.1 (of_decide_eq_true hlow)
        have hhigh : c.toNat ≤ 122 := UInt32.le_iff_toNat_le.1 (of_decide_eq_true hhigh)
        omega
    · obtain ⟨hlow, hhigh⟩ := Char.isDigit_iff_toNat.1 hdigit
      have hlow : 48 ≤ c.toNat := hlow
      have hhigh : c.toNat ≤ 57 := hhigh
      omega
  simp only [isBlank, Bool.or_eq_false_iff, Bool.and_eq_false_iff, decide_eq_false_iff_not]
  omega

theorem isBlank_of_isDigit (h : c.isDigit) : isBlank c = false := by
  apply isBlank_of_isAlphanum
  rw [Char.isAlphanum, h, Bool.or_true]

theorem trimmed_of_forall (h : ∀ c ∈ cs, isBlank c = false) : Trimmed cs :=
  ⟨fun c hc ↦ h c (List.mem_of_head? hc), fun c hc ↦ h c (List.mem_of_getLast? hc)⟩

theorem trimLeftWhile_append (h : ∀ c ∈ before, p c) :
    trimLeftWhile p (before ++ cs) = trimLeftWhile p cs :=
  List.dropWhile_append_of_pos h

theorem trimRightWhile_append (h : ∀ c ∈ after, p c) :
    trimRightWhile p (cs ++ after) = trimRightWhile p cs := by
  rw [trimRightWhile, trimRightWhile, List.reverse_append, List.dropWhile_append_of_pos]
  intro c hc
  exact h c (List.mem_reverse.1 hc)

theorem trimRightWhile_append_cons (hc : p c = false) (before rest : List Char) :
    trimRightWhile p (before ++ c :: rest) = before ++ c :: trimRightWhile p rest := by
  have hreverse : (before ++ c :: rest).reverse = rest.reverse ++ c :: before.reverse := by simp
  rw [trimRightWhile, trimRightWhile, hreverse, List.dropWhile_append]
  split
  · rename_i hempty
    rw [List.isEmpty_iff.1 hempty, List.dropWhile_cons_of_neg (by simp [hc])]
    simp
  · simp

theorem trimLeftWhile_eq_self (h : ∀ c ∈ cs.head?, p c = false) : trimLeftWhile p cs = cs := by
  cases cs with
  | nil => rfl
  | cons c cs => exact List.dropWhile_cons_of_neg (by simp [h c rfl])

theorem trimLeftWhile_cons (h : p c = false) (cs : List Char) :
    trimLeftWhile p (c :: cs) = c :: cs :=
  trimLeftWhile_eq_self fun _ hd ↦ Option.some.inj hd ▸ h

theorem trimRightWhile_eq_self (h : ∀ c ∈ cs.getLast?, p c = false) : trimRightWhile p cs = cs := by
  have hreverse : cs.reverse.dropWhile p = cs.reverse :=
    trimLeftWhile_eq_self fun c hc ↦ h c (by rwa [List.head?_reverse] at hc)
  rw [trimRightWhile, hreverse, List.reverse_reverse]

theorem Trimmed.trim_append (h : Trimmed cs) (hbefore : ∀ c ∈ before, isBlank c)
    (hafter : ∀ c ∈ after, isBlank c) : trim (before ++ (cs ++ after)) = cs := by
  rw [trim, trimWhile, trimLeftWhile_append hbefore]
  cases cs with
  | nil =>
    have hall : trimLeftWhile isBlank (after ++ []) = [] := trimLeftWhile_append hafter
    rw [List.append_nil] at hall
    rw [List.nil_append, hall]
    rfl
  | cons c cs =>
    have hkeep : trimLeftWhile isBlank (c :: cs ++ after) = c :: cs ++ after :=
      trimLeftWhile_eq_self h.head
    rw [hkeep, trimRightWhile_append hafter, trimRightWhile_eq_self h.last]

theorem trim_sublist (cs : List Char) : (trim cs).Sublist cs := by
  have hright : (trimRightWhile isBlank (trimLeftWhile isBlank cs)).Sublist
      (trimLeftWhile isBlank cs) := by
    have hreverse := (List.dropWhile_sublist isBlank (l := (trimLeftWhile isBlank cs).reverse)).reverse
    rwa [List.reverse_reverse] at hreverse
  exact hright.trans (List.dropWhile_sublist _)

theorem eq_append_of_cutWhere? (h : cutWhere? p cs = some (before, after)) :
    ∃ c, cs = before ++ c :: after := by
  induction cs generalizing before with
  | nil => contradiction
  | cons c cs ih =>
    rw [cutWhere?] at h
    split at h
    · obtain ⟨rfl, rfl⟩ := Prod.mk.inj (Option.some.inj h)
      exact ⟨c, rfl⟩
    · obtain ⟨⟨front, back⟩, hcut, heq⟩ := Option.map_eq_some_iff.1 h
      obtain ⟨rfl, rfl⟩ := Prod.mk.inj heq
      obtain ⟨d, rfl⟩ := ih hcut
      exact ⟨d, rfl⟩

theorem flatten_pieces_sublist (p : Char → Bool) (cs : List Char) :
    (pieces p cs).flatten.Sublist cs := by
  induction cs with
  | nil => exact .slnil
  | cons c cs ih =>
    rw [pieces]
    split
    · exact ih.cons c
    · split
      · exact (List.nil_sublist cs).cons_cons c
      · rename_i piece rest heq
        rw [heq] at ih
        exact ih.cons_cons c

theorem cutWhere?_eq_none (h : ∀ c ∈ cs, p c = false) : cutWhere? p cs = none := by
  induction cs with
  | nil => rfl
  | cons c cs ih =>
    obtain ⟨hc, hcs⟩ := List.forall_mem_cons.1 h
    simp [cutWhere?, hc, ih hcs]

theorem cutWhere?_append (h : ∀ c ∈ before, p c = false) (hc : p c) :
    cutWhere? p (before ++ c :: rest) = some (before, rest) := by
  induction before with
  | nil => rw [List.nil_append, cutWhere?, if_pos hc]
  | cons d before ih =>
    obtain ⟨hd, hbefore⟩ := List.forall_mem_cons.1 h
    rw [List.cons_append, cutWhere?, if_neg (by simp [hd]), ih hbefore, Option.map_some]

end OData.Text
