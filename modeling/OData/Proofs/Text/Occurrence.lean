import Mathlib.Data.List.Infix
import OData.Text.Search

/-!
Where a pattern occurs in a text that is put together from others, and the sections between its
occurrences.
-/

namespace OData.Text

variable {pattern xs ys : List Char} {c : Char}

/-- A character that the pattern does not have keeps its occurrences apart. -/
theorem infix_append_cons (hc : c ∉ pattern) (xs ys : List Char) :
    pattern <:+: xs ++ c :: ys ↔ pattern <:+: xs ∨ pattern <:+: ys := by
  constructor
  · rintro ⟨s, t, h⟩
    rcases List.append_eq_append_iff.1 h with ⟨u, hxs, -⟩ | ⟨u, hs, ht⟩
    · exact .inl ⟨s, u, hxs.symm⟩
    · cases u with
      | nil =>
        rw [List.append_nil] at hs
        exact .inl ⟨s, [], by rw [List.append_nil, hs]⟩
      | cons d u =>
        obtain ⟨rfl, rfl⟩ := List.cons.inj ht
        rcases List.append_eq_append_iff.1 hs with ⟨v, -, hpattern⟩ | ⟨v, -, hv⟩
        · rw [hpattern] at hc
          exact absurd (List.mem_append_right _ List.mem_cons_self) hc
        · cases v with
          | nil =>
            rw [List.nil_append] at hv
            rw [← hv] at hc
            exact absurd List.mem_cons_self hc
          | cons _ v =>
            obtain ⟨-, rfl⟩ := List.cons.inj hv
            exact .inr ⟨v, t, rfl⟩
  · rintro (h | h)
    · exact h.trans (List.infix_append' [] xs (c :: ys))
    · exact h.trans ⟨xs ++ [c], [], by simp⟩

theorem intercalate_append {texts others : List (List Char)} (ht : texts ≠ []) (ho : others ≠ []) :
    List.intercalate [c] (texts ++ others) =
      List.intercalate [c] texts ++ c :: List.intercalate [c] others := by
  induction texts with
  | nil => contradiction
  | cons text rest ih =>
    cases rest with
    | nil =>
      obtain ⟨next, others, rfl⟩ := List.exists_cons_of_ne_nil ho
      rw [List.singleton_append, List.intercalate_cons_cons, List.intercalate_singleton,
        List.append_assoc, List.singleton_append]
    | cons next rest =>
      have hrest := ih (List.cons_ne_nil _ _)
      rw [List.cons_append] at hrest ⊢
      rw [List.cons_append, List.intercalate_cons_cons, List.intercalate_cons_cons, hrest]
      simp only [List.append_assoc]

theorem infix_intercalate (separator : List Char) {texts : List (List Char)} (h : xs ∈ texts) :
    xs <:+: List.intercalate separator texts := by
  induction texts with
  | nil => contradiction
  | cons ys texts ih =>
    cases texts with
    | nil =>
      obtain rfl := List.mem_singleton.1 h
      exact ⟨[], [], by rw [List.intercalate_singleton, List.nil_append, List.append_nil]⟩
    | cons zs texts =>
      rw [List.intercalate_cons_cons]
      rcases List.mem_cons.1 h with rfl | h
      · rw [List.append_assoc]
        exact (List.prefix_append _ _).isInfix
      · exact (ih h).trans (List.suffix_append _ _).isInfix

/-- A pattern does not reach into a text without its last character. -/
theorem infix_of_infix_append (hc : c ∉ ys) (h : pattern ++ [c] <:+: xs ++ ys) :
    pattern ++ [c] <:+: xs := by
  obtain ⟨s, t, h⟩ := h
  rcases List.append_eq_append_iff.1 h with ⟨u, hxs, -⟩ | ⟨u, hs, hys⟩
  · exact ⟨s, u, hxs.symm⟩
  · rcases List.eq_nil_or_concat u with rfl | ⟨u, d, rfl⟩
    · rw [List.append_nil] at hs
      exact ⟨s, [], by rw [List.append_nil, hs]⟩
    · rw [List.concat_eq_append, ← List.append_assoc, ← List.append_assoc] at hs
      obtain rfl : c = d := by
        have hlast := congrArg List.getLast? hs
        rw [List.getLast?_concat, List.getLast?_concat] at hlast
        exact Option.some.inj hlast
      rw [hys] at hc
      simp at hc

/-- A text behind which the first occurrence of a pattern can only be one that starts there. -/
structure ClearOf (pattern cs : List Char) : Prop where
  not_infix : ¬ pattern <:+: cs
  last : ∀ c ∈ cs.getLast?, c ∉ pattern

theorem clearOf_nil (h : pattern ≠ []) : ClearOf pattern [] :=
  ⟨fun hp ↦ h (List.infix_nil.1 hp), nofun⟩

theorem cutAt?_append (h : ClearOf pattern xs) (rest : List Char) :
    cutAt? pattern (xs ++ (pattern ++ rest)) = some (xs, rest) := by
  induction xs with
  | nil =>
    rw [List.nil_append]
    cases hp : pattern ++ rest with
    | nil =>
      obtain ⟨rfl, rfl⟩ := List.append_eq_nil_iff.1 hp
      rfl
    | cons d ds => rw [cutAt?, ← hp, afterPrefix?_append]
  | cons d xs ih =>
    have hnone : afterPrefix? pattern (d :: xs ++ (pattern ++ rest)) = none := by
      rw [Option.eq_none_iff_forall_ne_some]
      intro after hafter
      rcases List.append_eq_append_iff.1 (eq_append_of_afterPrefix? hafter) with
        ⟨u, hpattern, -⟩ | ⟨u, hxs, -⟩
      · -- The text would be the beginning of the pattern, with its last character.
        have hlast := h.last _ (List.getLast?_eq_getLast_of_ne_nil (List.cons_ne_nil d xs))
        apply hlast
        rw [hpattern]
        exact List.mem_append_left _ (List.getLast_mem _)
      · exact h.not_infix ⟨[], u, by rw [List.nil_append, hxs]⟩
    have htail : ClearOf pattern xs := by
      refine ⟨fun hp ↦ h.not_infix (hp.trans (List.suffix_cons d xs).isInfix), fun c hc ↦ ?_⟩
      apply h.last c
      cases xs with
      | nil => contradiction
      | cons x xs => rwa [List.getLast?_cons_cons]
    rw [List.cons_append] at hnone ⊢
    rw [cutAt?, hnone]
    dsimp only
    rw [ih htail, Option.map_some]

/-- The first occurrence of a pattern that a text has is in that text, whatever follows. -/
theorem exists_cutAt?_append (h : pattern <:+: xs) (rest : List Char) :
    ∃ before after, cutAt? pattern (xs ++ rest) = some (before, after) ∧
      before ++ pattern <+: xs := by
  induction xs with
  | nil =>
    obtain rfl := List.infix_nil.1 h
    cases rest with
    | nil => exact ⟨[], [], rfl, List.prefix_refl _⟩
    | cons c rest => exact ⟨[], c :: rest, rfl, List.prefix_refl _⟩
  | cons c xs ih =>
    rw [List.cons_append, cutAt?, ← List.cons_append]
    cases hfirst : afterPrefix? pattern (c :: xs ++ rest) with
    | some after =>
      have hprefix : pattern <+: c :: xs ++ rest := ⟨after, (eq_append_of_afterPrefix? hfirst).symm⟩
      exact ⟨[], after, rfl,
        List.prefix_of_prefix_length_le hprefix (List.prefix_append _ _) h.length_le⟩
    | none =>
      rcases List.infix_cons_iff.1 h with ⟨behind, hbehind⟩ | htail
      · rw [← hbehind, List.append_assoc, afterPrefix?_append] at hfirst
        contradiction
      · obtain ⟨before, after, hcut, hbefore⟩ := ih htail
        refine ⟨c :: before, after, ?_, List.cons_prefix_cons.2 ⟨rfl, hbefore⟩⟩
        dsimp only
        rw [hcut, Option.map_some]

theorem sections_append (hp : pattern ≠ []) (h : ClearOf pattern xs) (rest : List Char) :
    sections pattern (xs ++ (pattern ++ rest)) = xs :: sections pattern rest := by
  have hlength : rest.length < (xs ++ (pattern ++ rest)).length := by
    have hpos := List.length_pos_iff.2 hp
    simp only [List.length_append]
    omega
  rw [sections, cutAt?_append h]
  dsimp only
  rw [if_pos hlength]

/-- The sections of texts with a pattern between each two of them. -/
theorem sections_append_flatMap (hp : pattern ≠ []) {texts : List (List Char)}
    (hxs : ClearOf pattern xs) (h : ∀ cs ∈ texts, ClearOf pattern cs) (rest : List Char) :
    sections pattern (xs ++ (texts.flatMap (pattern ++ ·) ++ (pattern ++ rest))) =
      xs :: (texts ++ sections pattern rest) := by
  induction texts generalizing xs with
  | nil => exact sections_append hp hxs rest
  | cons cs texts ih =>
    obtain ⟨hcs, htexts⟩ := List.forall_mem_cons.1 h
    rw [List.flatMap_cons, List.append_assoc, List.append_assoc, sections_append hp hxs,
      ih hcs htexts]
    rfl

end OData.Text
