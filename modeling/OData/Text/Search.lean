/-!
Searching and cutting character lists: the first occurrence of a pattern, prefixes, and the pieces
between separators.
-/

namespace OData.Text

/-- What follows `pattern` at the head of a text. -/
def afterPrefix? : (pattern : List Char) → List Char → Option (List Char)
  | [], cs => some cs
  | _ :: _, [] => none
  | p :: ps, c :: cs => if p = c then afterPrefix? ps cs else none

/-- What stands before `pattern` at the end of a text. -/
def beforeSuffix? (pattern cs : List Char) : Option (List Char) :=
  (afterPrefix? pattern.reverse cs.reverse).map List.reverse

/-- The texts before and after the first occurrence of `pattern`. -/
def cutAt? (pattern : List Char) : List Char → Option (List Char × List Char)
  | [] => if pattern = [] then some ([], []) else none
  | c :: cs =>
    match afterPrefix? pattern (c :: cs) with
    | some rest => some ([], rest)
    | none => (cutAt? pattern cs).map fun (before, after) ↦ (c :: before, after)

/-- The texts before and after the first character of a class; the character is dropped. -/
def cutWhere? (p : Char → Bool) : List Char → Option (List Char × List Char)
  | [] => none
  | c :: cs =>
    if p c then some ([], cs)
    else (cutWhere? p cs).map fun (before, after) ↦ (c :: before, after)

def occursIn (pattern cs : List Char) : Bool :=
  (cutAt? pattern cs).isSome

/-- The pieces between the characters of a class; one more than there are such characters. -/
def pieces (p : Char → Bool) : List Char → List (List Char)
  | [] => [[]]
  | c :: cs =>
    if p c then [] :: pieces p cs
    else
      match pieces p cs with
      | [] => [[c]]
      | piece :: rest => (c :: piece) :: rest

/-- The texts between the occurrences of `pattern`, found from the left; each occurrence starts
behind the one before it. -/
def sections (pattern cs : List Char) : List (List Char) :=
  match cutAt? pattern cs with
  | some (before, after) =>
    if after.length < cs.length then before :: sections pattern after else [cs]
  | none => [cs]
termination_by cs.length

/-- What is left when every copy of `pattern` at the head is taken off. -/
def withoutLeading (pattern : List Char) (cs : List Char) : List Char :=
  match pattern, afterPrefix? pattern cs with
  | _ :: _, some rest => if rest.length < cs.length then withoutLeading pattern rest else cs
  | _, _ => cs
termination_by cs.length

/-- The cut takes the character out, so the two sides are shorter together. -/
theorem cutWhere?_length {p : Char → Bool} {cs before after : List Char}
    (h : cutWhere? p cs = some (before, after)) : before.length + after.length + 1 = cs.length := by
  induction cs generalizing before with
  | nil => simp [cutWhere?] at h
  | cons c cs ih =>
    by_cases hc : p c
    · simp only [cutWhere?, hc, if_true, Option.some.injEq, Prod.mk.injEq] at h
      obtain ⟨rfl, rfl⟩ := h
      simp
    · simp only [cutWhere?, hc, Bool.false_eq_true, if_false, Option.map_eq_some_iff,
        Prod.mk.injEq] at h
      obtain ⟨⟨b, a⟩, hb, h₁, h₂⟩ := h
      dsimp only at h₁ h₂
      subst h₁ h₂
      have := ih hb
      simp only [List.length_cons]
      omega

theorem afterPrefix?_length {pattern cs rest : List Char}
    (h : afterPrefix? pattern cs = some rest) : pattern.length + rest.length = cs.length := by
  induction pattern generalizing cs with
  | nil =>
    simp only [afterPrefix?, Option.some.injEq] at h
    simp [h]
  | cons p ps ih =>
    cases cs with
    | nil => simp [afterPrefix?] at h
    | cons c cs =>
      by_cases hc : p = c
      · simp only [afterPrefix?, hc, if_true] at h
        have := ih h
        simp only [List.length_cons]
        omega
      · simp [afterPrefix?, hc] at h

/-- The cut takes the pattern out of the text. -/
theorem cutAt?_length {pattern cs before after : List Char}
    (h : cutAt? pattern cs = some (before, after)) :
    before.length + pattern.length + after.length = cs.length := by
  induction cs generalizing before with
  | nil =>
    by_cases hp : pattern = []
    · simp only [cutAt?, hp, if_true, Option.some.injEq, Prod.mk.injEq] at h
      obtain ⟨rfl, rfl⟩ := h
      simp [hp]
    · simp [cutAt?, hp] at h
  | cons c cs ih =>
    rw [cutAt?] at h
    split at h
    · rename_i rest hrest
      simp only [Option.some.injEq, Prod.mk.injEq] at h
      obtain ⟨rfl, rfl⟩ := h
      have := afterPrefix?_length hrest
      simp only [List.length_nil]
      omega
    · simp only [Option.map_eq_some_iff, Prod.mk.injEq] at h
      obtain ⟨⟨b, a⟩, hb, h₁, h₂⟩ := h
      dsimp only at h₁ h₂
      subst h₁ h₂
      have := ih hb
      simp only [List.length_cons]
      omega

theorem afterPrefix?_append (pattern rest : List Char) :
    afterPrefix? pattern (pattern ++ rest) = some rest := by
  induction pattern with
  | nil => rfl
  | cons p ps ih => simp [afterPrefix?, ih]

theorem eq_append_of_afterPrefix? {pattern cs rest : List Char}
    (h : afterPrefix? pattern cs = some rest) : cs = pattern ++ rest := by
  induction pattern generalizing cs with
  | nil => simpa [afterPrefix?] using h
  | cons p ps ih =>
    cases cs with
    | nil => simp [afterPrefix?] at h
    | cons c cs =>
      by_cases hc : p = c
      · simp only [afterPrefix?, hc, if_true] at h
        simp [hc, ih h]
      · simp [afterPrefix?, hc] at h

theorem beforeSuffix?_append (cs pattern : List Char) :
    beforeSuffix? pattern (cs ++ pattern) = some cs := by
  rw [beforeSuffix?, List.reverse_append, afterPrefix?_append, Option.map_some, List.reverse_reverse]

theorem eq_append_of_beforeSuffix? {pattern cs before : List Char}
    (h : beforeSuffix? pattern cs = some before) : cs = before ++ pattern := by
  obtain ⟨rest, hr, rfl⟩ := Option.map_eq_some_iff.1 h
  have := congrArg List.reverse (eq_append_of_afterPrefix? hr)
  simpa using this

theorem beforeSuffix?_eq_none_iff {pattern cs : List Char} :
    beforeSuffix? pattern cs = none ↔ ∀ before, cs ≠ before ++ pattern := by
  rw [Option.eq_none_iff_forall_ne_some]
  constructor
  · rintro h before rfl
    exact h before (beforeSuffix?_append before pattern)
  · intro h before hbefore
    exact h before (eq_append_of_beforeSuffix? hbefore)

section

variable {p : Char → Bool}

theorem pieces_of_forall {cs : List Char} (h : ∀ c ∈ cs, p c = false) : pieces p cs = [cs] := by
  induction cs with
  | nil => rfl
  | cons c cs ih =>
    simp only [List.forall_mem_cons] at h
    rw [pieces, if_neg (by simp [h.1]), ih h.2]

theorem pieces_append {cs : List Char} (h : ∀ c ∈ cs, p c = false) {c : Char} (hc : p c)
    (rest : List Char) : pieces p (cs ++ c :: rest) = cs :: pieces p rest := by
  induction cs with
  | nil => rw [List.nil_append, pieces, if_pos hc]
  | cons d cs ih =>
    simp only [List.forall_mem_cons] at h
    rw [List.cons_append, pieces, if_neg (by simp [h.1]), ih h.2]

theorem mem_of_mem_intercalate {c d : Char} {texts : List (List Char)}
    (h : d ∈ List.intercalate [c] texts) : d = c ∨ ∃ cs ∈ texts, d ∈ cs := by
  induction texts with
  | nil => simp [List.intercalate_nil] at h
  | cons cs texts ih =>
    cases texts with
    | nil =>
      rw [List.intercalate_singleton] at h
      exact .inr ⟨cs, by simp, h⟩
    | cons ds texts =>
      rw [List.intercalate_cons_cons, List.append_assoc, List.mem_append] at h
      rcases h with h | h
      · exact .inr ⟨cs, by simp, h⟩
      · rw [List.singleton_append, List.mem_cons] at h
        rcases h with h | h
        · exact .inl h
        · rcases ih h with h | ⟨es, he, h⟩
          · exact .inl h
          · exact .inr ⟨es, List.mem_cons_of_mem _ he, h⟩

theorem exists_intercalate_cons (c : Char) (cs : List Char) (texts : List (List Char)) :
    ∃ rest, List.intercalate [c] (cs :: texts) = cs ++ rest := by
  cases texts with
  | nil => exact ⟨[], by rw [List.intercalate_singleton, List.append_nil]⟩
  | cons ds texts => exact ⟨_, by rw [List.intercalate_cons_cons, List.append_assoc]⟩

/-- Cutting undoes putting a separator between texts that are free of it. -/
theorem pieces_intercalate {c : Char} (hc : p c) {texts : List (List Char)} (hne : texts ≠ [])
    (h : ∀ cs ∈ texts, ∀ d ∈ cs, p d = false) : pieces p (List.intercalate [c] texts) = texts := by
  induction texts with
  | nil => contradiction
  | cons cs texts ih =>
    simp only [List.forall_mem_cons] at h
    cases texts with
    | nil => rw [List.intercalate_singleton, pieces_of_forall h.1]
    | cons ds texts =>
      rw [List.intercalate_cons_cons, List.append_assoc, List.singleton_append,
        pieces_append h.1 hc, ih (by simp) h.2]

end

end OData.Text
