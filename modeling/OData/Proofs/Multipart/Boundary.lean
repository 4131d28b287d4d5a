import OData.Multipart
import OData.Proofs.Text.Trimmed

/-!
Boundaries and the content types that name them.
-/

namespace OData.Multipart

variable {b contentType : String}

structure IsBoundary (b : String) : Prop where
  ne_nil : b.toList ≠ []
  no_blank : ∀ c ∈ b.toList, Text.isBlank c = false
  no_semicolon : ';' ∉ b.toList
  no_quote : '"' ∉ b.toList

theorem isBoundary_iff {b : String} :
    b.toList.isEmpty = false ∧ b.toList.all (!Text.isBlank ·) ∧ b.toList.contains ';' = false ∧
      b.toList.contains '"' = false ↔ IsBoundary b := by
  simp only [List.contains_eq_mem, decide_eq_false_iff_not, List.isEmpty_eq_false_iff,
    List.all_eq_true, Bool.not_eq_true']
  exact ⟨fun ⟨h₁, h₂, h₃, h₄⟩ ↦ ⟨h₁, h₂, h₃, h₄⟩, fun ⟨h₁, h₂, h₃, h₄⟩ ↦ ⟨h₁, h₂, h₃, h₄⟩⟩

instance (b : String) : Decidable (IsBoundary b) :=
  decidable_of_iff _ isBoundary_iff

/-- The content type of a document with a boundary, which stands bare or in quotes. More parameters
may follow. -/
inductive NamesBoundary (b : String) : String → Prop
  | bare (rest : String) (h : ∀ c ∈ rest.toList.head?, c = ';' ∨ Text.isBlank c) :
    NamesBoundary b ("multipart/mixed; boundary=" ++ b ++ rest)
  | quoted (rest : String) : NamesBoundary b ("multipart/mixed; boundary=\"" ++ b ++ "\"" ++ rest)

theorem toList_contentType (b : String) : (Multipart.contentType b).toList =
    "multipart/mixed; boundary=".toList ++ b.toList :=
  String.toList_append

theorem NamesBoundary.mixed (h : NamesBoundary b contentType) :
    "multipart/mixed".toList <+: contentType.toList := by
  cases h with
  | bare rest =>
    have hname : "multipart/mixed".toList <+: "multipart/mixed; boundary=".toList := by decide
    rw [String.toList_append, String.toList_append, List.append_assoc]
    exact hname.trans (List.prefix_append _ _)
  | quoted rest =>
    have hname : "multipart/mixed".toList <+: "multipart/mixed; boundary=\"".toList := by decide
    rw [String.toList_append, String.toList_append, String.toList_append, List.append_assoc,
      List.append_assoc]
    exact hname.trans (List.prefix_append _ _)

theorem namesBoundary_contentType (b : String) : NamesBoundary b (Multipart.contentType b) := by
  have h := NamesBoundary.bare (b := b) "" nofun
  rwa [String.append_empty] at h

theorem delimiter_ne_nil (b : String) : delimiter b ≠ [] :=
  List.cons_ne_nil _ _

theorem boundaryIn?_append {before rest : List Char} (h : before.all (·.toLower ≠ 'b')) :
    boundaryIn? (before ++ rest) = boundaryIn? rest := by
  induction before with
  | nil => rfl
  | cons c before ih =>
    obtain ⟨hfirst, hbefore⟩ := Bool.and_eq_true_iff.1 h
    have hc : c.toLower ≠ 'b' := of_decide_eq_true hfirst
    have hname : Text.lower ((c :: (before ++ rest)).take "boundary=".toList.length) ≠
        "boundary=".toList := by
      intro heq
      exact hc (List.cons.inj heq).1
    rw [List.cons_append, boundaryIn?, if_neg hname, ih hbefore]
    rfl

theorem quotedBoundary?_append (h : IsBoundary b) (rest : List Char) :
    quotedBoundary? ('"' :: (b.toList ++ '"' :: rest)) = some b.toList := by
  have hquote : ∀ c ∈ b.toList, decide (c = '"') = false := by
    intro c hc
    apply decide_eq_false
    rintro rfl
    exact h.no_quote hc
  rw [quotedBoundary?, Text.cutWhere?_append hquote rfl]
  exact if_neg h.ne_nil

theorem quotedBoundary?_eq_none (h : IsBoundary b) (rest : List Char) :
    quotedBoundary? (b.toList ++ rest) = none := by
  obtain ⟨c, cs, hb⟩ := List.exists_cons_of_ne_nil h.ne_nil
  rw [hb, List.cons_append, quotedBoundary?]
  intro after hafter
  obtain ⟨rfl, -⟩ := List.cons.inj hafter
  exact h.no_quote (hb ▸ List.mem_cons_self)

theorem bareBoundary?_append (h : IsBoundary b) {rest : List Char}
    (hrest : ∀ c ∈ rest.head?, c = ';' ∨ Text.isBlank c) :
    bareBoundary? (b.toList ++ rest) = some b.toList := by
  have hinside : ∀ c ∈ b.toList, (decide (c ≠ ';') && !Text.isBlank c) = true := by
    intro c hc
    have hsemicolon : c ≠ ';' := fun heq ↦ h.no_semicolon (heq ▸ hc)
    simp [hsemicolon, h.no_blank c hc]
  have hbehind : rest.takeWhile (fun c ↦ decide (c ≠ ';') && !Text.isBlank c) = [] := by
    cases rest with
    | nil => rfl
    | cons c rest =>
      apply List.takeWhile_cons_of_neg
      rcases hrest c rfl with rfl | hblank
      · decide
      · simp [hblank]
  rw [bareBoundary?, List.takeWhile_append_of_pos hinside, hbehind, List.append_nil]
  exact if_neg h.ne_nil

theorem boundaryIn?_name {value name : List Char}
    (h : (quotedBoundary? value <|> bareBoundary? value) = some name) :
    boundaryIn? ("multipart/mixed; ".toList ++ ("boundary=".toList ++ value)) = some name := by
  have hname : Text.lower (("boundary=".toList ++ value).take "boundary=".toList.length) =
      "boundary=".toList := rfl
  have hvalue : ("boundary=".toList ++ value).drop "boundary=".toList.length = value := rfl
  rw [boundaryIn?_append (by decide)]
  show boundaryIn? ('b' :: ("oundary=".toList ++ value)) = some name
  rw [boundaryIn?]
  show ((if Text.lower (("boundary=".toList ++ value).take "boundary=".toList.length) =
      "boundary=".toList then _ else _) <|> _) = some name
  rw [if_pos hname]
  show ((quotedBoundary? (("boundary=".toList ++ value).drop "boundary=".toList.length) <|>
    bareBoundary? (("boundary=".toList ++ value).drop "boundary=".toList.length)) <|> _) = some name
  rw [hvalue, h]
  rfl

/-- The boundary that a content type names is the one that is read from it. -/
theorem boundary_eq_ok (h : IsBoundary b) (hn : NamesBoundary b contentType) :
    boundary contentType = .ok b := by
  have hread : boundaryIn? contentType.toList = some b.toList := by
    cases hn with
    | bare rest hrest =>
      have hvalue : (quotedBoundary? (b.toList ++ rest.toList) <|>
          bareBoundary? (b.toList ++ rest.toList)) = some b.toList := by
        rw [quotedBoundary?_eq_none h, bareBoundary?_append h hrest]
        rfl
      have hname := boundaryIn?_name hvalue
      rwa [String.toList_append, String.toList_append, List.append_assoc]
    | quoted rest =>
      have hvalue : (quotedBoundary? ('"' :: (b.toList ++ '"' :: rest.toList)) <|>
          bareBoundary? ('"' :: (b.toList ++ '"' :: rest.toList))) = some b.toList := by
        rw [quotedBoundary?_append h]
        rfl
      have hname := boundaryIn?_name hvalue
      simpa using hname
  rw [boundary, hread]
  dsimp only
  rw [String.ofList_toList]

end OData.Multipart
