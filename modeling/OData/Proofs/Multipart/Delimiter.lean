import OData.Proofs.Multipart.Document

/-!
Which documents of several parts are split into those parts again. A delimiter counts wherever its
text stands, so it is not enough that no line of a body begins with it.
-/

namespace OData.Multipart

variable {b : String} {nl : LineEnding} {p : Part} {parts : List Part}

namespace Part

/-- What is in a part, without what is written around it. -/
def texts (p : Part) : List Char :=
  p.headers.texts ++ p.body.toList

/-- Reading a part makes no text up. -/
theorem texts_ofSection_sublist (cs : List Char) : (ofSection cs).texts.Sublist cs := by
  have hbreak : ((afterLineBreak? cs).getD cs).Sublist cs := by
    cases h : afterLineBreak? cs with
    | none => exact .refl cs
    | some behind => exact afterLineBreak?_sublist h
  have hinside := (withoutFinalLineBreak_sublist _).trans hbreak
  have hcut := (cutAtBlankLine_sublist _).trans hinside
  have hbody : ∀ body : List Char, body.Sublist (String.ofList body).toList := by
    intro body
    rw [String.toList_ofList]
  rw [ofSection, texts]
  dsimp only
  rw [String.toList_ofList]
  exact ((Headers.texts_ofLines_sublist _).append (.refl _)).trans hcut

theorem count_hyphen_section (nl : LineEnding) (p : Part) :
    (p.section nl).count '-' = p.texts.count '-' := by
  have hnl : nl.chars.count '-' = 0 := by cases nl <;> rfl
  simp only [Part.section, written, texts, List.count_append, Headers.count_hyphen_written, hnl,
    Nat.add_zero, Nat.zero_add]

/-- A section that is cut at a delimiter has lost its hyphens. -/
theorem ofSection_ne {before : List Char} (h : before ++ delimiter b <+: p.section nl) :
    ofSection before ≠ p := by
  intro heq
  have hread := (texts_ofSection_sublist before).count_le '-'
  have hwritten := h.sublist.count_le '-'
  rw [heq] at hread
  rw [count_hyphen_section, List.count_append, delimiter, List.count_cons_self] at hwritten
  omega

end Part

/-- A document behind its first delimiter. -/
def opened (b : String) : List Part → List Char
  | [] => '-' :: '-' :: lineBreak
  | p :: parts => p.section .crlf ++ (delimiter b ++ opened b parts)

theorem chars_eq_opened (b : String) (parts : List Part) :
    Multipart.chars b parts = delimiter b ++ opened b parts := by
  induction parts with
  | nil => rfl
  | cons p parts ih =>
    rw [opened, ← ih, Multipart.chars, List.flatMap_cons, Part.chars_eq_section]
    simp only [Multipart.chars, List.append_assoc]

/-- Where the first delimiter stands inside of a part, reading does not give that part. -/
theorem partsOfSections?_ne (h : delimiter b <:+: p.section nl) (rest : List Char) :
    partsOfSections? (Text.sections (delimiter b) (p.section nl ++ rest)) ≠ some (p :: parts) := by
  obtain ⟨before, after, hcut, hbefore⟩ := Text.exists_cutAt?_append h rest
  have hshort := Text.cutAt?_length hcut
  have hopen : ∀ inside, before ≠ '-' :: '-' :: inside := by
    rintro inside rfl
    obtain ⟨c, cs, hsection, hc⟩ := p.exists_section_eq nl
    rw [hsection, List.cons_append, List.cons_prefix_cons] at hbefore
    exact hc hbefore.1.symm
  have hlength : after.length < (p.section nl ++ rest).length := by
    rw [delimiter, List.length_cons] at hshort
    omega
  rw [Text.sections, hcut]
  dsimp only
  rw [if_pos hlength, partsOfSections?_cons hopen]
  intro hread
  obtain ⟨others, -, heq⟩ := Option.map_eq_some_iff.1 hread
  exact Part.ofSection_ne hbefore (List.cons.inj heq).1

theorem partsOfSections?_opened_iff (hne : b.toList ≠ []) (ho : OneLine (delimiter b))
    (hparts : ∀ p ∈ parts, p.HasHeaders) :
    partsOfSections? (Text.sections (delimiter b) (opened b parts)) = some parts ↔
      ∀ p ∈ parts, ¬ delimiter b <:+: p.written .crlf := by
  induction parts with
  | nil =>
    have hafter : ∀ c ∈ lineBreak.head?, c ∉ delimiter b :=
      fun c hc ↦ Option.some.inj hc ▸ ho.no_return
    obtain ⟨cs, rest, hclosing⟩ := exists_sections_closing hne hafter
    rw [opened, hclosing]
    exact iff_of_true rfl nofun
  | cons p parts ih =>
    obtain ⟨hp, hrest⟩ := List.forall_mem_cons.1 hparts
    rw [List.forall_mem_cons, ← ih hrest, opened]
    by_cases hinside : delimiter b <:+: p.written .crlf
    · have hsection : delimiter b <:+: p.section .crlf :=
        hinside.trans (List.infix_append' LineEnding.crlf.chars _ _)
      exact iff_of_false (partsOfSections?_ne hsection _) fun h ↦ h.1 hinside
    · have hclear : Text.ClearOf (delimiter b) (p.section .crlf) :=
        Part.clearOf_section (delimiter_ne_nil b) ho hinside
      have hopen : ∀ inside, p.section .crlf ≠ '-' :: '-' :: inside := nofun
      have hkeep : LineEnding.crlf = .lf → p.body.toList.getLast? ≠ some '\r' := nofun
      rw [Text.sections_append (delimiter_ne_nil b) hclear, partsOfSections?_cons hopen,
        Part.ofSection_section hp, Part.keep_eq_self hkeep]
      cases partsOfSections? (Text.sections (delimiter b) (opened b parts)) with
      | none => exact iff_of_false nofun fun h ↦ absurd h.2 nofun
      | some others => simp [hinside]

theorem split_text_iff_written (hne : b.toList ≠ []) (ho : OneLine (delimiter b))
    (hparts : ∀ p ∈ parts, p.HasHeaders) :
    split b (text b parts) = .ok parts ↔ ∀ p ∈ parts, ¬ delimiter b <:+: p.written .crlf := by
  have hfirst := Text.sections_append (delimiter_ne_nil b) (Text.clearOf_nil (delimiter_ne_nil b))
    (opened b parts)
  rw [List.nil_append] at hfirst
  rw [← partsOfSections?_opened_iff hne ho hparts, split, text, String.toList_ofList,
    chars_eq_opened, hfirst, List.tail_cons]
  cases partsOfSections? (Text.sections (delimiter b) (opened b parts)) with
  | none =>
    refine iff_of_false (fun h ↦ ?_) (Option.some_ne_none parts).symm
    contradiction
  | some others => simp

/-- Splitting a document gives back its parts exactly when the text of the delimiter occurs in no
header and in no body. -/
theorem split_text_iff (hne : b.toList ≠ []) (hb : OneLine b.toList)
    (hparts : ∀ p ∈ parts, p.HasHeaders) :
    split b (text b parts) = .ok parts ↔
      ∀ p ∈ parts, (∀ header ∈ p.headers, ¬ delimiter b <:+: Headers.line header) ∧
        ¬ delimiter b <:+: p.body.toList := by
  have ho := oneLine_delimiter hb
  rw [split_text_iff_written hne ho hparts]
  refine forall₂_congr fun p _ ↦ ?_
  rw [Part.infix_written_iff (delimiter_ne_nil b) ho, not_or]
  simp only [not_exists, not_and]

def textPart (body : String) : Part :=
  ⟨[("Content-Type", "text/plain")], body⟩

theorem hasHeaders_textPart (body : String) : (textPart body).HasHeaders where
  ne_nil := List.cons_ne_nil _ _
  isHeader := List.forall_mem_singleton.2 (by decide)

/-- A delimiter that lacks a character is no delimiter. -/
theorem split_text_close_call :
    "batch".toList ≠ [] ∧ OneLine "batch".toList ∧
      (∀ p ∈ [textPart "--batc\r\n-batch", textPart ""], p.HasHeaders) ∧
      split "batch" (text "batch" [textPart "--batc\r\n-batch", textPart ""]) =
        .ok [textPart "--batc\r\n-batch", textPart ""] := by
  have hne : "batch".toList ≠ [] := by decide
  have hb : OneLine "batch".toList := ⟨by decide, by decide⟩
  have hparts : ∀ p ∈ [textPart "--batc\r\n-batch", textPart ""], p.HasHeaders :=
    List.forall_mem_cons.2 ⟨hasHeaders_textPart _,
      List.forall_mem_singleton.2 (hasHeaders_textPart _)⟩
  exact ⟨hne, hb, hparts, (split_text_iff hne hb hparts).2 (by decide)⟩

/-- A line of the text begins with the pattern. -/
def BeginsLine (pattern cs : List Char) : Prop :=
  pattern <+: cs ∨ '\n' :: pattern <:+: cs

instance (pattern cs : List Char) : Decidable (BeginsLine pattern cs) :=
  inferInstanceAs (Decidable (pattern <+: cs ∨ '\n' :: pattern <:+: cs))

/-- The text of a delimiter inside a line of a body cuts the part, and so does that of an outer one
inside the delimiter lines of a document that is a part itself. -/
theorem not_split_text_of_lines :
    (¬ ∀ b parts, IsBoundary b → (∀ p ∈ parts, p.HasHeaders) →
      (∀ p ∈ parts, ¬ BeginsLine (delimiter b) p.body.toList) →
      split b (text b parts) = .ok parts) ∧
    ¬ ∀ outer inner parts, IsBoundary outer → IsBoundary inner → outer ≠ inner →
      (∀ p ∈ parts, p.HasHeaders) → ¬ BeginsLine (delimiter outer) (text inner parts).toList →
      split outer (text outer [nested inner parts]) = .ok [nested inner parts] := by
  constructor
  case left =>
    intro h
    have hb : IsBoundary "b" := by decide
    have hparts : ∀ p ∈ [textPart "x--b y"], p.HasHeaders :=
      List.forall_mem_singleton.2 (hasHeaders_textPart _)
    have hread := h "b" [textPart "x--b y"] hb hparts (List.forall_mem_singleton.2 (by decide))
    have hclear := (split_text_iff_written hb.ne_nil hb.delimiter_oneLine hparts).1 hread
    exact hclear _ List.mem_cons_self (by decide)
  case right =>
    intro h
    have hinner : IsBoundary "x--batch" := by decide
    have houter : IsBoundary "batch" := by decide
    have hparts : ∀ p ∈ [nested "x--batch" [textPart "y"]], p.HasHeaders :=
      List.forall_mem_singleton.2 (hasHeaders_nested hinner _)
    have hread := h "batch" "x--batch" [textPart "y"] houter hinner (by decide)
      (List.forall_mem_singleton.2 (hasHeaders_textPart _)) (by decide)
    have hclear := (split_text_iff_written houter.ne_nil houter.delimiter_oneLine hparts).1 hread
    exact hclear _ List.mem_cons_self (by decide)

end OData.Multipart
