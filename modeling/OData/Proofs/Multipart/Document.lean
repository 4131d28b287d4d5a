import OData.Proofs.Http.Head
import OData.Proofs.Multipart.Boundary

/-!
Documents of several parts, with either line ending and with texts around the parts. Splitting gives
the parts back, since the delimiter stands only where it was written.
-/

namespace OData.Multipart

def Part.written (nl : LineEnding) (p : Part) : List Char :=
  p.headers.written nl ++ (nl.chars ++ p.body.toList)

/-- A part between the delimiters around it. -/
def Part.section (nl : LineEnding) (p : Part) : List Char :=
  nl.chars ++ (p.written nl ++ nl.chars)

/-- What stands around the parts of a document. A text in front of the first delimiter or behind the
last one has lines of its own. -/
structure Envelope where
  boundary : String
  preamble : Option String := none
  epilogue : Option String := some ""
  deriving DecidableEq, Repr

namespace Envelope

def before (nl : LineEnding) (e : Envelope) : List Char :=
  match e.preamble with
  | some text => text.toList ++ nl.chars
  | none => []

def after (nl : LineEnding) (e : Envelope) : List Char :=
  match e.epilogue with
  | some text => nl.chars ++ text.toList
  | none => []

/-- The document of some parts: a delimiter in front of each, and one with two hyphens at the end. -/
def chars (nl : LineEnding) (e : Envelope) (parts : List Part) : List Char :=
  e.before nl ++ (parts.flatMap fun p ↦ delimiter e.boundary ++ p.section nl) ++
    delimiter e.boundary ++ '-' :: '-' :: e.after nl

/-- The delimiter does not occur in what it stands between. -/
structure Separates (nl : LineEnding) (e : Envelope) (parts : List Part) : Prop where
  boundary : IsBoundary e.boundary
  preamble : ∀ text ∈ e.preamble, ¬ delimiter e.boundary <:+: text.toList
  parts : ∀ p ∈ parts, ¬ delimiter e.boundary <:+: p.written nl

instance (nl : LineEnding) (e : Envelope) (parts : List Part) : Decidable (e.Separates nl parts) :=
  decidable_of_iff
    (IsBoundary e.boundary ∧ (∀ text ∈ e.preamble, ¬ delimiter e.boundary <:+: text.toList) ∧
      ∀ p ∈ parts, ¬ delimiter e.boundary <:+: p.written nl)
    ⟨fun ⟨h₁, h₂, h₃⟩ ↦ ⟨h₁, h₂, h₃⟩, fun ⟨h₁, h₂, h₃⟩ ↦ ⟨h₁, h₂, h₃⟩⟩

end Envelope

variable {nl : LineEnding} {e : Envelope} {parts : List Part} {p : Part} {pattern : List Char}

/-- A part with what is left of its body at the end of a line. -/
def Part.keep (nl : LineEnding) (p : Part) : Part :=
  ⟨p.headers, String.ofList (nl.keep p.body.toList)⟩

theorem Part.keep_eq_self (h : nl = .lf → p.body.toList.getLast? ≠ some '\r') : p.keep nl = p := by
  rw [keep, LineEnding.keep_eq_self h, String.ofList_toList]

structure Part.HasHeaders (p : Part) : Prop where
  ne_nil : p.headers ≠ []
  isHeader : ∀ header ∈ p.headers, IsHeader header

theorem Part.ofSection_section (h : p.HasHeaders) : ofSection (p.section nl) = p.keep nl := by
  obtain ⟨head, hcut, hread⟩ :=
    Headers.exists_head_of_written nl h.ne_nil h.isHeader (nl.keep p.body.toList)
  have hkeep : nl.keep (p.written nl) =
      p.headers.written nl ++ (nl.chars ++ nl.keep p.body.toList) := by
    have hbody : nl.chars ++ p.body.toList ≠ [] := by cases nl <;> exact List.cons_ne_nil _ _
    rw [written, LineEnding.keep_append nl _ hbody, LineEnding.keep_chars_append]
  rw [ofSection, Part.section, LineEnding.afterLineBreak?_chars_append, Option.getD_some,
    LineEnding.withoutFinalLineBreak_append_chars, hkeep, hcut]
  dsimp only
  rw [hread]
  rfl

theorem Part.infix_written_iff (hp : pattern ≠ []) (ho : OneLine pattern) :
    pattern <:+: p.written nl ↔
      (∃ header ∈ p.headers, pattern <:+: Headers.line header) ∨ pattern <:+: p.body.toList := by
  rw [written, Headers.infix_written_append hp ho, LineEnding.infix_chars_append hp ho]

theorem Part.infix_body_of_infix_written (hp : pattern ≠ []) (ho : OneLine pattern)
    (hheaders : ∀ header ∈ p.headers, ¬ pattern <:+: Headers.line header)
    (h : pattern <:+: p.written nl) : pattern <:+: p.body.toList :=
  ((infix_written_iff hp ho).1 h).resolve_left fun ⟨header, hheader, hline⟩ ↦
    hheaders header hheader hline

theorem Part.clearOf_section (hp : pattern ≠ []) (ho : OneLine pattern)
    (h : ¬ pattern <:+: p.written nl) : Text.ClearOf pattern (p.section nl) := by
  have hwritten : ¬ pattern <:+: nl.chars ++ p.written nl := by
    rwa [LineEnding.infix_chars_append hp ho]
  rw [Part.section, ← List.append_assoc]
  exact LineEnding.clearOf_append_chars hp ho hwritten

theorem Part.exists_section_eq (nl : LineEnding) (p : Part) :
    ∃ c cs, p.section nl = c :: cs ∧ c ≠ '-' := by
  cases nl with
  | crlf => exact ⟨'\r', _, rfl, by decide⟩
  | lf => exact ⟨'\n', _, rfl, by decide⟩

theorem partsOfSections?_cons {cs : List Char} (h : ∀ inside, cs ≠ '-' :: '-' :: inside)
    (rest : List (List Char)) :
    partsOfSections? (cs :: rest) = (partsOfSections? rest).map (Part.ofSection cs :: ·) := by
  rw [partsOfSections?]
  exact h

theorem partsOfSections?_append {rest : List (List Char)}
    (hrest : partsOfSections? rest = some []) :
    partsOfSections? (parts.map (Part.section nl) ++ rest) =
      some (parts.map fun p ↦ Part.ofSection (p.section nl)) := by
  induction parts with
  | nil => exact hrest
  | cons p parts ih =>
    obtain ⟨c, cs, hsection, hc⟩ := p.exists_section_eq nl
    have hopen : ∀ inside, p.section nl ≠ '-' :: '-' :: inside := by
      intro inside hinside
      rw [hsection] at hinside
      exact hc (List.cons.inj hinside).1
    rw [List.map_cons, List.cons_append, partsOfSections?_cons hopen, ih]
    rfl

theorem afterPrefix?_eq_none {c : Char} {after : List Char} (hc : c ∉ after.head?) :
    Text.afterPrefix? (c :: pattern) after = none := by
  cases after with
  | nil => rfl
  | cons d after =>
    have hne : c ≠ d := fun heq ↦ hc (congrArg some heq.symm)
    rw [Text.afterPrefix?, if_neg hne]

/-- The two hyphens behind the last delimiter are no beginning of another one. -/
theorem exists_sections_closing {b : String} (hne : b.toList ≠ []) {after : List Char}
    (hafter : ∀ c ∈ after.head?, c ∉ delimiter b) :
    ∃ cs rest, Text.sections (delimiter b) ('-' :: '-' :: after) = ('-' :: '-' :: cs) :: rest := by
  obtain ⟨c, cs, hcs⟩ := List.exists_cons_of_ne_nil hne
  have hmem : ∀ d ∈ delimiter b, d ∉ after.head? := fun d hd hhead ↦ hafter d hhead hd
  have hfirst : Text.afterPrefix? (delimiter b) ('-' :: '-' :: after) = none := by
    rw [delimiter, hcs, Text.afterPrefix?, if_pos rfl, Text.afterPrefix?, if_pos rfl]
    exact afterPrefix?_eq_none (hmem c (by simp [delimiter, hcs]))
  have hsecond : Text.afterPrefix? (delimiter b) ('-' :: after) = none := by
    rw [delimiter, Text.afterPrefix?, if_pos rfl]
    exact afterPrefix?_eq_none (hmem '-' (by simp [delimiter]))
  rw [Text.sections, Text.cutAt?, hfirst]
  dsimp only
  rw [Text.cutAt?, hsecond]
  dsimp only
  cases Text.cutAt? (delimiter b) after with
  | none => exact ⟨after, [], rfl⟩
  | some cut =>
    obtain ⟨inside, behind⟩ := cut
    simp only [Option.map_some]
    split
    · exact ⟨inside, _, rfl⟩
    · exact ⟨after, [], rfl⟩

theorem oneLine_delimiter {b : String} (h : OneLine b.toList) : OneLine (delimiter b) where
  no_return := by simp [delimiter, h.no_return]
  no_feed := by simp [delimiter, h.no_feed]

theorem IsBoundary.delimiter_oneLine {b : String} (h : IsBoundary b) : OneLine (delimiter b) :=
  oneLine_delimiter (oneLine_of_no_blank h.no_blank)

namespace Envelope

theorem head_after (ho : OneLine pattern) (nl : LineEnding) (e : Envelope) :
    ∀ c ∈ (e.after nl).head?, c ∉ pattern := by
  rw [after]
  cases e.epilogue with
  | none => nofun
  | some text =>
    cases nl with
    | crlf => exact fun c hc ↦ Option.some.inj hc ▸ ho.no_return
    | lf => exact fun c hc ↦ Option.some.inj hc ▸ ho.no_feed

/-- The delimiter lies in one line, and does not occur in what it stands between. -/
structure Apart (nl : LineEnding) (e : Envelope) (parts : List Part) : Prop where
  ne_nil : e.boundary.toList ≠ []
  oneLine : OneLine e.boundary.toList
  preamble : ∀ text ∈ e.preamble, ¬ delimiter e.boundary <:+: text.toList
  parts : ∀ p ∈ parts, ¬ delimiter e.boundary <:+: p.written nl

theorem Separates.apart (h : e.Separates nl parts) : e.Apart nl parts :=
  ⟨h.boundary.ne_nil, oneLine_of_no_blank h.boundary.no_blank, h.preamble, h.parts⟩

theorem Apart.clearOf_before (h : e.Apart nl parts) :
    Text.ClearOf (delimiter e.boundary) (e.before nl) := by
  rw [before]
  cases hpreamble : e.preamble with
  | none => exact Text.clearOf_nil (delimiter_ne_nil _)
  | some text =>
    exact LineEnding.clearOf_append_chars (delimiter_ne_nil _) (oneLine_delimiter h.oneLine)
      (h.preamble text hpreamble)

theorem Apart.clearOf_section (h : e.Apart nl parts) (hp : p ∈ parts) :
    Text.ClearOf (delimiter e.boundary) (p.section nl) :=
  Part.clearOf_section (delimiter_ne_nil _) (oneLine_delimiter h.oneLine) (h.parts p hp)

theorem Apart.sections_chars (h : e.Apart nl parts) :
    Text.sections (delimiter e.boundary) (e.chars nl parts) =
      e.before nl :: (parts.map (Part.section nl) ++
        Text.sections (delimiter e.boundary) ('-' :: '-' :: e.after nl)) := by
  have hsections : ∀ cs ∈ parts.map (Part.section nl),
      Text.ClearOf (delimiter e.boundary) cs := by
    intro cs hcs
    obtain ⟨p, hp, rfl⟩ := List.mem_map.1 hcs
    exact h.clearOf_section hp
  have hread := Text.sections_append_flatMap (delimiter_ne_nil e.boundary) h.clearOf_before
    hsections ('-' :: '-' :: e.after nl)
  rw [List.flatMap_map] at hread
  rw [chars, List.append_assoc, List.append_assoc]
  exact hread

/-- Splitting a document gives what its sections are read as. -/
theorem Apart.split_chars (h : e.Apart nl parts) :
    split e.boundary (String.ofList (e.chars nl parts)) =
      .ok (parts.map fun p ↦ Part.ofSection (p.section nl)) := by
  obtain ⟨cs, rest, hclosing⟩ := exists_sections_closing h.ne_nil
    (head_after (oneLine_delimiter h.oneLine) nl e)
  rw [split, String.toList_ofList, h.sections_chars, hclosing, List.tail_cons,
    partsOfSections?_append rfl]

/-- Splitting a document gives its parts. -/
theorem Separates.split_chars (h : e.Separates nl parts) (hparts : ∀ p ∈ parts, p.HasHeaders) :
    split e.boundary (String.ofList (e.chars nl parts)) = .ok (parts.map (Part.keep nl)) := by
  rw [h.apart.split_chars]
  exact congrArg Except.ok (List.map_congr_left fun p hp ↦ Part.ofSection_section (hparts p hp))

/-- A document as the body of a part loses no more than the end of its epilogue. -/
theorem exists_keep_chars (nl : LineEnding) (e : Envelope) (parts : List Part) :
    ∃ epilogue, nl.keep (e.chars nl parts) = { e with epilogue := epilogue }.chars nl parts := by
  have hafter : ∃ epilogue, nl.keep ('-' :: '-' :: e.after nl) =
      '-' :: '-' :: { e with epilogue := epilogue }.after nl := by
    cases hepilogue : e.epilogue with
    | none =>
      refine ⟨none, ?_⟩
      rw [after, hepilogue]
      cases nl <;> rfl
    | some text =>
      refine ⟨some (String.ofList (nl.keep text.toList)), ?_⟩
      have hbreak : nl.chars ++ text.toList ≠ [] := by cases nl <;> exact List.cons_ne_nil _ _
      have hkeep := LineEnding.keep_append nl ['-', '-'] hbreak
      rw [LineEnding.keep_chars_append] at hkeep
      rw [after, hepilogue, after]
      dsimp only
      rw [String.toList_ofList]
      exact hkeep
  obtain ⟨epilogue, hkeep⟩ := hafter
  refine ⟨epilogue, ?_⟩
  rw [chars, LineEnding.keep_append nl _ (List.cons_ne_nil _ _), hkeep]
  rfl

end Envelope

theorem isHeader_contentType {b : String} (h : IsBoundary b) :
    IsHeader ("Content-Type", contentType b) := by
  have hname : IsHeader ("Content-Type", "") := by decide
  have htrimmed : Text.Trimmed (contentType b).toList := by
    rw [toList_contentType]
    constructor
    case head =>
      intro c hc
      obtain rfl := Option.some.inj hc
      rfl
    case last =>
      intro c hc
      rw [List.getLast?_append_of_ne_nil _ h.ne_nil] at hc
      exact h.no_blank c (List.mem_of_getLast? hc)
  have hline : '\n' ∉ (contentType b).toList := by
    rw [toList_contentType, List.mem_append]
    rintro (hc | hc)
    · exact absurd hc (by decide)
    · exact absurd (h.no_blank _ hc) (by decide)
  exact hname.withValue htrimmed hline

theorem hasHeaders_nested {b : String} (h : IsBoundary b) (parts : List Part) :
    (nested b parts).HasHeaders where
  ne_nil := List.cons_ne_nil _ _
  isHeader := List.forall_mem_singleton.2 (isHeader_contentType h)

theorem Part.chars_eq_section (b : String) (p : Part) :
    p.chars b = delimiter b ++ p.section .crlf := by
  simp [Part.chars, Part.section, Part.written, Headers.written_crlf, LineEnding.chars]

/-- A document that is written has nothing around its parts. -/
theorem chars_eq_envelope (b : String) (parts : List Part) :
    Multipart.chars b parts = Envelope.chars .crlf ⟨b, none, some ""⟩ parts := by
  have hparts : Part.chars b = fun p ↦ delimiter b ++ p.section .crlf :=
    funext (Part.chars_eq_section b)
  rw [Multipart.chars, hparts, Envelope.chars, Envelope.before, List.nil_append, List.append_assoc]
  rfl

theorem split_text {b : String} (h : Envelope.Separates .crlf ⟨b, none, some ""⟩ parts)
    (hparts : ∀ p ∈ parts, p.HasHeaders) : split b (text b parts) = .ok parts := by
  have hpart : ∀ p : Part, p.keep .crlf = p := fun p ↦ Part.keep_eq_self nofun
  have hkeep : parts.map (Part.keep .crlf) = parts := List.map_id'' hpart parts
  have hsplit := h.split_chars hparts
  rw [hkeep] at hsplit
  rw [text, chars_eq_envelope]
  exact hsplit

/-- A pattern in one line that is in a document stands in the last delimiter or in a part. -/
theorem infix_chars {b : String} (hp : pattern ≠ []) (ho : OneLine pattern)
    (h : pattern <:+: Multipart.chars b parts) :
    pattern <:+: delimiter b ++ ['-', '-'] ∨ ∃ p ∈ parts, pattern <:+: p.written .crlf := by
  have hsplit := LineEnding.infix_append_chars_append hp ho .crlf
  rw [chars_eq_envelope, Envelope.chars, Envelope.before, List.nil_append, List.append_assoc] at h
  induction parts with
  | nil =>
    have hclosing : pattern <:+: (delimiter b ++ ['-', '-']) ++ (LineEnding.crlf.chars ++ []) := by
      rw [List.append_assoc]
      exact h
    rw [hsplit, List.infix_nil] at hclosing
    exact .inl (hclosing.resolve_right hp)
  | cons p parts ih =>
    rw [List.flatMap_cons, Part.section, List.append_assoc, List.append_assoc, List.append_assoc,
      List.append_assoc, hsplit, hsplit] at h
    rcases h with hdelimiter | hwritten | hrest
    · exact .inl (hdelimiter.trans (List.prefix_append _ _).isInfix)
    · exact .inr ⟨p, List.mem_cons_self, hwritten⟩
    · rcases ih hrest with hdelimiter | ⟨other, hother, hwritten⟩
      · exact .inl hdelimiter
      · exact .inr ⟨other, List.mem_cons_of_mem _ hother, hwritten⟩

end OData.Multipart
