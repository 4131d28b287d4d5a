import OData.Text.AsciiCase
import OData.Xml.Tag

/-!
The tokens of an XML text: tags, runs of text and CDATA sections. Comments, processing instructions
and the document type are passed over. A run of text has no blanks at its ends, and is none if
nothing else is left of it. An end tag must name the element that it closes.
-/

namespace OData.Xml

inductive Token
  | startTag (t : Tag)
  | emptyTag (t : Tag)
  | endTag
  /-- Text whose references are not expanded yet. -/
  | text (cs : List Char)
  | cdata (cs : List Char)
  /-- Where the text stops being XML; nothing comes after it. -/
  | broken
  deriving DecidableEq, Repr

inductive Markup
  | startTag (t : Tag)
  | emptyTag (t : Tag)
  | endTag (name : List Char)
  | cdata (cs : List Char)
  | skipped
  | broken
  deriving DecidableEq, Repr

/-- The content of a tag up to its closing bracket, where brackets in quotes do not count, and what
follows. -/
def cutTag? : (quote : Option Char) → List Char → Option (List Char × List Char)
  | _, [] => none
  | none, c :: cs =>
    if c = '>' then some ([], cs)
    else
      (cutTag? (if c = '"' ∨ c = '\'' then some c else none) cs).map
        fun (content, rest) ↦ (c :: content, rest)
  | some q, c :: cs =>
    (cutTag? (if c = q then none else some q) cs).map fun (content, rest) ↦ (c :: content, rest)

/-- A tag from its content: the name goes up to the first blank, and a slash at the end makes it
empty. -/
def tagOf (content : List Char) : Markup :=
  let split (cs : List Char) : Tag :=
    ⟨cs.takeWhile fun c ↦ !Text.isMarkupBlank c, cs.dropWhile fun c ↦ !Text.isMarkupBlank c⟩
  if content.getLast? = some '/' then .emptyTag (split content.dropLast)
  else .startTag (split content)

/-- The text up to a closing bracket, or all of it where there is none. -/
def upToBracket (cs : List Char) : List Char × List Char :=
  (Text.cutWhere? (· = '>') cs).getD (cs, [])

/-- The document type up to the bracket that closes it; `level` counts the brackets that are open
within. -/
def cutDocumentType? : (level : Int) → List Char → Option (List Char × List Char)
  | _, [] => none
  | level, c :: cs =>
    if c = '>' ∧ level = 0 then some ([], cs)
    else
      let level := if c = '<' then level + 1 else if c = '>' then level - 1 else level
      (cutDocumentType? level cs).map fun (content, rest) ↦ (c :: content, rest)

/-- What `<!` begins, where the text behind these two characters is given. A document type has a
name. -/
def readDeclaration (cs : List Char) : Markup × List Char :=
  match cs with
  | '-' :: '-' :: content =>
    match Text.cutAt? "-->".toList content with
    | some (_, rest) => (.skipped, rest)
    | none => (.broken, [])
  | '[' :: _ =>
    match Text.cutAt? "]]>".toList cs with
    | some (content, rest) =>
      if Text.upper (content.take 7) = "[CDATA[".toList then (.cdata (content.drop 7), rest)
      else (.broken, [])
    | none => (.broken, [])
  | _ =>
    if Text.upper (cs.take 7) = "DOCTYPE".toList then
      match cutDocumentType? 0 cs with
      | some (content, rest) =>
        if (content.drop 7).all Text.isMarkupBlank then (.broken, []) else (.skipped, rest)
      | none => (.broken, [])
    else (.broken, [])

/-- The piece of markup whose opening bracket has been read, with what follows it. Blanks behind the
name of an end tag are dropped; a name of blanks alone stays whole. -/
def readMarkup (cs : List Char) : Markup × List Char :=
  match cs with
  | '!' :: rest => readDeclaration rest
  | '/' :: rest =>
    let (content, rest) := upToBracket rest
    let name := Text.trimRightWhile Text.isMarkupBlank content
    (.endTag (if name = [] then content else name), rest)
  | '?' :: rest =>
    let (content, rest) := upToBracket rest
    if 1 < content.length ∧ content.getLast? = some '?' then (.skipped, rest) else (.broken, [])
  | _ =>
    match cutTag? none cs with
    | some (content, rest) => (tagOf content, rest)
    | none => (.broken, [])

theorem cutTag?_length {q : Option Char} {cs content rest : List Char}
    (h : cutTag? q cs = some (content, rest)) : rest.length < cs.length := by
  fun_induction cutTag? q cs generalizing content with
  | case1 => simp at h
  | case2 cs =>
    simp only [Option.some.injEq, Prod.mk.injEq] at h
    obtain ⟨_, rfl⟩ := h
    simp
  | case3 c cs hc ih =>
    simp only [Option.map_eq_some_iff, Prod.mk.injEq] at h
    obtain ⟨⟨a, b⟩, hb, _, hrest⟩ := h
    dsimp only at hrest
    subst hrest
    have := ih hb
    simp only [List.length_cons]
    omega
  | case4 q c cs ih =>
    simp only [Option.map_eq_some_iff, Prod.mk.injEq] at h
    obtain ⟨⟨a, b⟩, hb, _, hrest⟩ := h
    dsimp only at hrest
    subst hrest
    have := ih hb
    simp only [List.length_cons]
    omega

theorem cutDocumentType?_length {level : Int} {cs content rest : List Char}
    (h : cutDocumentType? level cs = some (content, rest)) : rest.length < cs.length := by
  induction cs generalizing level content with
  | nil => simp [cutDocumentType?] at h
  | cons c cs ih =>
    rw [cutDocumentType?] at h
    split at h
    · simp only [Option.some.injEq, Prod.mk.injEq] at h
      obtain ⟨_, rfl⟩ := h
      simp
    · simp only [Option.map_eq_some_iff, Prod.mk.injEq] at h
      obtain ⟨⟨a, b⟩, hb, _, hrest⟩ := h
      dsimp only at hrest
      subst hrest
      have := ih hb
      simp only [List.length_cons]
      omega

theorem upToBracket_length (cs : List Char) : (upToBracket cs).2.length ≤ cs.length := by
  unfold upToBracket
  cases h : Text.cutWhere? (· = '>') cs with
  | none => simp
  | some p =>
    obtain ⟨before, after⟩ := p
    have := Text.cutWhere?_length h
    simp only [Option.getD_some]
    omega

theorem readDeclaration_length (cs : List Char) : (readDeclaration cs).2.length ≤ cs.length := by
  unfold readDeclaration
  split
  · rename_i content
    split
    · rename_i before rest h
      have := Text.cutAt?_length h
      simp only [List.length_cons]
      omega
    · simp
  · split
    · rename_i content rest h
      have := Text.cutAt?_length h
      split
      · simp only [List.length_cons] at this ⊢
        omega
      · simp
    · simp
  · split
    · split
      · rename_i content rest h
        split
        · simp
        · exact Nat.le_of_lt (cutDocumentType?_length h)
      · simp
    · simp

theorem readMarkup_length (cs : List Char) : (readMarkup cs).2.length ≤ cs.length := by
  unfold readMarkup
  split
  · rename_i rest
    have := readDeclaration_length rest
    simp only [List.length_cons]
    omega
  · rename_i rest
    have := upToBracket_length rest
    simp only [List.length_cons]
    omega
  · rename_i rest
    have := upToBracket_length rest
    simp only
    split
    · simp only [List.length_cons]
      omega
    · simp
  · split
    · rename_i content rest h
      exact Nat.le_of_lt (cutTag?_length h)
    · simp

/-- The tokens of a text inside the elements whose names are given, the innermost first. -/
def tokensWithin (opened : List (List Char)) (cs : List Char) : List Token :=
  match _h : Text.trimLeftWhile Text.isMarkupBlank cs with
  | [] => []
  | first :: rest =>
    if first = '<' then
      if rest = [] then []
      else
        match readMarkup rest, readMarkup_length rest with
        | (.startTag t, after), _ => .startTag t :: tokensWithin (t.name :: opened) after
        | (.emptyTag t, after), _ => .emptyTag t :: tokensWithin opened after
        | (.endTag name, after), _ =>
          if opened.head? = some name then .endTag :: tokensWithin opened.tail after else [.broken]
        | (.cdata content, after), _ => .cdata content :: tokensWithin opened after
        | (.skipped, after), _ => tokensWithin opened after
        | (.broken, _), _ => [.broken]
    else
      .text (first :: Text.trimRightWhile Text.isMarkupBlank (rest.takeWhile (· ≠ '<'))) ::
        tokensWithin opened (rest.dropWhile (· ≠ '<'))
termination_by cs.length
decreasing_by
  all_goals
    have hlen : (first :: rest).length ≤ cs.length := by
      rw [← _h]
      exact length_dropWhile_le _ _
    simp only [List.length_cons] at hlen
    try dsimp only at *
  · omega
  · omega
  · omega
  · omega
  · omega
  · have := length_dropWhile_le (· ≠ '<') rest
    omega

/-- The tokens of a text. A byte order mark in front of it does not count. -/
def tokens (cs : List Char) : List Token :=
  match cs with
  | '\ufeff' :: rest => tokensWithin [] rest
  | _ => tokensWithin [] cs

end OData.Xml
