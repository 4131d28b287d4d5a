import OData.Http.Head
import OData.Proofs.Text.Occurrence
import OData.Proofs.Text.Trimmed

/-!
Headers in front of a body, with either line ending: what is written there is what is read, whatever
the body is.
-/

namespace OData

/-- A text without line breaks. -/
structure OneLine (cs : List Char) : Prop where
  no_return : '\r' ∉ cs
  no_feed : '\n' ∉ cs

theorem oneLine_of_no_blank {cs : List Char} (h : ∀ c ∈ cs, Text.isBlank c = false) : OneLine cs :=
  ⟨fun hc ↦ absurd (h _ hc) (by decide), fun hc ↦ absurd (h _ hc) (by decide)⟩

/-- How the lines of a document end. -/
inductive LineEnding
  | crlf
  | lf
  deriving DecidableEq, Repr

namespace LineEnding

def chars : LineEnding → List Char
  | crlf => lineBreak
  | lf => ['\n']

/-- What is left of a text at the end of a line: a carriage return there is taken for a part of the
line break. -/
def keep : LineEnding → List Char → List Char
  | crlf, cs => cs
  | lf, cs => if cs.getLast? = some '\r' then cs.dropLast else cs

variable {nl : LineEnding} {pattern xs ys : List Char}

theorem exists_chars_eq (nl : LineEnding) :
    ∃ before, nl.chars = before ++ ['\n'] ∧ ∀ c ∈ before, c = '\r' := by
  cases nl with
  | crlf => exact ⟨['\r'], rfl, fun c hc ↦ List.mem_singleton.1 hc⟩
  | lf => exact ⟨[], rfl, nofun⟩

theorem keep_eq_self (h : nl = lf → xs.getLast? ≠ some '\r') : nl.keep xs = xs := by
  cases nl with
  | crlf => rfl
  | lf => exact if_neg (h rfl)

theorem keep_append (nl : LineEnding) (xs : List Char) (h : ys ≠ []) :
    nl.keep (xs ++ ys) = xs ++ nl.keep ys := by
  cases nl with
  | crlf => rfl
  | lf =>
    have hlast : (xs ++ ys).getLast? = ys.getLast? := List.getLast?_append_of_ne_nil xs h
    rw [keep, keep, hlast]
    split
    · exact List.dropLast_append_of_ne_nil h
    · rfl

theorem keep_chars_append : nl.keep (nl.chars ++ xs) = nl.chars ++ nl.keep xs := by
  cases xs with
  | nil => cases nl <;> rfl
  | cons c xs => exact keep_append nl nl.chars (List.cons_ne_nil c xs)

theorem withoutFinalLineBreak_append_chars (xs : List Char) :
    withoutFinalLineBreak (xs ++ nl.chars) = nl.keep xs := by
  cases nl with
  | crlf =>
    rw [withoutFinalLineBreak, chars, Text.beforeSuffix?_append]
    rfl
  | lf =>
    rw [withoutFinalLineBreak, chars, keep, Text.beforeSuffix?_append]
    by_cases h : xs.getLast? = some '\r'
    · obtain ⟨before, rfl⟩ := List.getLast?_eq_some_iff.1 h
      have hsuffix : Text.beforeSuffix? lineBreak (before ++ ['\r'] ++ ['\n']) = some before := by
        rw [List.append_assoc]
        exact Text.beforeSuffix?_append before lineBreak
      rw [hsuffix, if_pos h, List.dropLast_concat]
      rfl
    · have hsuffix : Text.beforeSuffix? lineBreak (xs ++ ['\n']) = none := by
        rw [Text.beforeSuffix?_eq_none_iff]
        intro before hbefore
        have heq : xs ++ ['\n'] = (before ++ ['\r']) ++ ['\n'] := by
          rw [hbefore, List.append_assoc]
          rfl
        rw [List.append_cancel_right heq, List.getLast?_concat] at h
        exact h rfl
      rw [hsuffix, if_neg h]
      rfl

theorem afterLineBreak?_chars_append (xs : List Char) :
    afterLineBreak? (nl.chars ++ xs) = some xs := by
  cases nl <;> rfl

/-- A pattern in one line stands on one side of a line break. -/
theorem infix_append_chars_append (hp : pattern ≠ []) (ho : OneLine pattern) (nl : LineEnding)
    (xs ys : List Char) :
    pattern <:+: xs ++ (nl.chars ++ ys) ↔ pattern <:+: xs ∨ pattern <:+: ys := by
  have hbreak : pattern <:+: '\n' :: ys ↔ pattern <:+: ys := by
    have hsides := Text.infix_append_cons ho.no_feed [] ys
    rw [List.nil_append, List.infix_nil] at hsides
    rw [hsides]
    exact or_iff_right hp
  cases nl with
  | crlf =>
    have hsides := Text.infix_append_cons ho.no_return xs ('\n' :: ys)
    rwa [hbreak] at hsides
  | lf => exact Text.infix_append_cons ho.no_feed xs ys

theorem infix_chars_append (hp : pattern ≠ []) (ho : OneLine pattern) (nl : LineEnding)
    (ys : List Char) : pattern <:+: nl.chars ++ ys ↔ pattern <:+: ys := by
  have hsides := infix_append_chars_append hp ho nl [] ys
  rw [List.nil_append, List.infix_nil] at hsides
  rw [hsides]
  exact or_iff_right hp

theorem clearOf_append_chars (hp : pattern ≠ []) (ho : OneLine pattern) (h : ¬ pattern <:+: xs) :
    Text.ClearOf pattern (xs ++ nl.chars) := by
  constructor
  case not_infix =>
    have hsides := infix_append_chars_append hp ho nl xs []
    rw [List.append_nil, List.infix_nil] at hsides
    exact fun hinfix ↦ (hsides.1 hinfix).elim h hp
  case last =>
    obtain ⟨before, hnl, -⟩ := nl.exists_chars_eq
    intro c hc hmem
    rw [hnl, ← List.append_assoc, List.getLast?_concat] at hc
    obtain rfl := Option.some.inj hc
    exact ho.no_feed hmem

end LineEnding

section

variable {nl : LineEnding} {xs ys : List Char}

theorem cutAtBlankLine_append (hn : '\n' ∉ xs) (hlast : ∀ c ∈ xs.getLast?, c ≠ '\r')
    (ys : List Char) :
    cutAtBlankLine (xs ++ ys) = (xs ++ (cutAtBlankLine ys).1, (cutAtBlankLine ys).2) := by
  induction xs with
  | nil => rfl
  | cons c xs ih =>
    obtain ⟨hc, hxs⟩ := not_or.1 (mt List.mem_cons.2 hn)
    have htail : ∀ d ∈ xs.getLast?, d ≠ '\r' := by
      intro d hd
      apply hlast d
      rw [List.getLast?_cons, hd]
      rfl
    rw [List.cons_append, cutAtBlankLine, ih hxs htail]
    · rfl
    · -- The text goes on in the line, since its last character is no carriage return.
      rintro rest rfl h
      cases xs with
      | nil => exact hlast '\r' rfl rfl
      | cons d xs => exact hxs ((List.cons.inj h).1 ▸ List.mem_cons_self)
    · rintro rest rfl -
      exact hc rfl

theorem cutAtBlankLine_chars_append {ys : List Char} (h : ∀ c ∈ ys.head?, c ≠ '\r' ∧ c ≠ '\n') :
    cutAtBlankLine (nl.chars ++ ys) =
      (nl.chars ++ (cutAtBlankLine ys).1, (cutAtBlankLine ys).2) := by
  have hr : ∀ rest, ys ≠ '\r' :: '\n' :: rest := by
    rintro rest rfl
    exact (h '\r' rfl).1 rfl
  have hn : ∀ rest, ys ≠ '\n' :: rest := by
    rintro rest rfl
    exact (h '\n' rfl).2 rfl
  have hfeed : cutAtBlankLine ('\n' :: ys) =
      ('\n' :: (cutAtBlankLine ys).1, (cutAtBlankLine ys).2) := by
    rw [cutAtBlankLine]
    · rintro rest hc -
      contradiction
    · intro rest _ hys
      exact hn rest hys
  cases nl with
  | lf => exact hfeed
  | crlf =>
    show cutAtBlankLine ('\r' :: '\n' :: ys) = _
    rw [cutAtBlankLine, hfeed]
    · rfl
    · intro rest _ hys
      exact hr rest (List.cons.inj hys).2
    · rintro rest hc -
      contradiction

theorem cutAtBlankLine_sublist (xs : List Char) :
    ((cutAtBlankLine xs).1 ++ (cutAtBlankLine xs).2).Sublist xs := by
  fun_induction cutAtBlankLine xs with
  | case1 rest => exact List.sublist_append_right ['\r', '\n', '\r', '\n'] rest
  | case2 rest => exact List.sublist_append_right ['\n', '\n'] rest
  | case3 c cs _ _ head body hcut ih =>
    rw [hcut] at ih
    exact ih.cons_cons c
  | case4 => exact .slnil

theorem length_cutAtBlankLine_le (xs : List Char) :
    (cutAtBlankLine xs).2 = [] ∨ (cutAtBlankLine xs).2.length + 2 ≤ xs.length := by
  fun_induction cutAtBlankLine xs with
  | case1 rest => exact .inr (by simp)
  | case2 rest => exact .inr (by simp)
  | case3 c cs _ _ head body hcut ih =>
    rw [hcut] at ih
    exact ih.imp_right fun h ↦ Nat.le_succ_of_le h
  | case4 => exact .inl rfl

/-- What stands behind the first blank line is not all of the text behind a line break. -/
theorem length_cutAtBlankLine_lt (nl : LineEnding) (h : ys ≠ []) :
    (cutAtBlankLine (nl.chars ++ ys)).2.length < ys.length := by
  have hpos := List.length_pos_of_ne_nil h
  have hfeed : (cutAtBlankLine ('\n' :: ys)).2.length < ys.length := by
    rcases length_cutAtBlankLine_le ('\n' :: ys) with hnil | hle
    · rwa [hnil]
    · rw [List.length_cons] at hle
      omega
  cases nl with
  | lf => exact hfeed
  | crlf =>
    show (cutAtBlankLine ('\r' :: '\n' :: ys)).2.length < ys.length
    by_cases hblank : ∃ rest, ys = '\r' :: '\n' :: rest
    · obtain ⟨rest, rfl⟩ := hblank
      show rest.length < rest.length + 2
      omega
    · have hstep : (cutAtBlankLine ('\r' :: '\n' :: ys)).2 = (cutAtBlankLine ('\n' :: ys)).2 := by
        rw [cutAtBlankLine]
        · rintro rest - hys
          exact hblank ⟨rest, (List.cons.inj hys).2⟩
        · rintro rest hc -
          contradiction
      rwa [hstep]

theorem withoutFinalLineBreak_sublist (xs : List Char) :
    (withoutFinalLineBreak xs).Sublist xs := by
  have hbefore : ∀ nl ys, Text.beforeSuffix? nl xs = some ys → ys.Sublist xs := by
    intro nl ys h
    rw [Text.eq_append_of_beforeSuffix? h]
    exact List.sublist_append_left ys nl
  rw [withoutFinalLineBreak]
  cases hcrlf : Text.beforeSuffix? lineBreak xs with
  | some ys => exact hbefore lineBreak ys hcrlf
  | none =>
    cases hlf : Text.beforeSuffix? ['\n'] xs with
    | some ys => exact hbefore ['\n'] ys hlf
    | none => exact .refl xs

theorem afterLineBreak?_sublist (h : afterLineBreak? xs = some ys) : ys.Sublist xs := by
  unfold afterLineBreak? at h
  split at h
  · obtain rfl := Option.some.inj h
    exact List.sublist_append_right ['\r', '\n'] _
  · obtain rfl := Option.some.inj h
    exact List.sublist_append_right ['\n'] _
  · contradiction

theorem cutAtBlankLine_blankLine (body : List Char) :
    cutAtBlankLine (nl.chars ++ (nl.chars ++ body)) = ([], body) := by
  cases nl <;> rfl

end

/-- A header that has a line of its own. -/
structure IsHeader (header : String × String) : Prop where
  name_ne_nil : header.1.toList ≠ []
  name_trimmed : Text.Trimmed header.1.toList
  name_one_line : '\n' ∉ header.1.toList
  no_colon : ':' ∉ header.1.toList
  value_trimmed : Text.Trimmed header.2.toList
  value_one_line : '\n' ∉ header.2.toList

theorem isHeader_iff {header : String × String} :
    header.1.toList.isEmpty = false ∧ Text.Trimmed header.1.toList ∧
      header.1.toList.contains '\n' = false ∧ header.1.toList.contains ':' = false ∧
      Text.Trimmed header.2.toList ∧ header.2.toList.contains '\n' = false ↔ IsHeader header := by
  simp only [List.contains_eq_mem, decide_eq_false_iff_not, List.isEmpty_eq_false_iff]
  exact ⟨fun ⟨h₁, h₂, h₃, h₄, h₅, h₆⟩ ↦ ⟨h₁, h₂, h₃, h₄, h₅, h₆⟩,
    fun ⟨h₁, h₂, h₃, h₄, h₅, h₆⟩ ↦ ⟨h₁, h₂, h₃, h₄, h₅, h₆⟩⟩

instance (header : String × String) : Decidable (IsHeader header) :=
  decidable_of_iff _ isHeader_iff

theorem IsHeader.withValue {name value : String} (h : IsHeader (name, ""))
    (ht : Text.Trimmed value.toList) (hn : '\n' ∉ value.toList) : IsHeader (name, value) :=
  ⟨h.name_ne_nil, h.name_trimmed, h.name_one_line, h.no_colon, ht, hn⟩

namespace Headers

variable {nl : LineEnding} {header : String × String} {headers : Headers} {pattern : List Char}

def line (header : String × String) : List Char :=
  header.1.toList ++ ": ".toList ++ header.2.toList

def written (nl : LineEnding) (headers : Headers) : List Char :=
  headers.flatMap fun header ↦ line header ++ nl.chars

theorem written_crlf (headers : Headers) : headers.written .crlf = headers.chars :=
  rfl

theorem written_cons (nl : LineEnding) (header : String × String) (headers : Headers) :
    written nl (header :: headers) = line header ++ nl.chars ++ written nl headers :=
  rfl

theorem newline_not_mem_line (h : IsHeader header) : '\n' ∉ line header := by
  intro hc
  rcases List.mem_append.1 hc with hc | hc
  · rcases List.mem_append.1 hc with hc | hc
    · exact h.name_one_line hc
    · exact absurd hc (by decide)
  · exact h.value_one_line hc

theorem last_line_ne (h : IsHeader header) : ∀ c ∈ (line header).getLast?, c ≠ '\r' := by
  rintro c hc rfl
  cases hvalue : header.2.toList.getLast? with
  | none =>
    rw [List.getLast?_eq_none_iff] at hvalue
    rw [line, hvalue, List.append_nil, List.getLast?_append_of_ne_nil _ (by decide)] at hc
    exact absurd hc (by decide)
  | some d =>
    rw [line, List.getLast?_append, hvalue] at hc
    obtain rfl := Option.some.inj hc
    exact absurd (h.value_trimmed.last _ hvalue) (by decide)

theorem head_line_append_ne (h : IsHeader header) (rest : List Char) :
    ∀ c ∈ (line header ++ rest).head?, c ≠ '\r' ∧ c ≠ '\n' := by
  intro c hc
  have hname : header.1.toList.head? = some c := by
    rw [line, List.append_assoc, List.append_assoc,
      List.head?_append_of_ne_nil _ h.name_ne_nil] at hc
    exact hc
  have hblank := h.name_trimmed.head c hname
  refine ⟨?_, ?_⟩
  · rintro rfl
    exact absurd hblank (by decide)
  · rintro rfl
    exact absurd hblank (by decide)

theorem head_written_append_ne (nl : LineEnding) (hne : headers ≠ [])
    (h : ∀ header ∈ headers, IsHeader header) (rest : List Char) :
    ∀ c ∈ (headers.written nl ++ rest).head?, c ≠ '\r' ∧ c ≠ '\n' := by
  obtain ⟨header, others, rfl⟩ := List.exists_cons_of_ne_nil hne
  rw [written_cons, List.append_assoc, List.append_assoc]
  exact head_line_append_ne (h header List.mem_cons_self) _

theorem ofLine?_line_append (h : IsHeader header) (after : List Char)
    (hafter : ∀ c ∈ after, Text.isBlank c) : ofLine? (line header ++ after) = some header := by
  have hcolon : ∀ c ∈ header.1.toList, decide (c = ':') = false := by
    intro c hc
    apply decide_eq_false
    rintro rfl
    exact h.no_colon hc
  have hline : line header ++ after =
      header.1.toList ++ ':' :: ([' '] ++ (header.2.toList ++ after)) := by
    simp [line]
  have hname : Text.trim header.1.toList = header.1.toList := by
    have hnone : ∀ c ∈ ([] : List Char), Text.isBlank c := nofun
    simpa using h.name_trimmed.trim_append hnone hnone
  have hspace : ∀ c ∈ [' '], Text.isBlank c := List.forall_mem_singleton.2 rfl
  have hvalue := h.value_trimmed.trim_append hspace hafter
  rw [hline, ofLine?, Text.cutWhere?_append hcolon rfl, Option.map_some]
  dsimp only
  rw [hname, hvalue, String.ofList_toList, String.ofList_toList]

theorem ofLine?_sublist {line : List Char} (h : ofLine? line = some header) :
    (header.1.toList ++ header.2.toList).Sublist line := by
  obtain ⟨⟨name, value⟩, hcut, rfl⟩ := Option.map_eq_some_iff.1 h
  obtain ⟨c, rfl⟩ := Text.eq_append_of_cutWhere? hcut
  dsimp only
  rw [String.toList_ofList, String.toList_ofList]
  exact (Text.trim_sublist name).append ((Text.trim_sublist value).cons c)

/-- The names and values of some headers. -/
def texts (headers : Headers) : List Char :=
  headers.flatMap fun header ↦ header.1.toList ++ header.2.toList

/-- Reading headers makes no text up. -/
theorem texts_ofLines_sublist (head : List Char) : (texts (ofLines head)).Sublist head := by
  have hlines : ∀ lines : List (List Char),
      (texts (lines.filterMap ofLine?)).Sublist lines.flatten := by
    intro lines
    induction lines with
    | nil => exact .slnil
    | cons line lines ih =>
      rw [List.flatten_cons, List.filterMap_cons]
      cases hread : ofLine? line with
      | none => exact ih.trans (List.sublist_append_right line _)
      | some header => exact (ofLine?_sublist hread).append ih
  exact (hlines _).trans (Text.flatten_pieces_sublist _ head)

theorem count_hyphen_written (nl : LineEnding) (headers : Headers) :
    (written nl headers).count '-' = (texts headers).count '-' := by
  have hnl : nl.chars.count '-' = 0 := by cases nl <;> rfl
  have hline : ∀ header, (line header ++ nl.chars).count '-' =
      (header.1.toList ++ header.2.toList).count '-' := by
    intro header
    have hcolon : ": ".toList.count '-' = 0 := rfl
    simp only [line, List.count_append, hcolon, hnl, Nat.add_zero]
  rw [written, texts, List.count_flatMap, List.count_flatMap]
  exact congrArg List.sum (List.map_congr_left fun header _ ↦ hline header)

/-- The lines of some headers without the last line break. -/
def joined (nl : LineEnding) (header : String × String) (headers : Headers) : List Char :=
  line header ++ headers.flatMap fun header ↦ nl.chars ++ line header

theorem ofLines_joined (h : ∀ other ∈ header :: headers, IsHeader other) :
    ofLines (joined nl header headers) = header :: headers := by
  induction headers generalizing header with
  | nil =>
    have hheader := h header List.mem_cons_self
    have hpieces : Text.pieces (· = '\n') (line header) = [line header] := by
      apply Text.pieces_of_forall
      intro c hc
      apply decide_eq_false
      rintro rfl
      exact newline_not_mem_line hheader hc
    have hread := ofLine?_line_append hheader [] nofun
    rw [List.append_nil] at hread
    rw [joined, List.flatMap_nil, List.append_nil, ofLines, hpieces, List.filterMap_cons_some hread]
    rfl
  | cons next headers ih =>
    obtain ⟨hheader, hrest⟩ := List.forall_mem_cons.1 h
    obtain ⟨before, hnl, hbefore⟩ := nl.exists_chars_eq
    have hjoined : joined nl header (next :: headers) =
        (line header ++ before) ++ '\n' :: joined nl next headers := by
      simp [joined, hnl]
    have hone : ∀ c ∈ line header ++ before, decide (c = '\n') = false := by
      intro c hc
      apply decide_eq_false
      rintro rfl
      rcases List.mem_append.1 hc with hc | hc
      · exact newline_not_mem_line hheader hc
      · exact absurd (hbefore _ hc) (by decide)
    have hread := ofLine?_line_append hheader before fun c hc ↦ by
      rw [hbefore c hc]
      rfl
    rw [hjoined, ofLines, Text.pieces_append hone rfl, List.filterMap_cons_some hread]
    exact congrArg _ (ih hrest)

theorem cutAtBlankLine_written (h : ∀ other ∈ header :: headers, IsHeader other)
    (body : List Char) :
    cutAtBlankLine (written nl (header :: headers) ++ (nl.chars ++ body)) =
      (joined nl header headers, body) := by
  induction headers generalizing header with
  | nil =>
    have hheader := h header List.mem_cons_self
    rw [written, List.flatMap_singleton, List.append_assoc,
      cutAtBlankLine_append (newline_not_mem_line hheader) (last_line_ne hheader),
      cutAtBlankLine_blankLine]
    rfl
  | cons next headers ih =>
    obtain ⟨hheader, hrest⟩ := List.forall_mem_cons.1 h
    have hnext := head_written_append_ne nl (List.cons_ne_nil next headers) hrest
      (nl.chars ++ body)
    rw [written_cons, List.append_assoc, List.append_assoc,
      cutAtBlankLine_append (newline_not_mem_line hheader) (last_line_ne hheader),
      cutAtBlankLine_chars_append hnext, ih hrest, joined, joined, List.flatMap_cons,
      List.append_assoc]

theorem exists_head_of_written (nl : LineEnding) (hne : headers ≠ [])
    (h : ∀ header ∈ headers, IsHeader header) (body : List Char) :
    ∃ head, cutAtBlankLine (headers.written nl ++ (nl.chars ++ body)) = (head, body) ∧
      ofLines head = headers := by
  obtain ⟨header, rest, rfl⟩ := List.exists_cons_of_ne_nil hne
  exact ⟨joined nl header rest, cutAtBlankLine_written h body, ofLines_joined h⟩

theorem afterLineBreak?_written (hne : headers ≠ []) (h : ∀ header ∈ headers, IsHeader header)
    (rest : List Char) : afterLineBreak? (headers.written nl ++ rest) = none := by
  have hhead := head_written_append_ne nl hne h rest
  cases htext : headers.written nl ++ rest with
  | nil => rfl
  | cons c cs =>
    rw [htext] at hhead
    obtain ⟨hr, hn⟩ := hhead c rfl
    rw [afterLineBreak?]
    · intro after hafter
      exact hr (List.cons.inj hafter).1
    · intro after hafter
      exact hn (List.cons.inj hafter).1

theorem infix_written_append (hp : pattern ≠ []) (ho : OneLine pattern) (rest : List Char) :
    pattern <:+: headers.written nl ++ rest ↔
      (∃ header ∈ headers, pattern <:+: line header) ∨ pattern <:+: rest := by
  induction headers with
  | nil => simp [written]
  | cons header headers ih =>
    rw [written_cons, List.append_assoc, List.append_assoc,
      LineEnding.infix_append_chars_append hp ho, ih, ← or_assoc, List.exists_mem_cons_iff]

end Headers
end OData
