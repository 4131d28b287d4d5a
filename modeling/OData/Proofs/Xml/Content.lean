import OData.Proofs.Answer
import OData.Proofs.Text.Occurrence
import OData.Proofs.Xml.Written

/-!
What may stand inside an element that holds a text: runs of characters with references in them, CDATA
sections, and comments between them. Its text is that of the runs and sections one after the other; of each
run that is read the ends are lost, as far as they are blank.
-/

namespace OData

namespace Text

variable {pattern xs before after cs : List Char} {c : Char} {p : Char → Bool}

/-- A pattern whose last character stands nowhere else in it is found behind a text that it is not in. -/
theorem cutAt?_append_of_last (hc : c ∉ pattern) (h : ¬ pattern ++ [c] <:+: xs) (rest : List Char) :
    cutAt? (pattern ++ [c]) (xs ++ ((pattern ++ [c]) ++ rest)) = some (xs, rest) := by
  induction xs with
  | nil => exact cutAt?_append (clearOf_nil (List.append_ne_nil_of_right_ne_nil _ (by simp))) rest
  | cons d xs ih =>
    have hnone : afterPrefix? (pattern ++ [c]) (d :: xs ++ ((pattern ++ [c]) ++ rest)) = none := by
      rw [Option.eq_none_iff_forall_ne_some]
      intro after hafter
      have hprefix : pattern ++ [c] <+: (d :: xs ++ pattern) ++ ([c] ++ rest) := by
        refine ⟨after, ?_⟩
        rw [← eq_append_of_afterPrefix? hafter]
        simp only [List.append_assoc]
      have hlength : (pattern ++ [c]).length ≤ (d :: xs ++ pattern).length := by
        simp only [List.length_append, List.length_cons, List.length_nil]
        omega
      have hinfix := (List.prefix_of_prefix_length_le hprefix (List.prefix_append _ _) hlength).isInfix
      exact h (infix_of_infix_append hc hinfix)
    have htail : ¬ pattern ++ [c] <:+: xs := fun hinside ↦ h (hinside.trans (List.suffix_cons d xs).isInfix)
    rw [List.cons_append] at hnone ⊢
    rw [cutAt?, hnone]
    dsimp only
    rw [ih htail, Option.map_some]

/-- A pattern does not begin in a text without its first character. -/
theorem infix_of_append_infix (hc : c ∉ before) (h : c :: pattern <:+: before ++ xs) :
    c :: pattern <:+: xs := by
  induction before with
  | nil => exact h
  | cons d before ih =>
    obtain ⟨hd, hrest⟩ := not_or.1 (mt List.mem_cons.2 hc)
    rcases List.infix_cons_iff.1 h with hprefix | hinfix
    · exact absurd (List.cons_prefix_cons.1 hprefix).1 hd
    · exact ih hrest hinfix

theorem exists_eq_append_trimWhile (p : Char → Bool) (cs : List Char) : ∃ before after,
    cs = before ++ (trimWhile p cs ++ after) ∧ (∀ c ∈ before, p c) ∧ ∀ c ∈ after, p c := by
  refine ⟨cs.takeWhile p, ((trimLeftWhile p cs).reverse.takeWhile p).reverse, ?_, ?_, ?_⟩
  · rw [trimWhile, trimRightWhile, ← List.reverse_append, List.takeWhile_append_dropWhile,
      List.reverse_reverse, trimLeftWhile, List.takeWhile_append_dropWhile]
  · exact List.all_eq_true.1 List.all_takeWhile
  · intro c hc
    exact List.all_eq_true.1 List.all_takeWhile c (List.mem_reverse.1 hc)

end Text

namespace Xml

open Text (isMarkupBlank trimWhile)

variable {cs before after : List Char} {opened : List (List Char)}

/-- What is left of a run of text when it is read. -/
def trimmed (run : List Char) : List Char :=
  trimWhile isMarkupBlank run

theorem head?_dropWhile (p : Char → Bool) (cs : List Char) :
    ∀ c ∈ (cs.dropWhile p).head?, p c = false := by
  intro c hc
  have hhead := List.head?_dropWhile_not p cs
  rw [Option.mem_def.1 hc] at hhead
  simpa using hhead

theorem unpadded_trimmed (cs : List Char) : Unpadded (trimmed cs) := by
  constructor
  case head =>
    intro c hc
    have hprefix : trimmed cs <+: cs.dropWhile isMarkupBlank := by
      rw [trimmed, trimWhile, Text.trimRightWhile, ← List.reverse_suffix, List.reverse_reverse]
      exact List.dropWhile_suffix _
    obtain ⟨after, hafter⟩ := hprefix
    refine head?_dropWhile isMarkupBlank cs c ?_
    rw [← hafter, List.head?_append, Option.mem_def.1 hc]
    rfl
  case last =>
    intro c hc
    rw [trimmed, trimWhile, Text.trimRightWhile, List.getLast?_reverse] at hc
    exact head?_dropWhile _ _ c hc

/-- Nothing is lost of a run without blanks at its ends only. -/
theorem trimmed_eq_self_iff : trimmed cs = cs ↔ Unpadded cs := by
  constructor
  · intro h
    rw [← h]
    exact unpadded_trimmed cs
  · rintro ⟨hhead, hlast⟩
    rw [trimmed, trimWhile, Text.trimLeftWhile_eq_self hhead, Text.trimRightWhile_eq_self hlast]

/-! ### References -/

theorem expandFrom_blanks (h : ∀ c ∈ after, c ≠ '&' ∧ c ≠ ';') :
    expandFrom none after = .ok after := by
  induction after with
  | nil => rfl
  | cons c after ih =>
    obtain ⟨⟨hc, -⟩, hrest⟩ := List.forall_mem_cons.1 h
    rw [expandFrom, if_neg hc, ih hrest]
    rfl

theorem expandFrom_name_blanks (h : ∀ c ∈ after, c ≠ '&' ∧ c ≠ ';') (name : List Char) :
    expandFrom (some name) after = .error .malformed := by
  induction after generalizing name with
  | nil => rfl
  | cons c after ih =>
    obtain ⟨⟨hc, hsemicolon⟩, hrest⟩ := List.forall_mem_cons.1 h
    rw [expandFrom, if_neg hsemicolon, if_neg hc, ih hrest]

theorem expandFrom_append_blanks (h : ∀ c ∈ after, isMarkupBlank c) (name : Option (List Char))
    (cs : List Char) : expandFrom name (cs ++ after) = (expandFrom name cs).map (· ++ after) := by
  have hnot : ∀ c ∈ after, c ≠ '&' ∧ c ≠ ';' := by
    intro c hc
    constructor <;> rintro rfl <;> exact absurd (h _ hc) (by decide)
  induction cs generalizing name with
  | nil =>
    cases name with
    | none => exact expandFrom_blanks hnot
    | some name => exact expandFrom_name_blanks hnot name
  | cons c cs ih =>
    have hmap : ∀ d : Char, ((expandFrom none cs).map (· ++ after)).map (d :: ·) =
        ((expandFrom none cs).map (d :: ·)).map (· ++ after) := by
      intro d
      cases expandFrom none cs <;> rfl
    cases name with
    | none =>
      rw [List.cons_append, expandFrom, expandFrom]
      split
      · exact ih (some [])
      · rw [ih none, hmap]
    | some name =>
      rw [List.cons_append, expandFrom, expandFrom]
      split
      · cases reference? name with
        | none => rfl
        | some d =>
          dsimp only
          rw [ih none, hmap]
      · split
        · rfl
        · exact ih (some (name ++ [c]))

theorem expandFrom_blanks_append (h : ∀ c ∈ before, isMarkupBlank c) (cs : List Char) :
    expandFrom none (before ++ cs) = (expandFrom none cs).map (before ++ ·) := by
  induction before with
  | nil =>
    cases hcs : expandFrom none cs <;> rw [List.nil_append, hcs] <;> rfl
  | cons c before ih =>
    obtain ⟨hc, hbefore⟩ := List.forall_mem_cons.1 h
    have hmark : c ≠ '&' := by
      rintro rfl
      exact absurd hc (by decide)
    rw [List.cons_append, expandFrom, if_neg hmark, ih hbefore]
    cases expandFrom none cs <;> rfl

/-- The text of a run is what is read of it between the blanks that are lost. -/
theorem expand_trimmed {text : List Char} (h : expand cs = .ok text) :
    ∃ read, expand (trimmed cs) = .ok read ∧ read.length ≤ text.length ∧
      (read = text ↔ Unpadded cs) := by
  obtain ⟨before, after, hrun, hbefore, hafter⟩ := Text.exists_eq_append_trimWhile isMarkupBlank cs
  have hexpand : expand cs = ((expand (trimmed cs)).map (· ++ after)).map (before ++ ·) := by
    conv_lhs => rw [hrun]
    rw [expand, expandFrom_blanks_append hbefore, expandFrom_append_blanks hafter]
    rfl
  rw [h] at hexpand
  cases hread : expand (trimmed cs) with
  | error fault =>
    rw [hread] at hexpand
    contradiction
  | ok read =>
    rw [hread] at hexpand
    obtain rfl : text = before ++ (read ++ after) := Except.ok.inj hexpand
    refine ⟨read, rfl, by simp only [List.length_append]; omega, ?_⟩
    rw [← trimmed_eq_self_iff]
    constructor
    · intro heq
      have hlength := congrArg List.length heq
      simp only [List.length_append] at hlength
      obtain rfl : before = [] := List.length_eq_zero_iff.1 (by omega)
      obtain rfl : after = [] := List.length_eq_zero_iff.1 (by omega)
      rw [List.nil_append, List.append_nil] at hrun
      exact hrun.symm
    · intro heq
      rw [heq, h] at hread
      exact (Except.ok.inj hread).symm

/-! ### Content -/

/-- Markup that may stand in a text. -/
inductive Inset
  | cdata (cs : List Char)
  | comment (cs : List Char)

namespace Inset

def chars : Inset → List Char
  | cdata cs => '<' :: ("![CDATA[".toList ++ (cs ++ "]]>".toList))
  | comment cs => '<' :: ("!--".toList ++ (cs ++ "-->".toList))

/-- What it adds to the text. -/
def text : Inset → List Char
  | cdata cs => cs
  | comment _ => []

def tokens : Inset → List Token
  | cdata cs => [.cdata cs]
  | comment _ => []

/-- A section does not have its end in it, and a comment no two hyphens. -/
def WellFormed : Inset → Prop
  | cdata cs => ¬ "]]>".toList <:+: cs
  | comment cs => ¬ "--".toList <:+: cs ++ ['-']

instance : (m : Inset) → Decidable m.WellFormed
  | cdata cs => inferInstanceAs (Decidable (¬ "]]>".toList <:+: cs))
  | comment cs => inferInstanceAs (Decidable (¬ "--".toList <:+: cs ++ ['-']))

end Inset

theorem readMarkup_cdata (h : ¬ "]]>".toList <:+: cs) (rest : List Char) :
    readMarkup ("![CDATA[".toList ++ (cs ++ ("]]>".toList ++ rest))) = (.cdata cs, rest) := by
  have hinside : ¬ "]]".toList ++ ['>'] <:+: "[CDATA[".toList ++ cs :=
    fun hinfix ↦ h (Text.infix_of_append_infix (by decide) hinfix)
  have hmark : '>' ∉ "]]".toList := by decide
  have hname : Text.upper (("[CDATA[".toList ++ cs).take 7) = "[CDATA[".toList :=
    show Text.upper "[CDATA[".toList = "[CDATA[".toList by decide
  have hcut : Text.cutAt? "]]>".toList ('[' :: ("CDATA[".toList ++ (cs ++ ("]]>".toList ++ rest)))) =
      some ("[CDATA[".toList ++ cs, rest) :=
    Text.cutAt?_append_of_last hmark hinside rest
  show readDeclaration ('[' :: ("CDATA[".toList ++ (cs ++ ("]]>".toList ++ rest)))) = _
  rw [readDeclaration, hcut]
  dsimp only
  rw [if_pos hname]
  rfl

theorem readMarkup_comment (h : ¬ "--".toList <:+: cs ++ ['-']) (rest : List Char) :
    readMarkup ("!--".toList ++ (cs ++ ("-->".toList ++ rest))) = (.skipped, rest) := by
  have hinside : ¬ "--".toList ++ ['>'] <:+: cs := by
    intro hmark
    exact h ((List.prefix_append _ _).isInfix.trans (hmark.trans (List.prefix_append _ _).isInfix))
  have hmark : '>' ∉ "--".toList := by decide
  have hcut : Text.cutAt? "-->".toList (cs ++ ("-->".toList ++ rest)) = some (cs, rest) :=
    Text.cutAt?_append_of_last hmark hinside rest
  show readDeclaration ('-' :: '-' :: (cs ++ ("-->".toList ++ rest))) = _
  rw [readDeclaration, hcut]

namespace Inset

variable {m : Inset}

theorem exists_chars_eq (m : Inset) : ∃ cs, m.chars = '<' :: cs ∧ cs ≠ [] := by
  cases m with
  | cdata cs => exact ⟨_, rfl, by simp⟩
  | comment cs => exact ⟨_, rfl, by simp⟩

theorem tokensWithin_chars (h : m.WellFormed) (rest : List Char) :
    tokensWithin opened (m.chars ++ rest) = m.tokens ++ tokensWithin opened rest := by
  cases m with
  | cdata cs =>
    rw [chars, List.cons_append, List.append_assoc, List.append_assoc,
      tokensWithin_of_readMarkup (by simp) (readMarkup_cdata h rest)]
    rfl
  | comment cs =>
    rw [chars, List.cons_append, List.append_assoc, List.append_assoc,
      tokensWithin_of_readMarkup (by simp) (readMarkup_comment h rest)]
    rfl

end Inset

/-- The content of an element that holds a text: runs of characters, with markup between each two of
them. -/
inductive Content
  | run (cs : List Char)
  | inset (cs : List Char) (m : Inset) (rest : Content)

namespace Content

def chars : Content → List Char
  | run cs => cs
  | inset cs m rest => cs ++ (m.chars ++ rest.chars)

def runs : Content → List (List Char)
  | run cs => [cs]
  | inset cs _ rest => cs :: rest.runs

/-- What the content comes to, where `keep` tells what counts of a run. -/
def textOf (keep : List Char → List Char) : Content → Except Fault (List Char)
  | run cs => expand (keep cs)
  | inset cs m rest => do
    let before ← expand (keep cs)
    let after ← rest.textOf keep
    return before ++ (m.text ++ after)

/-- The text of an element with that content. -/
def text (c : Content) : Except Fault (List Char) :=
  c.textOf id

/-- What is read of it. -/
def read (c : Content) : Except Fault (List Char) :=
  c.textOf trimmed

/-- Runs end where markup begins. -/
inductive WellFormed : Content → Prop
  | run {cs : List Char} (h : '<' ∉ cs) : WellFormed (.run cs)
  | inset {cs : List Char} {m : Inset} {rest : Content} (h : '<' ∉ cs) (hm : m.WellFormed)
    (hrest : WellFormed rest) : WellFormed (.inset cs m rest)

/-- Nothing is lost of a text if no run of it has blanks at its ends. -/
theorem exists_read {c : Content} {text : List Char} (h : c.text = .ok text) :
    ∃ read, c.read = .ok read ∧ read.length ≤ text.length ∧
      (read = text ↔ ∀ run ∈ c.runs, Unpadded run) := by
  induction c generalizing text with
  | run cs =>
    rw [runs, List.forall_mem_singleton]
    exact expand_trimmed h
  | inset cs m rest ih =>
    obtain ⟨before, hbefore, hrest⟩ := OData.Except.bind_eq_ok.1 h
    obtain ⟨after, hafter, htext⟩ := OData.Except.bind_eq_ok.1 hrest
    obtain rfl := Except.ok.inj htext
    obtain ⟨before', hread, hle, heq⟩ := expand_trimmed hbefore
    obtain ⟨after', hread', hle', heq'⟩ := ih hafter
    refine ⟨before' ++ (m.text ++ after'), ?_, ?_, ?_⟩
    · exact (OData.Except.bind_of_eq_ok hread).trans (OData.Except.bind_of_eq_ok hread')
    · simp only [List.length_append]
      omega
    · have hsides : Unpadded cs ∧ (∀ run ∈ rest.runs, Unpadded run) ↔
          before' = before ∧ after' = after := and_congr heq.symm heq'.symm
      rw [runs, List.forall_mem_cons, hsides]
      constructor
      · intro happend
        have hlength := congrArg List.length happend
        simp only [List.length_append] at hlength
        obtain ⟨rfl, hbehind⟩ := List.append_inj happend (by omega)
        exact ⟨rfl, List.append_cancel_left hbehind⟩
      · rintro ⟨rfl, rfl⟩
        rfl

/-- The token of a run, if it is more than blanks. -/
def runTokens (cs : List Char) : List Token :=
  if trimmed cs = [] then [] else [.text (trimmed cs)]

def tokens : Content → List Token
  | run cs => runTokens cs
  | inset cs m rest => runTokens cs ++ (m.tokens ++ rest.tokens)

theorem tokensWithin_run {rest : List Char} (h : '<' ∉ cs) (hrest : rest ≠ []) :
    tokensWithin opened (cs ++ '<' :: rest) = runTokens cs ++ tokensWithin opened ('<' :: rest) := by
  obtain ⟨before, after, hrun, hbefore, hafter⟩ := Text.exists_eq_append_trimWhile isMarkupBlank cs
  have htrim : Text.trimLeftWhile isMarkupBlank (cs ++ '<' :: rest) =
      Text.trimLeftWhile isMarkupBlank (trimmed cs ++ (after ++ '<' :: rest)) := by
    conv_lhs => rw [hrun, List.append_assoc, List.append_assoc]
    exact Text.trimLeftWhile_append hbefore
  rw [runTokens]
  cases hcore : trimmed cs with
  | nil =>
    have hblank : Text.trimLeftWhile isMarkupBlank (cs ++ '<' :: rest) = '<' :: rest := by
      rw [htrim, hcore, List.nil_append, Text.trimLeftWhile_append hafter]
      exact Text.trimLeftWhile_cons (by decide) rest
    rw [if_pos rfl, List.nil_append, tokensWithin_of_trim hblank hrest rfl,
      tokensWithin_of_readMarkup hrest rfl]
  | cons c ds =>
    have hunpadded := unpadded_trimmed cs
    rw [hcore] at htrim hunpadded
    have hmark : '<' ∉ c :: (ds ++ after) := by
      intro hmem
      refine h ?_
      rw [hrun]
      refine List.mem_append_right _ ?_
      rwa [← trimmed, hcore]
    have hlast : ∀ d ∈ ds.getLast?, isMarkupBlank d = false := by
      intro d hd
      refine hunpadded.last d ?_
      cases ds with
      | nil => contradiction
      | cons e ds => rwa [List.getLast?_cons_cons]
    rw [List.cons_append, Text.trimLeftWhile_cons (hunpadded.head c rfl), ← List.append_assoc] at htrim
    rw [tokensWithin_text hmark htrim, Text.trimRightWhile_append hafter,
      Text.trimRightWhile_eq_self hlast, if_neg (List.cons_ne_nil c ds)]
    rfl

/-- The tokens of some content in front of a tag. -/
theorem tokensWithin_chars {c : Content} {rest : List Char} (h : c.WellFormed) (hrest : rest ≠ []) :
    tokensWithin opened (c.chars ++ '<' :: rest) = c.tokens ++ tokensWithin opened ('<' :: rest) := by
  induction h with
  | run h => exact tokensWithin_run h hrest
  | @inset cs m more h hm _ ih =>
    obtain ⟨ds, hds, hne⟩ := m.exists_chars_eq
    have hinset := @Inset.tokensWithin_chars opened m hm (more.chars ++ '<' :: rest)
    rw [hds, List.cons_append] at hinset
    rw [chars, hds, List.append_assoc, List.cons_append, List.cons_append, List.append_assoc,
      tokensWithin_run h (List.append_ne_nil_of_left_ne_nil hne _), hinset, ih, tokens,
      List.append_assoc, List.append_assoc]

end Content
end Xml
end OData
