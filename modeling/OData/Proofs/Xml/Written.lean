import OData.Proofs.Xml.Attributes
import OData.Xml.Token

/-!
XML as it is written from elements: names as they are, values and texts escaped. Its tokens are those of
the elements one after the other.
-/

namespace OData.Xml

open Text (isMarkupBlank)

section

variable {a : String × String} {attributes : List (String × String)} {name : List Char}

/-- Characters of a tag that leave no quote open and do not close it. -/
def Passes (cs : List Char) : Prop :=
  ∀ rest, cutTag? none (cs ++ rest) =
    (cutTag? none rest).map fun (content, after) ↦ (cs ++ content, after)

theorem Passes.append {cs ds : List Char} (h : Passes cs) (h' : Passes ds) : Passes (cs ++ ds) := by
  intro rest
  rw [List.append_assoc, h, h', Option.map_map]
  simp [Function.comp_def]

theorem passes_of_forall {cs : List Char} (h : ∀ c ∈ cs, c ≠ '>' ∧ c ≠ '"' ∧ c ≠ '\'') : Passes cs := by
  intro rest
  induction cs with
  | nil => simp
  | cons c cs ih =>
    obtain ⟨⟨hclose, hdouble, hsingle⟩, hrest⟩ := List.forall_mem_cons.1 h
    have hquote : ¬ (c = '"' ∨ c = '\'') := not_or.2 ⟨hdouble, hsingle⟩
    rw [List.cons_append, cutTag?, if_neg hclose, if_neg hquote, ih hrest, Option.map_map]
    rfl

theorem cutTag?_quoted {cs : List Char} (h : '"' ∉ cs) (rest : List Char) :
    cutTag? (some '"') (cs ++ '"' :: rest) =
      (cutTag? none rest).map fun (content, after) ↦ (cs ++ '"' :: content, after) := by
  induction cs with
  | nil =>
    rw [List.nil_append, cutTag?, if_pos rfl]
    rfl
  | cons c cs ih =>
    rw [List.mem_cons, not_or] at h
    rw [List.cons_append, cutTag?, if_neg (Ne.symm h.1), ih h.2, Option.map_map]
    rfl

theorem passes_of_isName (h : isName name) : Passes name := by
  refine passes_of_forall fun c hc ↦ ⟨?_, ?_, ?_⟩
  all_goals
    rintro rfl
    exact absurd (forall_isNameChar h _ hc) (by decide)

theorem passes_attributeChars (h : isName a.1.toList) : Passes (attributeChars a) := by
  intro rest
  have hblank : Passes [' '] := passes_of_forall (List.forall_mem_singleton.2 (by decide))
  have hbefore : Passes (' ' :: a.1.toList ++ ['=']) :=
    .append (.append hblank (passes_of_isName h))
      (passes_of_forall (List.forall_mem_singleton.2 (by decide)))
  have hchars : ∀ more, attributeChars a ++ more =
      ' ' :: a.1.toList ++ ['='] ++ '"' :: (escape a.2.toList ++ '"' :: more) := by
    intro more
    simp [attributeChars]
  have hquoted := cutTag?_quoted (not_mem_escape (.inr (.inl rfl)) a.2.toList) rest
  rw [hchars, hbefore, cutTag?, if_neg (by decide), if_pos (by decide), hquoted, Option.map_map,
    Option.map_map]
  congr 1
  funext p
  simp [hchars]

theorem passes_attributesChars (h : ∀ a ∈ attributes, isName a.1.toList) :
    Passes (attributesChars attributes) := by
  induction attributes with
  | nil => exact passes_of_forall (by simp [attributesChars])
  | cons a rest ih =>
    obtain ⟨ha, hrest⟩ := List.forall_mem_cons.1 h
    rw [attributesChars, List.flatMap_cons]
    exact (passes_attributeChars ha).append (ih hrest)

theorem head?_attributesChars (attributes : List (String × String)) :
    ∀ c ∈ (attributesChars attributes).head?, c = ' ' := by
  cases attributes with
  | nil => exact nofun
  | cons a rest =>
    intro c hc
    exact (Option.some.inj hc).symm

/-- A tag ends in its name, or in the quote of a value. -/
theorem getLast?_ne_slash (h : isName name) :
    (name ++ attributesChars attributes).getLast? ≠ some '/' := by
  rcases List.eq_nil_or_concat attributes with rfl | ⟨first, a, rfl⟩
  · intro hlast
    have hmem : '/' ∈ name := by
      rw [attributesChars, List.flatMap_nil, List.append_nil] at hlast
      exact List.mem_of_getLast? hlast
    exact not_mem_of_isName h (by decide) hmem
  · have hchars : name ++ attributesChars (first ++ [a]) =
        name ++ attributesChars first ++ ' ' :: (a.1.toList ++ '=' :: '"' :: escape a.2.toList) ++
          ['"'] := by
      simp [attributesChars, attributeChars]
    rw [List.concat_eq_append, hchars, List.getLast?_concat]
    decide

theorem split_written (h : isName name) (rest : List Char) (hrest : ∀ c ∈ rest.head?, c = ' ') :
    (name ++ rest).takeWhile (fun c ↦ !isMarkupBlank c) = name ∧
      (name ++ rest).dropWhile (fun c ↦ !isMarkupBlank c) = rest := by
  have hname : ∀ c ∈ name, (!isMarkupBlank c) = true := by
    intro c hc
    rw [isMarkupBlank_of_isNameChar (forall_isNameChar h c hc)]
    rfl
  rw [List.takeWhile_append_of_pos hname, List.dropWhile_append_of_pos hname]
  cases rest with
  | nil => simp
  | cons c rest =>
    obtain rfl := hrest c rfl
    rw [List.takeWhile_cons_of_neg (by decide), List.dropWhile_cons_of_neg (by decide),
      List.append_nil]
    exact ⟨rfl, rfl⟩

end

section

variable {name : String} {attributes : List (String × String)}

theorem tagOf_written (h : isName name.toList) :
    tagOf (name.toList ++ attributesChars attributes) = .startTag (.written name attributes) := by
  obtain ⟨htake, hdrop⟩ := split_written h _ (head?_attributesChars attributes)
  rw [tagOf, if_neg (getLast?_ne_slash h)]
  dsimp only
  rw [htake, hdrop, Tag.written]

theorem tagOf_written_slash (h : isName name.toList) :
    tagOf (name.toList ++ attributesChars attributes ++ ['/']) =
      .emptyTag (.written name attributes) := by
  obtain ⟨htake, hdrop⟩ := split_written h _ (head?_attributesChars attributes)
  rw [tagOf, if_pos List.getLast?_concat, List.dropLast_concat]
  dsimp only
  rw [htake, hdrop, Tag.written]

/-- A name does not begin with a mark of other markup. -/
theorem readMarkup_of_isName {cs rest : List Char} (h : isName cs) :
    readMarkup (cs ++ rest) =
      match cutTag? none (cs ++ rest) with
      | some (content, after) => (tagOf content, after)
      | none => (.broken, []) := by
  obtain ⟨c, more, rfl, hc⟩ := exists_cons_of_isName h
  have hmark : c ≠ '!' ∧ c ≠ '/' ∧ c ≠ '?' := by
    refine ⟨?_, ?_, ?_⟩ <;> rintro rfl <;> exact absurd hc (by decide)
  rw [List.cons_append]
  exact readMarkup.eq_4 (c :: (more ++ rest)) (fun _ heq ↦ hmark.1 (List.cons.inj heq).1)
    (fun _ heq ↦ hmark.2.1 (List.cons.inj heq).1) (fun _ heq ↦ hmark.2.2 (List.cons.inj heq).1)

theorem readMarkup_startTag (h : isName name.toList) (hproper : Proper attributes) (rest : List Char) :
    readMarkup (name.toList ++ attributesChars attributes ++ '>' :: rest) =
      (.startTag (.written name attributes), rest) := by
  have hpasses := (passes_of_isName h).append (passes_attributesChars hproper.names)
  rw [List.append_assoc, readMarkup_of_isName h, ← List.append_assoc, hpasses, cutTag?, if_pos rfl,
    Option.map_some]
  simp only [List.append_nil, tagOf_written h]

theorem readMarkup_emptyTag (h : isName name.toList) (hproper : Proper attributes) (rest : List Char) :
    readMarkup (name.toList ++ attributesChars attributes ++ '/' :: '>' :: rest) =
      (.emptyTag (.written name attributes), rest) := by
  have hslash : Passes ['/'] := passes_of_forall (List.forall_mem_singleton.2 (by decide))
  have hpasses := ((passes_of_isName h).append (passes_attributesChars hproper.names)).append hslash
  have hchars : name.toList ++ attributesChars attributes ++ '/' :: '>' :: rest =
      name.toList ++ attributesChars attributes ++ ['/'] ++ '>' :: rest := by simp
  have hcut : cutTag? none (name.toList ++ attributesChars attributes ++ ['/'] ++ '>' :: rest) =
      some (name.toList ++ attributesChars attributes ++ ['/'], rest) := by
    rw [hpasses, cutTag?, if_pos rfl, Option.map_some]
    simp only [List.append_nil]
  rw [hchars, List.append_assoc, List.append_assoc, readMarkup_of_isName h, ← List.append_assoc,
    ← List.append_assoc, hcut]
  simp only [tagOf_written_slash h]

theorem readMarkup_endTag (h : isName name.toList) (rest : List Char) :
    readMarkup ('/' :: (name.toList ++ '>' :: rest)) = (.endTag name.toList, rest) := by
  have hbracket : ∀ c ∈ name.toList, decide (c = '>') = false := by
    intro c hc
    rw [decide_eq_false_iff_not]
    rintro rfl
    exact not_mem_of_isName h (by decide) hc
  have hblank : Text.trimRightWhile isMarkupBlank name.toList = name.toList :=
    Text.trimRightWhile_eq_self fun c hc ↦
      isMarkupBlank_of_isNameChar (forall_isNameChar h c (List.mem_of_getLast? hc))
  have hname : name.toList ≠ [] := by
    obtain ⟨c, cs, hcs, -⟩ := exists_cons_of_isName h
    rw [hcs]
    exact List.cons_ne_nil c cs
  rw [readMarkup, upToBracket, Text.cutWhere?_append hbracket (by decide), Option.getD_some]
  simp only [hblank, hname, if_false]

section

variable {opened : List (List Char)} {cs after : List Char}

/-- The tokens from a piece of markup on, with the text behind it. -/
def tokensBehind (opened : List (List Char)) (after : List Char) : Markup → List Token
  | .startTag t => .startTag t :: tokensWithin (t.name :: opened) after
  | .emptyTag t => .emptyTag t :: tokensWithin opened after
  | .endTag name =>
    if opened.head? = some name then .endTag :: tokensWithin opened.tail after else [.broken]
  | .cdata content => .cdata content :: tokensWithin opened after
  | .skipped => tokensWithin opened after
  | .broken => [.broken]

/-- Blanks in front of a piece of markup do not count. -/
theorem tokensWithin_of_trim {markup : Markup} {text : List Char}
    (htrim : Text.trimLeftWhile isMarkupBlank text = '<' :: cs) (hcs : cs ≠ [])
    (h : readMarkup cs = (markup, after)) :
    tokensWithin opened text = tokensBehind opened after markup := by
  rw [tokensWithin]
  split
  · rename_i heq
    rw [htrim] at heq
    contradiction
  · rename_i first rest heq
    rw [htrim] at heq
    obtain ⟨rfl, rfl⟩ := List.cons.inj heq
    rw [if_pos rfl, if_neg hcs]
    split
    all_goals
      rename_i hmarkup _
      rw [h] at hmarkup
      obtain ⟨rfl, rfl⟩ := Prod.mk.inj hmarkup
      rfl

theorem tokensWithin_of_readMarkup {markup : Markup} (hcs : cs ≠ [])
    (h : readMarkup cs = (markup, after)) :
    tokensWithin opened ('<' :: cs) = tokensBehind opened after markup :=
  tokensWithin_of_trim (Text.trimLeftWhile_cons (by decide) cs) hcs h

/-- A text up to a bracket is one token. -/
theorem tokensWithin_text {text : List Char} {c : Char} (h : '<' ∉ c :: cs)
    (htrim : Text.trimLeftWhile isMarkupBlank text = c :: cs ++ '<' :: after) :
    tokensWithin opened text =
      .text (c :: Text.trimRightWhile isMarkupBlank cs) :: tokensWithin opened ('<' :: after) := by
  obtain ⟨hc, hcs⟩ := not_or.1 (mt List.mem_cons.2 h)
  have hplain : ∀ d ∈ cs, decide (d ≠ '<') = true := by
    intro d hd
    rw [decide_eq_true_eq]
    rintro rfl
    exact hcs hd
  rw [tokensWithin]
  split
  · rename_i heq
    rw [htrim] at heq
    contradiction
  · rename_i first others heq
    rw [htrim, List.cons_append] at heq
    obtain ⟨rfl, rfl⟩ := List.cons.inj heq
    rw [if_neg (Ne.symm hc), List.takeWhile_append_of_pos hplain, List.dropWhile_append_of_pos hplain,
      List.takeWhile_cons_of_neg (by decide), List.dropWhile_cons_of_neg (by decide), List.append_nil]

theorem tokensWithin_startTag (h : isName name.toList) (hproper : Proper attributes)
    (rest : List Char) :
    tokensWithin opened ('<' :: (name.toList ++ attributesChars attributes ++ '>' :: rest)) =
      .startTag (.written name attributes) :: tokensWithin (name.toList :: opened) rest :=
  tokensWithin_of_readMarkup (by simp) (readMarkup_startTag h hproper rest)

theorem tokensWithin_emptyTag (h : isName name.toList) (hproper : Proper attributes)
    (rest : List Char) :
    tokensWithin opened ('<' :: (name.toList ++ attributesChars attributes ++ '/' :: '>' :: rest)) =
      .emptyTag (.written name attributes) :: tokensWithin opened rest :=
  tokensWithin_of_readMarkup (by simp) (readMarkup_emptyTag h hproper rest)

theorem tokensWithin_endTag (h : isName name.toList) (rest : List Char) :
    tokensWithin (name.toList :: opened) ('<' :: '/' :: (name.toList ++ '>' :: rest)) =
      .endTag :: tokensWithin opened rest := by
  rw [tokensWithin_of_readMarkup (by simp) (readMarkup_endTag h rest)]
  exact if_pos rfl

/-- A text without blanks of markup at its ends. -/
structure Unpadded (cs : List Char) : Prop where
  head : ∀ c ∈ cs.head?, isMarkupBlank c = false
  last : ∀ c ∈ cs.getLast?, isMarkupBlank c = false

instance (cs : List Char) : Decidable (Unpadded cs) :=
  decidable_of_iff (cs.head?.all (!isMarkupBlank ·) ∧ cs.getLast?.all (!isMarkupBlank ·)) <| by
    simp only [Option.all_eq_true, Bool.not_eq_true']
    exact ⟨fun h ↦ ⟨h.1, h.2⟩, fun h ↦ ⟨h.head, h.last⟩⟩

theorem unpadded_of_forall (h : ∀ c ∈ cs, isMarkupBlank c = false) : Unpadded cs :=
  ⟨fun c hc ↦ h c (List.mem_of_head? hc), fun c hc ↦ h c (List.mem_of_getLast? hc)⟩

theorem isMarkupBlank_of_mem_escapeChar {c d : Char} (hc : isMarkupBlank c = false)
    (hd : d ∈ escapeChar c) : isMarkupBlank d = false := by
  rcases escapeChar_forms c with ⟨heq, -⟩ | ⟨name, heq, -, hname⟩
  · rw [heq, List.mem_singleton] at hd
    rwa [hd]
  · rw [heq, List.cons_append, List.mem_cons, List.mem_append, List.mem_singleton] at hd
    rcases hd with rfl | hd | rfl
    · decide
    · have halpha := List.all_eq_true.1 hname d hd
      simp only [isMarkupBlank, Bool.or_eq_false_iff, decide_eq_false_iff_not]
      refine ⟨⟨⟨?_, ?_⟩, ?_⟩, ?_⟩ <;> rintro rfl <;> exact absurd halpha (by decide)
    · decide

theorem Unpadded.escape (h : Unpadded cs) : Unpadded (escape cs) := by
  refine ⟨fun d hd ↦ ?_, fun d hd ↦ ?_⟩
  · cases cs with
    | nil => contradiction
    | cons c cs =>
      rw [escape_cons, List.head?_append_of_ne_nil _ (escapeChar_ne_nil c)] at hd
      exact isMarkupBlank_of_mem_escapeChar (h.head c rfl) (List.mem_of_head? hd)
  · rcases List.eq_nil_or_concat cs with rfl | ⟨first, c, rfl⟩
    · contradiction
    · rw [List.concat_eq_append] at h hd
      have hchars : Xml.escape (first ++ [c]) = Xml.escape first ++ escapeChar c := by
        simp [Xml.escape]
      rw [hchars, List.getLast?_append_of_ne_nil _ (escapeChar_ne_nil c)] at hd
      exact isMarkupBlank_of_mem_escapeChar (h.last c List.getLast?_concat) (List.mem_of_getLast? hd)

/-- A text is one token, if there is any of it. -/
theorem tokensWithin_escape (h : Unpadded cs) (rest : List Char) :
    tokensWithin opened (escape cs ++ '<' :: rest) =
      (if cs = [] then [] else [.text (escape cs)]) ++ tokensWithin opened ('<' :: rest) := by
  split
  · rename_i hcs
    rw [hcs]
    rfl
  · rename_i hcs
    have hescape := h.escape
    have hmark := not_mem_escape (.inl rfl) cs
    have hne : escape cs ≠ [] := by
      obtain ⟨c, more, rfl⟩ := List.exists_cons_of_ne_nil hcs
      rw [escape_cons]
      exact List.append_ne_nil_of_left_ne_nil (escapeChar_ne_nil c) _
    obtain ⟨d, ds, hds⟩ := List.exists_cons_of_ne_nil hne
    rw [hds] at hescape hmark ⊢
    have hlast : ∀ c ∈ ds.getLast?, isMarkupBlank c = false := by
      intro c hc
      refine hescape.last c ?_
      cases ds with
      | nil => cases hc
      | cons e ds => rwa [List.getLast?_cons_cons]
    have htrim : Text.trimLeftWhile isMarkupBlank (d :: ds ++ '<' :: rest) = d :: ds ++ '<' :: rest :=
      Text.trimLeftWhile_cons (hescape.head d rfl) _
    rw [tokensWithin_text hmark htrim, Text.trimRightWhile_eq_self hlast]
    rfl

end

end

/-- An element with elements inside it, with a text, or with nothing. -/
inductive Tree
  | element (name : String) (attributes : List (String × String)) (children : List Tree)
  | leaf (name : String) (attributes : List (String × String)) (text : String)
  | empty (name : String) (attributes : List (String × String))

namespace Tree

mutual

def chars : Tree → List Char
  | element name attributes children =>
    '<' :: (name.toList ++ attributesChars attributes ++
      '>' :: (allChars children ++ '<' :: '/' :: (name.toList ++ ['>'])))
  | leaf name attributes text =>
    '<' :: (name.toList ++ attributesChars attributes ++
      '>' :: (escape text.toList ++ '<' :: '/' :: (name.toList ++ ['>'])))
  | empty name attributes => '<' :: (name.toList ++ attributesChars attributes ++ ['/', '>'])

def allChars : List Tree → List Char
  | [] => []
  | t :: rest => t.chars ++ allChars rest

end

mutual

def tokens : Tree → List Token
  | element name attributes children =>
    .startTag (.written name attributes) :: (allTokens children ++ [.endTag])
  | leaf name attributes text =>
    .startTag (.written name attributes) ::
      ((if text.toList = [] then [] else [.text (escape text.toList)]) ++ [.endTag])
  | empty name attributes => [.emptyTag (.written name attributes)]

def allTokens : List Tree → List Token
  | [] => []
  | t :: rest => t.tokens ++ allTokens rest

end

/-- Elements whose names are names, each attribute once, and texts that are not padded. -/
inductive WellFormed : Tree → Prop
  | element {name : String} {attributes : List (String × String)} {children : List Tree}
    (hname : isName name.toList) (hproper : Proper attributes)
    (h : ∀ t ∈ children, WellFormed t) : WellFormed (.element name attributes children)
  | leaf {name : String} {attributes : List (String × String)} {text : String}
    (hname : isName name.toList) (hproper : Proper attributes) (htext : Unpadded text.toList) :
    WellFormed (.leaf name attributes text)
  | empty {name : String} {attributes : List (String × String)}
    (hname : isName name.toList) (hproper : Proper attributes) : WellFormed (.empty name attributes)

theorem tokensWithin_allChars {trees : List Tree}
    (h : ∀ t ∈ trees, ∀ opened rest,
      tokensWithin opened (t.chars ++ rest) = t.tokens ++ tokensWithin opened rest)
    (opened : List (List Char)) (rest : List Char) :
    tokensWithin opened (allChars trees ++ rest) = allTokens trees ++ tokensWithin opened rest := by
  induction trees with
  | nil => rfl
  | cons t trees ih =>
    obtain ⟨ht, htrees⟩ := List.forall_mem_cons.1 h
    rw [allChars, allTokens, List.append_assoc, List.append_assoc, ht, ih htrees]

/-- The tokens of what is written are those of the elements, whatever is open around them. -/
theorem tokensWithin_chars {t : Tree} (h : t.WellFormed) (opened : List (List Char))
    (rest : List Char) :
    tokensWithin opened (t.chars ++ rest) = t.tokens ++ tokensWithin opened rest := by
  induction h generalizing opened rest with
  | @element name attributes children hname hproper _ ih =>
    have hchildren := tokensWithin_allChars ih
    simp only [chars, List.cons_append, List.append_assoc, List.nil_append]
    rw [← List.append_assoc, tokensWithin_startTag hname hproper, hchildren, tokensWithin_endTag hname,
      tokens, List.cons_append, List.append_assoc, List.singleton_append]
  | @leaf name attributes text hname hproper htext =>
    simp only [chars, List.cons_append, List.append_assoc, List.nil_append]
    rw [← List.append_assoc, tokensWithin_startTag hname hproper, tokensWithin_escape htext,
      tokensWithin_endTag hname, tokens, List.cons_append, List.append_assoc, List.singleton_append]
  | @empty name attributes hname hproper =>
    simp only [chars, List.cons_append, List.append_assoc, List.nil_append]
    rw [← List.append_assoc, tokensWithin_emptyTag hname hproper]
    rfl

end Tree

/-- What stands between the brackets in front of the root element. -/
def declaration : List Char :=
  "?xml version=\"1.0\" encoding=\"utf-8\"?".toList

/-- A document with an element at its root. -/
def Tree.document (t : Tree) : String :=
  String.ofList ('<' :: (declaration ++ '>' :: t.chars))

theorem readMarkup_declaration (rest : List Char) :
    readMarkup (declaration ++ '>' :: rest) = (.skipped, rest) := by
  have hbracket : ∀ c ∈ declaration.tail, decide (c = '>') = false := by
    intro c hc
    rw [decide_eq_false_iff_not]
    rintro rfl
    exact absurd hc (by decide)
  have hchars : declaration ++ '>' :: rest = '?' :: (declaration.tail ++ '>' :: rest) := rfl
  rw [hchars, readMarkup, upToBracket, Text.cutWhere?_append hbracket (by decide), Option.getD_some]
  exact if_pos (by decide)

theorem tokens_document {t : Tree} (h : t.WellFormed) : tokens t.document.toList = t.tokens := by
  have hend : tokensWithin [] [] = [] := by
    rw [tokensWithin]
    rfl
  have htokens := Tree.tokensWithin_chars h [] []
  rw [List.append_nil, hend, List.append_nil] at htokens
  rw [Tree.document, String.toList_ofList, tokens]
  · rw [tokensWithin_of_readMarkup (by simp) (readMarkup_declaration t.chars)]
    exact htokens
  · intro rest heq
    exact absurd (List.cons.inj heq).1 (by decide)

end OData.Xml
