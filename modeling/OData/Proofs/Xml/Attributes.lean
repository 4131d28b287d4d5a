import OData.Proofs.Text.Trimmed
import OData.Xml.Tag

/-!
Names, references and attributes of XML as they are written, and how the attributes of a tag are found.
-/

namespace OData.Xml

open Text (isMarkupBlank)

/-- A character that a name may begin with. -/
def isNameStart (c : Char) : Bool :=
  let n := c.toNat
  n = 0x3A || (0x41 ≤ n && n ≤ 0x5A) || n = 0x5F || (0x61 ≤ n && n ≤ 0x7A) ||
    (0xC0 ≤ n && n ≤ 0xD6) || (0xD8 ≤ n && n ≤ 0xF6) || (0xF8 ≤ n && n ≤ 0x2FF) ||
    (0x370 ≤ n && n ≤ 0x37D) || (0x37F ≤ n && n ≤ 0x1FFF) || (0x200C ≤ n && n ≤ 0x200D) ||
    (0x2070 ≤ n && n ≤ 0x218F) || (0x2C00 ≤ n && n ≤ 0x2FEF) || (0x3001 ≤ n && n ≤ 0xD7FF) ||
    (0xF900 ≤ n && n ≤ 0xFDCF) || (0xFDF0 ≤ n && n ≤ 0xFFFD) || (0x10000 ≤ n && n ≤ 0xEFFFF)

def isNameChar (c : Char) : Bool :=
  let n := c.toNat
  isNameStart c || n = 0x2D || n = 0x2E || (0x30 ≤ n && n ≤ 0x39) || n = 0xB7 ||
    (0x300 ≤ n && n ≤ 0x36F) || (0x203F ≤ n && n ≤ 0x2040)

/-- Whether a text is a name by the production `Name` of XML. -/
def isName : List Char → Bool
  | [] => false
  | c :: cs => isNameStart c && cs.all isNameChar

/-- The characters that mark the ends of texts and values are written as references. -/
def escapeChar (c : Char) : List Char :=
  if c = '&' then "&amp;".toList
  else if c = '<' then "&lt;".toList
  else if c = '>' then "&gt;".toList
  else if c = '"' then "&quot;".toList
  else [c]

def escape (cs : List Char) : List Char :=
  cs.flatMap escapeChar

section

variable {c : Char} {cs name : List Char}

theorem isNameChar_of_isNameStart (h : isNameStart c) : isNameChar c := by
  simp only [isNameChar, h, Bool.true_or]

theorem forall_isNameChar (h : isName name) : ∀ c ∈ name, isNameChar c := by
  cases name with
  | nil => exact nofun
  | cons c cs =>
    obtain ⟨hc, hcs⟩ := Bool.and_eq_true_iff.1 h
    exact List.forall_mem_cons.2 ⟨isNameChar_of_isNameStart hc, List.all_eq_true.1 hcs⟩

theorem not_mem_of_isName (h : isName name) (hc : isNameChar c = false) : c ∉ name := by
  intro hmem
  rw [forall_isNameChar h c hmem] at hc
  contradiction

theorem exists_cons_of_isName (h : isName name) : ∃ c cs, name = c :: cs ∧ isNameStart c := by
  cases name with
  | nil => contradiction
  | cons c cs => exact ⟨c, cs, rfl, (Bool.and_eq_true_iff.1 h).1⟩

theorem isMarkupBlank_of_isNameChar (h : isNameChar c) : isMarkupBlank c = false := by
  simp only [isMarkupBlank, Bool.or_eq_false_iff, decide_eq_false_iff_not]
  refine ⟨⟨⟨?_, ?_⟩, ?_⟩, ?_⟩ <;> rintro rfl <;> exact absurd h (by decide)

theorem escape_cons (c : Char) (cs : List Char) : escape (c :: cs) = escapeChar c ++ escape cs :=
  List.flatMap_cons

/-- An escaped character has a reference, or stands for itself. -/
theorem escapeChar_forms (c : Char) :
    (escapeChar c = [c] ∧ c ≠ '&' ∧ c ≠ '<' ∧ c ≠ '>' ∧ c ≠ '"') ∨
      ∃ name, escapeChar c = '&' :: name ++ [';'] ∧ reference? name = some c ∧
        name.all Char.isAlpha := by
  unfold escapeChar
  split
  · rename_i h
    exact .inr ⟨"amp".toList, rfl, h ▸ rfl, rfl⟩
  · split
    · rename_i h
      exact .inr ⟨"lt".toList, rfl, h ▸ rfl, rfl⟩
    · split
      · rename_i h
        exact .inr ⟨"gt".toList, rfl, h ▸ rfl, rfl⟩
      · split
        · rename_i h
          exact .inr ⟨"quot".toList, rfl, h ▸ rfl, rfl⟩
        · exact .inl ⟨rfl, ‹_›, ‹_›, ‹_›, ‹_›⟩

theorem expandFrom_reference {name read rest : List Char} {d : Char} (hname : name.all Char.isAlpha)
    (h : reference? (read ++ name) = some d) :
    expandFrom (some read) (name ++ ';' :: rest) = (expandFrom none rest).map (d :: ·) := by
  induction name generalizing read with
  | nil =>
    rw [List.append_nil] at h
    rw [List.nil_append, expandFrom, if_pos rfl, h]
  | cons c name ih =>
    obtain ⟨hc, hname⟩ := Bool.and_eq_true_iff.1 hname
    have hsemicolon : c ≠ ';' := by
      rintro rfl
      exact absurd hc (by decide)
    have hampersand : c ≠ '&' := by
      rintro rfl
      exact absurd hc (by decide)
    rw [List.append_cons] at h
    rw [List.cons_append, expandFrom, if_neg hsemicolon, if_neg hampersand, ih hname h]

theorem expandFrom_escapeChar (c : Char) (rest : List Char) :
    expandFrom none (escapeChar c ++ rest) = (expandFrom none rest).map (c :: ·) := by
  rcases escapeChar_forms c with ⟨hc, hampersand, -⟩ | ⟨name, hc, href, hname⟩
  · rw [hc, List.singleton_append, expandFrom, if_neg hampersand]
  · rw [hc, List.cons_append, List.cons_append, expandFrom, if_pos rfl, List.append_assoc,
      List.singleton_append, @expandFrom_reference name [] rest c hname href]

/-- Expanding references undoes escaping. -/
theorem expand_escape (cs : List Char) : expand (escape cs) = .ok cs := by
  induction cs with
  | nil => rfl
  | cons c cs ih =>
    rw [escape_cons, expand, expandFrom_escapeChar, ← expand, ih]
    rfl

theorem not_mem_escape {d : Char} (hd : d = '<' ∨ d = '"' ∨ d = '>') (cs : List Char) : d ∉ escape cs := by
  intro hmem
  obtain ⟨c, -, hc⟩ := List.mem_flatMap.1 hmem
  rcases escapeChar_forms c with ⟨heq, -, hlt, hgt, hquot⟩ | ⟨name, heq, -, hname⟩
  · rw [heq, List.mem_singleton] at hc
    subst hc
    rcases hd with hd | hd | hd
    · exact hlt hd
    · exact hquot hd
    · exact hgt hd
  · rw [heq, List.cons_append, List.mem_cons, List.mem_append, List.mem_singleton] at hc
    rcases hc with rfl | hc | rfl
    · exact absurd hd (by decide)
    · have halpha := List.all_eq_true.1 hname d hc
      rcases hd with rfl | rfl | rfl <;> exact absurd halpha (by decide)
    · exact absurd hd (by decide)

theorem escapeChar_ne_nil (c : Char) : escapeChar c ≠ [] := by
  rcases escapeChar_forms c with ⟨hc, -⟩ | ⟨name, hc, -⟩ <;> rw [hc] <;> simp

end

def attributeChars (a : String × String) : List Char :=
  ' ' :: (a.1.toList ++ '=' :: '"' :: (escape a.2.toList ++ ['"']))

/-- What follows the name in a tag. -/
def attributesChars (attributes : List (String × String)) : List Char :=
  attributes.flatMap attributeChars

/-- Attributes with names, each of them once. -/
structure Proper (attributes : List (String × String)) : Prop where
  names : ∀ a ∈ attributes, isName a.1.toList
  nodup : (attributes.map Prod.fst).Nodup

theorem Proper.of_names {attributes : List (String × String)} {names : List String}
    (h : attributes.map Prod.fst = names)
    (hnames : (∀ name ∈ names, isName name.toList) ∧ names.Nodup) : Proper attributes := by
  subst h
  exact ⟨List.forall_mem_map.1 hnames.1, hnames.2⟩

instance (attributes : List (String × String)) : Decidable (Proper attributes) :=
  decidable_of_iff ((∀ a ∈ attributes, isName a.1.toList) ∧ (attributes.map Prod.fst).Nodup)
    ⟨fun h ↦ ⟨h.1, h.2⟩, fun h ↦ ⟨h.1, h.2⟩⟩

section

variable {a : String × String} {attributes : List (String × String)} {name : List Char}

/-- Names do not reach to the sign of equality or to a blank. -/
theorem isNameChar_continues {c : Char} (h : isNameChar c) :
    (!(decide (c = '=') || isMarkupBlank c)) = true := by
  have hsign : c ≠ '=' := by
    rintro rfl
    exact absurd h (by decide)
  simp [hsign, isMarkupBlank_of_isNameChar h]

theorem nextAttribute_attributeChars (hname : isName a.1.toList) {seen : List (List Char)}
    (hseen : a.1.toList ∉ seen) (rest : List Char) :
    nextAttribute seen (attributeChars a ++ rest) =
      .ok (some (⟨a.1.toList, escape a.2.toList⟩, rest)) := by
  obtain ⟨c, cs, hcs, -⟩ := exists_cons_of_isName hname
  have hchar := forall_isNameChar hname
  rw [hcs] at hchar hseen ⊢
  obtain ⟨hc, hrest⟩ := List.forall_mem_cons.1 hchar
  have hchars : attributeChars a ++ rest =
      [' '] ++ c :: (cs ++ '=' :: '"' :: (escape a.2.toList ++ '"' :: rest)) := by
    simp [attributeChars, hcs]
  have hspace : ∀ d ∈ [' '], isMarkupBlank d := List.forall_mem_singleton.2 rfl
  have hends : ∀ d ∈ cs, (!(decide (d = '=') || isMarkupBlank d)) = true := fun d hd ↦
    isNameChar_continues (hrest d hd)
  have hfresh : seen.any (· == c :: cs) = false := by
    rw [List.any_eq_false]
    intro name hmem heq
    exact hseen (beq_iff_eq.1 heq ▸ hmem)
  have hquote : ∀ d ∈ escape a.2.toList, decide (d = '"') = false := by
    intro d hd
    rw [decide_eq_false_iff_not]
    rintro rfl
    exact not_mem_escape (.inr (.inl rfl)) _ hd
  rw [hchars, nextAttribute, Text.trimLeftWhile_append hspace,
    Text.trimLeftWhile_cons (isMarkupBlank_of_isNameChar hc)]
  dsimp only
  rw [List.takeWhile_append_of_pos hends, List.dropWhile_append_of_pos hends,
    List.takeWhile_cons_of_neg (by decide), List.dropWhile_cons_of_neg (by decide), List.append_nil,
    Text.trimLeftWhile_cons (by decide)]
  simp only [hfresh, Bool.false_eq_true, if_false]
  rw [Text.trimLeftWhile_cons (by decide)]
  simp only [true_or, if_true]
  rw [Text.cutWhere?_append hquote (by decide)]

/-- The value of an attribute is found by its local name. -/
theorem findAttribute_attributesChars (hproper : Proper attributes) (wanted : List Char)
    {seen : List (List Char)} (hseen : ∀ a ∈ attributes, a.1.toList ∉ seen) :
    findAttribute wanted seen (attributesChars attributes) =
      .ok ((attributes.find? fun a ↦ localName a.1.toList = wanted).map fun a ↦ a.2.toList) := by
  induction attributes generalizing seen with
  | nil =>
    rw [findAttribute]
    rfl
  | cons a rest ih =>
    obtain ⟨hname, hnames⟩ := List.forall_mem_cons.1 hproper.names
    obtain ⟨ha, hrest⟩ := List.forall_mem_cons.1 hseen
    have hnodup := hproper.nodup
    rw [List.map_cons, List.nodup_cons] at hnodup
    have hnext := nextAttribute_attributeChars hname ha (attributesChars rest)
    have hchars : attributesChars (a :: rest) = attributeChars a ++ attributesChars rest :=
      List.flatMap_cons
    rw [hchars, findAttribute]
    split
    · rename_i heq
      cases hnext.symm.trans heq
    · rename_i heq
      cases hnext.symm.trans heq
    · rename_i b more heq
      obtain ⟨rfl, rfl⟩ := Prod.mk.inj (Option.some.inj (Except.ok.inj (hnext.symm.trans heq)))
      by_cases hlocal : localName a.1.toList = wanted
      · rw [if_pos hlocal, List.find?_cons_of_pos (by simpa using hlocal), expand_escape]
        rfl
      · rw [if_neg hlocal, List.find?_cons_of_neg (by simpa using hlocal)]
        refine ih ⟨hnames, hnodup.2⟩ fun b hb ↦ ?_
        rw [List.mem_cons, not_or]
        refine ⟨fun heq ↦ hnodup.1 ?_, hrest b hb⟩
        rw [← String.toList_inj.1 heq]
        exact List.mem_map_of_mem hb

/-- A tag with a name and attributes. -/
def Tag.written (name : String) (attributes : List (String × String)) : Tag :=
  ⟨name.toList, attributesChars attributes⟩

theorem attribute_written (hproper : Proper attributes) (tag key : String) :
    (Tag.written tag attributes).attribute key =
      .ok ((attributes.find? fun a ↦ localName a.1.toList = key.toList).map Prod.snd) := by
  have hfind := @findAttribute_attributesChars _ hproper key.toList [] fun _ _ ↦ List.not_mem_nil
  rw [Tag.attribute, Tag.written, hfind]
  cases attributes.find? fun a ↦ localName a.1.toList = key.toList <;> simp [Except.map]

theorem attribute_of_find? (hproper : Proper attributes) {tag key : String} {found : Option String}
    (h : (attributes.find? fun a ↦ localName a.1.toList = key.toList).map Prod.snd = found) :
    (Tag.written tag attributes).attribute key = .ok found := by
  rw [attribute_written hproper, h]

end

end OData.Xml
