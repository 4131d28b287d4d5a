import OData.Proofs.Address.Filling
import OData.Proofs.Address.Query
import OData.Proofs.Value.Literal

/-!
Keys read back. The parts of a key have commas between them, and each has its name in front of an equals
sign; the commas of a string are between quotes. So the text of a key gives back its parts, and different
keys of one form have different texts.
-/

namespace OData

open OData.Filter (isIdentifier not_mem_of_isIdentifier isNameChar_of_isIdentifier readString
  readString_doubleQuotes)

/-- The types that parts of keys have. -/
def Value.isKeyValue : Value → Bool
  | boolean _ | int32 _ | int64 _ | string _ | guid _ => true
  | _ => false

theorem Value.isKeyValue_of_alike {v w : Value} (h : v.Alike w) (hv : v.isKeyValue) :
    w.isKeyValue := by
  have hname (v : Value) : v.isKeyValue =
      (v.typeName ∈ ["Edm.Boolean", "Edm.Int32", "Edm.Int64", "Edm.String", "Edm.Guid"]) := by
    cases v <;> simp [isKeyValue, typeName]
  rw [hname] at hv ⊢
  exact h ▸ hv

/-- Names with values, read from a text that has commas between them. -/
def readNamed (cs : List Char) : List Clause :=
  if cs = [] then [] else (Text.unquotedPieces ',' false cs).map Clause.ofChars

/-- The parts of a key, read from its text in parentheses. -/
def readKey? (cs : List Char) : Option (List Clause) :=
  ((Text.afterPrefix? ['('] cs).bind (Text.beforeSuffix? [')'])).map readNamed

/-- The string that a literal has between its quotes. -/
def unquote? : List Char → Option (List Char)
  | '\'' :: cs =>
    match readString cs with
    | some (s, []) => some s
    | _ => none
  | _ => none

theorem readKey?_parenthesized (cs : List Char) :
    readKey? (Filter.parenthesized cs) = some (readNamed cs) := by
  have hclose := Text.beforeSuffix?_append cs [')']
  rw [readKey?, Filter.parenthesized, List.cons_append]
  exact congrArg (Option.map readNamed) hclose

/-- A clause that keeps together where its list is cut: its name is an identifier, and no comma of its
value stands outside of quotes. -/
structure Clause.IsNamed (c : Clause) : Prop where
  name : isIdentifier c.name
  value : Text.Uncut ',' false c.value

theorem Clause.IsNamed.uncut {c : Clause} (h : c.IsNamed) : Text.Uncut ',' false c.chars := by
  have hname : Text.Uncut ',' false c.name := by
    refine Text.uncut_of_forall fun d hd ↦ ⟨?_, ?_⟩
    · rintro rfl
      exact not_mem_of_isIdentifier h.name (by decide) hd
    · rintro rfl
      exact not_mem_of_isIdentifier h.name (by decide) hd
  exact hname.append ((Text.uncut_singleton (c := '=') (by decide) (by decide)).append h.value)

theorem readNamed_intercalate {clauses : List Clause} (h : ∀ c ∈ clauses, c.IsNamed) :
    readNamed (List.intercalate [','] (clauses.map Clause.chars)) = clauses := by
  cases clauses with
  | nil => rfl
  | cons c clauses =>
    have hne : List.intercalate [','] ((c :: clauses).map Clause.chars) ≠ [] := by
      obtain ⟨rest, hrest⟩ := Text.exists_intercalate_cons ',' c.chars (clauses.map Clause.chars)
      rw [List.map_cons, hrest, Clause.chars]
      simp
    rw [readNamed, if_neg hne, Text.unquotedPieces_intercalate (by simp), List.map_map]
    · refine (List.map_congr_left fun d hd ↦ ?_).trans (List.map_id _)
      exact Clause.ofChars_chars (not_mem_of_isIdentifier (h d hd).name (by decide))
    · intro cs hcs
      obtain ⟨d, hd, rfl⟩ := List.mem_map.1 hcs
      exact (h d hd).uncut

theorem unquote?_quoteChars (cs : List Char) : unquote? (Literal.quoteChars cs) = some cs := by
  rw [Literal.quoteChars, List.cons_append, unquote?, readString_doubleQuotes cs (by simp)]

/-- Literals of one type are different for different values. -/
theorem Literal.eq_of_chars {version : Version} {v w : Value} (hv : v.isKeyValue) (h : v.Alike w)
    {cs : List Char} (hcs : chars version v = .ok cs) (hcs' : chars version w = .ok cs) : v = w := by
  have heq := hcs.trans hcs'.symm
  cases v with
  | boolean b =>
    cases w with
    | boolean b' =>
      cases b <;> cases b' <;> first | rfl | exact absurd (Except.ok.inj heq) (by decide)
    | _ => simp [Value.Alike, Value.typeName] at h
  | int32 n =>
    cases w with
    | int32 n' =>
      rw [Int32.toInt_inj.1 (Text.signedDecimal_injective (Except.ok.inj heq))]
    | _ => simp [Value.Alike, Value.typeName] at h
  | int64 n =>
    cases w with
    | int64 n' =>
      have hdigits := List.append_cancel_right (Except.ok.inj heq)
      rw [Int64.toInt_inj.1 (Text.signedDecimal_injective hdigits)]
    | _ => simp [Value.Alike, Value.typeName] at h
  | string s =>
    cases w with
    | string s' =>
      have hquoted := congrArg unquote? (Except.ok.inj heq)
      rw [unquote?_quoteChars, unquote?_quoteChars] at hquoted
      rw [String.toList_injective (Option.some.inj hquoted)]
    | _ => simp [Value.Alike, Value.typeName] at h
  | guid g =>
    cases w with
    | guid g' =>
      have hchars : g.chars = g'.chars := by
        cases version with
        | v3 =>
          have hwrapped : wrapped "guid" g.chars = wrapped "guid" g'.chars := Except.ok.inj heq
          have hquoted := List.append_cancel_left (List.append_cancel_right hwrapped)
          exact (List.cons.inj hquoted).2
        | v4 => exact Except.ok.inj heq
      rw [Guid.chars_injective hchars]
    | _ => simp [Value.Alike, Value.typeName] at h
  | _ => contradiction

namespace Formatting

variable (f : Formatting) (collection : Option String)

/-- A part of a key whose name is known as an identifier and whose value has a type for keys. -/
structure IsKeyPart (part : String × Value) : Prop where
  name : ∃ name, f.keyName part.1 collection = .ok name ∧ isIdentifier name.toList
  value : part.2.isKeyValue

/-- What is read for a part of a key: its exact name, and its literal with the string that it quotes. -/
structure IsReadAs (part : String × Value) (entry : Clause) : Prop where
  name : ∃ name, f.keyName part.1 collection = .ok name ∧ entry.name = name.toList
  value : f.literal part.2 = .ok entry.value
  string : ∀ s, part.2 = .string s → unquote? entry.value = some s.toList

inductive IsKey : Key → Prop
  | single {v : Value} (h : v.isKeyValue) : IsKey (.single v)
  | composite {parts : List (String × Value)} (h : ∀ part ∈ parts, f.IsKeyPart collection part) :
    IsKey (.composite parts)

variable {f collection}

theorem literal_of_isKeyValue {v : Value} (h : v.isKeyValue) : ∃ cs, f.literal v = .ok cs := by
  cases v with
  | boolean | int32 | int64 | string => exact ⟨_, rfl⟩
  | guid g =>
    obtain ⟨r, version, mode⟩ := f
    cases version
    · exact ⟨_, rfl⟩
    · exact ⟨_, rfl⟩
  | _ => contradiction

theorem keyPart_of_isKeyPart {part : String × Value} (h : f.IsKeyPart collection part) :
    ∃ entry, f.keyPart collection part = .ok entry ∧ f.IsReadAs collection part entry ∧
      entry.IsNamed := by
  obtain ⟨name, hname, hid⟩ := h.name
  obtain ⟨text, htext⟩ := literal_of_isKeyValue (f := f) h.value
  have hplain : Literal.IsPlain text := by
    refine Literal.isPlain_chars ?_ (Except.mapError_eq_ok.1 htext)
    cases hv : part.2 with
    | collection => simpa [hv, Value.isKeyValue] using h.value
    | _ => rfl
  refine ⟨⟨name.toList, text⟩, ?_, ⟨⟨name, hname, rfl⟩, htext, ?_⟩, hid,
    hplain.uncut (by decide) (by decide)⟩
  · rw [keyPart_eq, hname, htext]
    rfl
  · intro s hs
    rw [hs] at htext
    obtain rfl := Except.ok.inj htext
    exact unquote?_quoteChars s.toList

theorem key_composite {parts : List (String × Value)} (h : 2 ≤ parts.length) :
    f.key collection (.composite parts) = do
      let parts ← parts.mapM (f.keyPart collection)
      return Filter.parenthesized (List.intercalate [','] (parts.map Clause.chars)) := by
  match parts, h with
  | _ :: _ :: _, _ => rfl

/-- A key of two or more parts is read back as its parts in their order. -/
theorem readKey?_of_parts {parts : List (String × Value)} (htwo : 2 ≤ parts.length)
    (h : ∀ part ∈ parts, f.IsKeyPart collection part) :
    ∃ text entries, f.key collection (.composite parts) = .ok text ∧ readKey? text = some entries ∧
      List.Forall₂ (f.IsReadAs collection) parts entries := by
  obtain ⟨entries, hentries, hread, hnamed⟩ : ∃ entries, parts.mapM (f.keyPart collection) = .ok entries ∧
      List.Forall₂ (f.IsReadAs collection) parts entries ∧ ∀ entry ∈ entries, entry.IsNamed := by
    clear htwo
    induction parts with
    | nil => exact ⟨[], rfl, .nil, List.forall_mem_nil _⟩
    | cons part parts ih =>
      obtain ⟨hpart, hparts⟩ := List.forall_mem_cons.1 h
      obtain ⟨entry, hentry, hread, hnamed⟩ := keyPart_of_isKeyPart hpart
      obtain ⟨entries, hentries, hreads, hall⟩ := ih hparts
      refine ⟨entry :: entries, ?_, .cons hread hreads, List.forall_mem_cons.2 ⟨hnamed, hall⟩⟩
      rw [List.mapM_cons, hentry, hentries]
      rfl
  refine ⟨Filter.parenthesized (List.intercalate [','] (entries.map Clause.chars)), entries, ?_, ?_,
    hread⟩
  · rw [key_composite htwo, hentries]
    rfl
  · rw [readKey?_parenthesized, readNamed_intercalate hnamed]

theorem eq_of_literal {v w : Value} (hv : v.isKeyValue) (h : v.Alike w) {cs : List Char}
    (hcs : f.literal v = .ok cs) (hcs' : f.literal w = .ok cs) : v = w :=
  Literal.eq_of_chars hv h (Except.mapError_eq_ok.1 hcs) (Except.mapError_eq_ok.1 hcs')

theorem eq_of_parenthesized {v w : Value} (hv : v.isKeyValue) (h : v.Alike w) {text : List Char}
    (ht : (f.literal v).map Filter.parenthesized = .ok text)
    (ht' : (f.literal w).map Filter.parenthesized = .ok text) : v = w := by
  obtain ⟨cs, hcs, rfl⟩ := Except.map_eq_ok.1 ht
  obtain ⟨cs', hcs', heq⟩ := Except.map_eq_ok.1 ht'
  obtain rfl := List.append_cancel_right (List.cons.inj heq).2
  exact eq_of_literal hv h hcs hcs'

theorem IsKeyPart.of_sameName {part part' : String × Value} (h : f.IsKeyPart collection part)
    (hs : SameName Value.Alike part part') : f.IsKeyPart collection part' :=
  ⟨hs.1 ▸ h.name, Value.isKeyValue_of_alike hs.2 h.value⟩

theorem eq_of_parts {parts parts' : List (String × Value)} (htwo : 2 ≤ parts.length)
    (h : ∀ part ∈ parts, f.IsKeyPart collection part)
    (hs : List.Forall₂ (SameName Value.Alike) parts parts') {text : List Char}
    (ht : f.key collection (.composite parts) = .ok text)
    (ht' : f.key collection (.composite parts') = .ok text) : parts = parts' := by
  have h' : ∀ part ∈ parts', f.IsKeyPart collection part := by
    clear htwo ht ht'
    induction hs with
    | nil => exact List.forall_mem_nil _
    | cons hpart hs ih =>
      obtain ⟨hfirst, hrest⟩ := List.forall_mem_cons.1 h
      exact List.forall_mem_cons.2 ⟨hfirst.of_sameName hpart, ih hrest⟩
  obtain ⟨text₁, entries, ht₁, hread, hentries⟩ := readKey?_of_parts htwo h
  obtain ⟨text₂, entries', ht₂, hread', hentries'⟩ := readKey?_of_parts (hs.length_eq ▸ htwo) h'
  obtain rfl := Except.ok.inj (ht.symm.trans ht₁)
  obtain rfl := Except.ok.inj (ht'.symm.trans ht₂)
  obtain rfl := Option.some.inj (hread.symm.trans hread')
  clear htwo ht ht' ht₁ ht₂ hread hread' h'
  induction hs generalizing entries with
  | nil => rfl
  | @cons part part' _ _ hpart hs ih =>
    obtain ⟨hfirst, hrest⟩ := List.forall_mem_cons.1 h
    obtain ⟨entry, others, he, hothers, rfl⟩ := List.forall₂_cons_left_iff.1 hentries
    obtain ⟨he', hothers'⟩ := List.forall₂_cons.1 hentries'
    have hvalue := eq_of_literal hfirst.value hpart.2 he.value he'.value
    rw [ih hrest others hothers hothers', Prod.ext hpart.1 hvalue]

/-- Keys of one form, with values of the same types, have different texts where they are different. -/
theorem eq_of_key {key key' : Key} (h : f.IsKey collection key) (hs : key.Alike key')
    {text : List Char} (ht : f.key collection key = .ok text)
    (ht' : f.key collection key' = .ok text) : key = key' := by
  cases hs with
  | single hs =>
    cases h with
    | single hv => rw [eq_of_parenthesized hv hs ht ht']
  | composite hs =>
    cases h with
    | composite hparts =>
      cases hs with
      | nil => rfl
      | @cons part part' _ _ hpart hs =>
        cases hs with
        | nil =>
          have hvalue := eq_of_parenthesized (hparts part List.mem_cons_self).value hpart.2 ht ht'
          rw [Prod.ext hpart.1 hvalue]
        | cons hsecond hs =>
          rw [eq_of_parts (by simp) hparts (.cons hpart (.cons hsecond hs)) ht ht']

/-- The text of a key of several parts reads as their exact names and literals in order, and gives back
every string; with one part it is the literal alone. So keys of one form, with values of the same types,
have one text only where they are equal. -/
theorem key_readable (f : Formatting) (collection : Option String) :
    (∀ parts : List (String × Value), 2 ≤ parts.length →
      (∀ part ∈ parts, f.IsKeyPart collection part) →
      ∃ text entries, f.key collection (.composite parts) = .ok text ∧ readKey? text = some entries ∧
        List.Forall₂ (f.IsReadAs collection) parts entries) ∧
    (∀ name v, f.key collection (.single v) = (f.literal v).map Filter.parenthesized ∧
      f.key collection (.composite [(name, v)]) = (f.literal v).map Filter.parenthesized) ∧
    ∀ key key' text, f.IsKey collection key → key.Alike key' → f.key collection key = .ok text →
      f.key collection key' = .ok text → key = key' :=
  ⟨fun _ htwo h ↦ readKey?_of_parts htwo h, fun _ _ ↦ ⟨rfl, rfl⟩, fun _ _ _ h hs ↦ eq_of_key h hs⟩

/-- A service whose products have a key of two parts. -/
def shelves : Formatting where
  resolver := (Schema.mk "NS" [⟨"Products", [("Code", .string), ("Shelf", .other)], []⟩] []).resolver
  version := .v3

/-- A code that looks like the rest of a key. -/
def shelved : List (String × Value) :=
  [("code", .string "7',Shelf=('"), ("shelf", .int64 7)]

theorem key_readable_shelved :
    2 ≤ shelved.length ∧ (∀ part ∈ shelved, shelves.IsKeyPart (some "Products") part) ∧
      shelves.key (some "Products") (.composite shelved) =
        .ok "(Code='7'',Shelf=(''',Shelf=7L)".toList ∧
      ∃ entries, readKey? "(Code='7'',Shelf=(''',Shelf=7L)".toList = some entries ∧
        List.Forall₂ (shelves.IsReadAs (some "Products")) shelved entries := by
  have hcode : shelves.keyName "code" (some "Products") = .ok "Code" := by decide +kernel
  have hshelf : shelves.keyName "shelf" (some "Products") = .ok "Shelf" := by decide +kernel
  have hparts : ∀ part ∈ shelved, shelves.IsKeyPart (some "Products") part := by
    simp only [shelved, List.forall_mem_cons]
    exact ⟨⟨⟨_, hcode, by decide⟩, rfl⟩, ⟨⟨_, hshelf, by decide⟩, rfl⟩, List.forall_mem_nil _⟩
  have htext : shelves.key (some "Products") (.composite shelved) =
      .ok "(Code='7'',Shelf=(''',Shelf=7L)".toList := by
    decide +kernel
  obtain ⟨text, entries, ht, hread, hentries⟩ :=
    (key_readable shelves (some "Products")).1 shelved (by decide) hparts
  obtain rfl := Except.ok.inj (htext.symm.trans ht)
  exact ⟨by decide, hparts, htext, entries, hread, hentries⟩

end Formatting

end OData
