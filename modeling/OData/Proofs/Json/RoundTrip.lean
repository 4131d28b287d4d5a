import Mathlib.Algebra.Ring.Int.Defs
import Mathlib.Data.Option.Basic
import OData.Json.Depth
import OData.Json.Parser
import OData.Proofs.Fields
import OData.Proofs.Text.Digits
import OData.Proofs.Text.Trimmed

/-!
The text of a document, read back. Escapes are undone, and each value is read up to the mark that follows
it; a document that nests too deep is refused.
-/

namespace OData

namespace Json

/-- Documents that their text keeps: each number is an integer of at most 64 bits, and each name in an
object stands once. -/
inductive Exact : Json → Prop
  | null : Exact .null
  | boolean (b : Bool) : Exact (.boolean b)
  | integer {n : Int} (hlow : -2 ^ 63 ≤ n) (hhigh : n < 2 ^ 64) : Exact (.integer n)
  | string (s : String) : Exact (.string s)
  | array {items : List Json} (h : ∀ item ∈ items, Exact item) : Exact (.array items)
  | object {members : List (String × Json)} (hnames : (members.map Prod.fst).Nodup)
    (h : ∀ m ∈ members, Exact m.2) : Exact (.object members)

/-- A character is written as it is, or as an escape that stands for it. -/
theorem escapeChar_forms (c : Char) :
    (escapeChar c = [c] ∧ c ≠ '"' ∧ c ≠ '\\' ∧ 32 ≤ c.toNat) ∨
      ∃ cs, escapeChar c = '\\' :: cs ∧ ∀ rest, readEscape? (cs ++ rest) = some (c, rest) := by
  unfold escapeChar
  repeat' split
  all_goals try
    rename_i h
    exact .inr ⟨_, rfl, fun rest ↦ by rw [h]; rfl⟩
  · rename_i h
    refine .inr ⟨_, rfl, fun rest ↦ ?_⟩
    have hzero : Text.hexValue? '0' = some 0 := by decide
    have hunit : readUnit? ('0' :: '0' :: Text.hexDigitLower (c.toNat / 16) ::
        Text.hexDigitLower (c.toNat % 16) :: rest) = some (c.toNat, rest) := by
      rw [readUnit?, hzero, Text.hexValue?_hexDigitLower (by omega),
        Text.hexValue?_hexDigitLower (by omega)]
      simp only [Option.bind_eq_bind, Option.bind_some, Option.pure_def]
      congr 2
      omega
    have hescape : readEscape? ('u' :: '0' :: '0' :: Text.hexDigitLower (c.toNat / 16) ::
        Text.hexDigitLower (c.toNat % 16) :: rest) = some (c, rest) := by
      rw [readEscape?, readEscapedUnit?, hunit]
      simp only [Option.bind_eq_bind, Option.bind_some]
      rw [if_neg (by omega), guard, if_pos (by omega)]
      simp
    exact hescape
  · rename_i hquote hbackslash _ _ _ _ _ hcontrol
    exact .inl ⟨rfl, hquote, hbackslash, by omega⟩

/-- The reader of strings undoes escaping. -/
theorem readString?_escaped (cs rest : List Char) {steps : Nat}
    (h : (cs.flatMap escapeChar).length < steps) :
    readString? steps (cs.flatMap escapeChar ++ '"' :: rest) = some (cs, rest) := by
  induction cs generalizing steps with
  | nil =>
    obtain ⟨steps, rfl⟩ := Nat.exists_eq_succ_of_ne_zero (Nat.ne_of_gt h)
    rfl
  | cons c cs ih =>
    obtain ⟨steps, rfl⟩ := Nat.exists_eq_succ_of_ne_zero (Nat.ne_of_gt (Nat.zero_lt_of_lt h))
    rw [List.flatMap_cons, List.length_append] at h
    rw [List.flatMap_cons, List.append_assoc]
    rcases escapeChar_forms c with ⟨hc, hquote, hbackslash, hcontrol⟩ | ⟨escape, hc, hread⟩
    · rw [hc, List.length_singleton] at h
      rw [hc, List.singleton_append, readString?, if_neg hquote, if_neg hbackslash,
        if_neg (Nat.not_lt.2 hcontrol), ih (by omega)]
      rfl
    · rw [hc, List.length_cons] at h
      rw [hc, List.cons_append, readString?, if_neg (by decide), if_pos rfl, hread, Option.bind_eq_bind,
        Option.bind_some]
      dsimp only
      rw [ih (by omega)]
      rfl

theorem readString?_quoteChars (s : String) (rest : List Char) :
    ∃ cs, quoteChars s ++ rest = '"' :: cs ∧ readString? cs.length cs = some (s.toList, rest) := by
  refine ⟨s.toList.flatMap escapeChar ++ '"' :: rest, ?_, readString?_escaped _ _ ?_⟩
  · simp [quoteChars]
  · rw [List.length_append, List.length_cons]
    omega

/-- What may follow a value within a document: the end, or a mark. -/
def Ends (rest : List Char) : Prop :=
  ∀ c ∈ rest.head?, c = ',' ∨ c = ']' ∨ c = '\x7d'

theorem Ends.ne {rest : List Char} (h : Ends rest) :
    ∀ c ∈ rest.head?, c.isDigit = false ∧ c ≠ '.' ∧ c ≠ 'e' ∧ c ≠ 'E' := by
  intro c hc
  rcases h c hc with rfl | rfl | rfl <;> decide

theorem readWhole?_decimal (n : Nat) {rest : List Char} (h : ∀ c ∈ rest.head?, c.isDigit = false) :
    readWhole? (Text.decimal n ++ rest) = some (Text.decimal n, rest) := by
  rw [readWhole?, Text.spanDigits_append (fun _ ↦ Text.isDigit_of_mem_decimal) h]
  rcases Nat.eq_zero_or_pos n with rfl | hn
  · rfl
  · obtain ⟨c, cs, hcs, hc⟩ := Text.exists_decimal_eq_cons hn
    rw [hcs]
    split <;> simp_all

theorem readNumeral?_signedDecimal (n : Int) {rest : List Char} (h : Ends rest) :
    readNumeral? (Text.signedDecimal n ++ rest) =
      some (⟨n < 0, Text.decimal n.natAbs, none, none⟩, rest) := by
  have hwhole := readWhole?_decimal n.natAbs fun c hc ↦ (h.ne c hc).1
  have hfraction : readFraction? rest = some (none, rest) := by
    unfold readFraction?
    split
    · exact absurd rfl (h.ne _ rfl).2.1
    · rfl
  have hexponent : readExponent? rest = some (none, rest) := by
    cases rest with
    | nil => rfl
    | cons c rest =>
      obtain ⟨-, -, he, hE⟩ := h.ne c rfl
      simp [readExponent?, he, hE]
  rw [Text.signedDecimal]
  split
  · rename_i hn
    rw [List.cons_append, readNumeral?]
    simp only [Option.bind_eq_bind, hwhole, hfraction, hexponent, Option.bind_some, hn, decide_true]
    rfl
  · rename_i hn
    have hsign : ∀ cs, Text.decimal n.natAbs ++ rest ≠ '-' :: cs := by
      intro cs heq
      obtain ⟨c, ds, hds⟩ := List.exists_cons_of_ne_nil (Text.decimal_ne_nil n.natAbs)
      rw [hds] at heq
      obtain ⟨rfl, -⟩ := List.cons.inj heq
      have hdigit : ('-').isDigit := Text.isDigit_of_mem_decimal (hds ▸ List.mem_cons_self ..)
      exact absurd hdigit (by decide)
    rw [readNumeral?]
    · simp only [Option.bind_eq_bind, hwhole, hfraction, hexponent, Option.bind_some, hn, decide_false]
      rfl
    · exact hsign

theorem significantDigits_eq {digits : List Char} {read : Nat}
    (h : Nat.ofDigitChars 10 digits read < UInt64.size) :
    significantDigits read digits = (Nat.ofDigitChars 10 digits read, 0) := by
  induction digits generalizing read with
  | nil => rfl
  | cons c rest ih =>
    rw [Nat.ofDigitChars_cons] at h ⊢
    have hle := Text.le_ofDigitChars rest (10 * read + (c.toNat - '0'.toNat))
    have hnext : read * 10 + (c.toNat - 48) = 10 * read + (c.toNat - '0'.toNat) := by
      rw [Nat.mul_comm]
      rfl
    rw [significantDigits]
    simp only [hnext]
    rw [if_pos (by omega)]
    exact ih h

theorem toJson?_integer {n : Int} (hlow : -2 ^ 63 ≤ n) (hhigh : n < 2 ^ 64) :
    Numeral.toJson? ⟨n < 0, Text.decimal n.natAbs, none, none⟩ = some (.integer n) := by
  have hsize : UInt64.size = 2 ^ 64 := rfl
  have hvalue : Nat.ofDigitChars 10 (Text.decimal n.natAbs) 0 = n.natAbs :=
    Text.digitsValue_decimal n.natAbs
  have hdigits := @significantDigits_eq (Text.decimal n.natAbs) 0 (by omega)
  rw [hvalue] at hdigits
  have hpow : Nat.pow 2 63 = 2 ^ 63 := rfl
  simp only [Numeral.toJson?, hdigits, ne_eq, not_true_eq_false, if_false]
  by_cases hn : n < 0
  · simp only [hn, decide_true, Bool.not_true, Bool.false_eq_true, if_false]
    rw [if_neg (by omega)]
    congr 2
    omega
  · simp only [hn, decide_false, Bool.not_false, if_true]
    congr 2
    omega

/-- No value begins with a blank or with a closing bracket. -/
theorem exists_chars_eq_cons {j : Json} (hj : Exact j) :
    ∃ c cs, j.chars = c :: cs ∧ Text.isMarkupBlank c = false ∧ c ≠ ']' := by
  cases hj with
  | null => exact ⟨_, _, rfl, by decide⟩
  | boolean b => cases b <;> exact ⟨_, _, rfl, by decide⟩
  | @integer n =>
    obtain ⟨c, cs, hcs⟩ := List.exists_cons_of_ne_nil (Text.signedDecimal_ne_nil n)
    refine ⟨c, cs, hcs, ?_⟩
    rcases Text.minus_or_isDigit_of_mem n (hcs ▸ List.mem_cons_self ..) with rfl | hc
    · decide
    · exact ⟨Text.isMarkupBlank_of_isDigit hc, by rintro rfl; exact absurd hc (by decide)⟩
  | string s => exact ⟨_, _, rfl, by decide⟩
  | array => exact ⟨_, _, rfl, by decide⟩
  | object => exact ⟨_, _, rfl, by decide⟩

theorem skipBlanks_cons {c : Char} (h : Text.isMarkupBlank c = false) (cs : List Char) :
    skipBlanks (c :: cs) = c :: cs :=
  Text.trimLeftWhile_cons h cs

theorem skipBlanks_of_ends {rest : List Char} (h : Ends rest) : skipBlanks rest = rest := by
  refine Text.trimLeftWhile_eq_self fun c hc ↦ ?_
  rcases h c hc with rfl | rfl | rfl <;> rfl

/-- The text of a document is read up to the mark behind it, or refused for its depth. Two steps for
each character are enough. -/
def ReadsBack (j : Json) : Prop :=
  ∀ (depth steps : Nat) (rest : List Char), 2 * j.chars.length ≤ steps → Ends rest →
    readValue? depth steps (j.chars ++ rest) = if j.depth ≤ depth then some (j, rest) else none

theorem exists_steps {j : Json} (hj : Exact j) {steps : Nat} (h : 2 * j.chars.length ≤ steps) :
    ∃ fewer, steps = fewer + 1 := by
  obtain ⟨c, cs, hcs, -⟩ := exists_chars_eq_cons hj
  rw [hcs, List.length_cons] at h
  exact ⟨steps - 1, by omega⟩

theorem readsBack_integer {n : Int} (hlow : -2 ^ 63 ≤ n) (hhigh : n < 2 ^ 64) :
    ReadsBack (.integer n) := by
  intro depth steps rest hsteps hrest
  obtain ⟨c, cs, hcs, hblank, -⟩ := exists_chars_eq_cons (.integer hlow hhigh)
  have hc := Text.minus_or_isDigit_of_mem n (hcs ▸ List.mem_cons_self ..)
  obtain ⟨steps, rfl⟩ := exists_steps (.integer hlow hhigh) hsteps
  have hread := readNumeral?_signedDecimal n hrest
  have hchars : Text.signedDecimal n = c :: cs := hcs
  have hdepth : (integer n).depth = 0 := rfl
  rw [hchars, List.cons_append] at hread
  rw [hcs, List.cons_append, readValue?, skipBlanks_cons hblank, hdepth, if_pos (Nat.zero_le _)]
  split
  case h_7 => simp [hread, toJson?_integer hlow hhigh]
  all_goals
    rename_i heq
    obtain ⟨rfl, -⟩ := List.cons.inj heq
    exact absurd hc (by decide)

theorem readsBack_string (s : String) : ReadsBack (.string s) := by
  intro depth steps rest hsteps hrest
  obtain ⟨steps, rfl⟩ := exists_steps (.string s) hsteps
  obtain ⟨cs, hcs, hread⟩ := readString?_quoteChars s rest
  have hdepth : (string s).depth = 0 := rfl
  rw [chars, hcs, readValue?, skipBlanks_cons (by decide), hdepth, if_pos (Nat.zero_le _)]
  simp [hread]

theorem readItems?_itemChars {items : List Json} (hne : items ≠ []) (hitems : ∀ item ∈ items, ReadsBack item)
    {depth steps : Nat} (rest : List Char) (hsteps : 2 * (itemChars items).length + 1 ≤ steps) :
    readItems? depth steps (itemChars items ++ ']' :: rest) =
      if itemsDepth items ≤ depth then some (items, rest) else none := by
  have hclose : Ends (']' :: rest) := fun c hc ↦ .inr (.inl (Option.some.inj hc).symm)
  have hcomma : ∀ more : List Char, Ends (',' :: more) := fun _ c hc ↦ .inl (Option.some.inj hc).symm
  induction items generalizing steps with
  | nil => contradiction
  | cons item items ih =>
    obtain ⟨hitem, hrest⟩ := List.forall_mem_cons.1 hitems
    obtain ⟨steps, rfl⟩ : ∃ fewer, steps = fewer + 1 := ⟨steps - 1, by omega⟩
    cases items with
    | nil =>
      rw [itemChars] at hsteps ⊢
      rw [readItems?, hitem _ _ _ (by omega) hclose, itemsDepth, itemsDepth, Nat.max_zero]
      split <;> rfl
    | cons next items =>
      have hchars : itemChars (item :: next :: items) =
          item.chars ++ ',' :: itemChars (next :: items) := rfl
      rw [hchars, List.length_append, List.length_cons] at hsteps
      have hmore := @ih (List.cons_ne_nil _ _) hrest steps (by omega)
      rw [hchars, List.append_assoc, List.cons_append, readItems?, hitem _ _ _ (by omega) (hcomma _),
        itemsDepth]
      by_cases hfirst : item.depth ≤ depth
      · simp only [if_pos hfirst, Option.bind_eq_bind, Option.bind_some, skipBlanks_of_ends (hcomma _),
          hmore]
        by_cases hothers : itemsDepth (next :: items) ≤ depth
        · rw [if_pos hothers, if_pos (Nat.max_le.2 ⟨hfirst, hothers⟩)]
          rfl
        · rw [if_neg hothers, if_neg fun h ↦ hothers (Nat.max_le.1 h).2]
          rfl
      · rw [if_neg hfirst, if_neg fun h ↦ hfirst (Nat.max_le.1 h).1]
        rfl

theorem readMembers?_memberChars {members : List (String × Json)} (hne : members ≠ [])
    (hmembers : ∀ m ∈ members, ReadsBack m.2) {depth steps : Nat} (rest : List Char)
    (hsteps : 2 * (memberChars members).length + 1 ≤ steps) :
    readMembers? depth steps (memberChars members ++ '\x7d' :: rest) =
      if membersDepth members ≤ depth then some (members, rest) else none := by
  have hclose : Ends ('\x7d' :: rest) := fun c hc ↦ .inr (.inr (Option.some.inj hc).symm)
  have hcomma : ∀ more : List Char, Ends (',' :: more) := fun _ c hc ↦ .inl (Option.some.inj hc).symm
  induction members generalizing steps with
  | nil => contradiction
  | cons m members ih =>
    obtain ⟨name, v⟩ := m
    obtain ⟨(hv : ReadsBack v), hrest⟩ := List.forall_mem_cons.1 hmembers
    obtain ⟨steps, rfl⟩ : ∃ fewer, steps = fewer + 1 := ⟨steps - 1, by omega⟩
    cases members with
    | nil =>
      have hchars : memberChars [(name, v)] = quoteChars name ++ ':' :: v.chars := rfl
      rw [hchars, List.length_append, List.length_cons] at hsteps
      obtain ⟨cs, hcs, hname⟩ := readString?_quoteChars name (':' :: v.chars ++ '\x7d' :: rest)
      rw [hchars, List.append_assoc, hcs, readMembers?, skipBlanks_cons (by decide)]
      rw [List.cons_append] at hname
      have hvalue := hv depth steps _ (by omega) hclose
      have hcolon : skipBlanks (':' :: (v.chars ++ '\x7d' :: rest)) = _ := skipBlanks_cons (by decide) _
      simp only [hname, Option.bind_eq_bind, Option.bind_some, hcolon, hvalue, membersDepth,
        Nat.max_zero]
      split
      · simp [skipBlanks_of_ends hclose]
      · rfl
    | cons next members =>
      have hchars : memberChars ((name, v) :: next :: members) =
          quoteChars name ++ ':' :: v.chars ++ ',' :: memberChars (next :: members) := rfl
      rw [hchars, List.length_append, List.length_append, List.length_cons, List.length_cons] at hsteps
      have hmore := @ih (List.cons_ne_nil _ _) hrest steps (by omega)
      obtain ⟨cs, hcs, hname⟩ := readString?_quoteChars name
        (':' :: v.chars ++ (',' :: memberChars (next :: members) ++ '\x7d' :: rest))
      rw [hchars, List.append_assoc, List.append_assoc, hcs, readMembers?, skipBlanks_cons (by decide)]
      rw [List.cons_append] at hname
      have hvalue := hv depth steps _ (by omega) (hcomma (memberChars (next :: members) ++ '\x7d' :: rest))
      have hcolon : skipBlanks (':' :: (v.chars ++ ',' :: (memberChars (next :: members) ++ '\x7d' :: rest))) =
        _ := skipBlanks_cons (by decide) _
      simp only [List.cons_append, hname, Option.bind_eq_bind, Option.bind_some, hcolon, hvalue]
      rw [membersDepth]
      by_cases hfirst : v.depth ≤ depth
      · simp only [if_pos hfirst, Option.bind_some, skipBlanks_of_ends (hcomma _), hmore]
        by_cases hothers : membersDepth (next :: members) ≤ depth
        · rw [if_pos hothers, if_pos (Nat.max_le.2 ⟨hfirst, hothers⟩)]
          simp
        · rw [if_neg hothers, if_neg fun h ↦ hothers (Nat.max_le.1 h).2]
          rfl
      · rw [if_neg hfirst, if_neg fun h ↦ hfirst (Nat.max_le.1 h).1]
        rfl

theorem exists_itemChars_eq_cons {items : List Json} (hne : items ≠ [])
    (h : ∀ item ∈ items, Exact item) :
    ∃ c cs, itemChars items = c :: cs ∧ Text.isMarkupBlank c = false ∧ c ≠ ']' := by
  match items with
  | [item] => exact exists_chars_eq_cons (h item (List.mem_cons_self ..))
  | item :: next :: items =>
    obtain ⟨c, cs, hcs, hc⟩ := exists_chars_eq_cons (h item (List.mem_cons_self ..))
    have hchars : itemChars (item :: next :: items) =
        item.chars ++ ',' :: itemChars (next :: items) := rfl
    exact ⟨c, _, by rw [hchars, hcs, List.cons_append], hc⟩

theorem exists_memberChars_eq_cons {members : List (String × Json)} (hne : members ≠ []) :
    ∃ cs, memberChars members = '"' :: cs := by
  match members with
  | [(name, v)] => exact ⟨_, rfl⟩
  | (name, v) :: next :: members => exact ⟨_, rfl⟩

theorem readsBack_array {items : List Json} (h : ∀ item ∈ items, Exact item)
    (hitems : ∀ item ∈ items, ReadsBack item) : ReadsBack (.array items) := by
  intro depth steps rest hsteps hrest
  have hchars : (array items).chars = '[' :: itemChars items ++ [']'] := rfl
  have hdepth : (array items).depth = itemsDepth items + 1 := rfl
  rw [hchars, List.length_append, List.length_cons, List.length_singleton] at hsteps
  obtain ⟨steps, rfl⟩ : ∃ fewer, steps = fewer + 1 := ⟨steps - 1, by omega⟩
  rw [hchars, List.append_assoc, List.cons_append, List.singleton_append, readValue?,
    skipBlanks_cons (by decide), hdepth]
  by_cases hpos : 0 < depth
  · simp only [guard, if_pos hpos, Option.bind_eq_bind, Option.pure_def, Option.bind_some]
    by_cases hne : items = []
    · subst hne
      rw [itemChars, List.nil_append, skipBlanks_cons (by decide), itemsDepth, if_pos (by omega)]
      rfl
    · obtain ⟨c, cs, hcs, hblank, hc⟩ := exists_itemChars_eq_cons hne h
      have hread := @readItems?_itemChars _ hne hitems (depth - 1) steps rest (by omega)
      rw [hcs, List.cons_append] at hread ⊢
      rw [skipBlanks_cons hblank]
      split
      · rename_i heq
        exact absurd (List.cons.inj heq).1 hc
      · rw [hread]
        split
        · rw [if_pos (by omega)]
          rfl
        · rw [if_neg (by omega)]
          rfl
  · rw [guard, if_neg hpos, if_neg (by omega)]
    rfl

theorem readsBack_object {members : List (String × Json)} (hnames : (members.map Prod.fst).Nodup)
    (hmembers : ∀ m ∈ members, ReadsBack m.2) : ReadsBack (.object members) := by
  intro depth steps rest hsteps hrest
  have hchars : (object members).chars = '\x7b' :: memberChars members ++ ['\x7d'] := rfl
  have hdepth : (object members).depth = membersDepth members + 1 := rfl
  rw [hchars, List.length_append, List.length_cons, List.length_singleton] at hsteps
  obtain ⟨steps, rfl⟩ : ∃ fewer, steps = fewer + 1 := ⟨steps - 1, by omega⟩
  rw [hchars, List.append_assoc, List.cons_append, List.singleton_append, readValue?,
    skipBlanks_cons (by decide), hdepth]
  by_cases hpos : 0 < depth
  · simp only [guard, if_pos hpos, Option.bind_eq_bind, Option.pure_def, Option.bind_some]
    by_cases hne : members = []
    · subst hne
      rw [memberChars, List.nil_append, skipBlanks_cons (by decide), membersDepth, if_pos (by omega)]
      rfl
    · obtain ⟨cs, hcs⟩ := exists_memberChars_eq_cons hne
      have hread := @readMembers?_memberChars _ hne hmembers (depth - 1) steps rest (by omega)
      rw [hcs, List.cons_append] at hread ⊢
      rw [skipBlanks_cons (by decide)]
      split
      · rename_i heq
        exact absurd (List.cons.inj heq).1 (by decide)
      · rw [hread]
        split
        · rw [if_pos (by omega), Option.bind_some, Fields.ofList_eq_self hnames]
        · rw [if_neg (by omega)]
          rfl
  · rw [guard, if_neg hpos, if_neg (by omega)]
    rfl

theorem readsBack {j : Json} (hj : Exact j) : ReadsBack j := by
  induction hj with
  | null =>
    intro depth steps rest hsteps hrest
    obtain ⟨steps, rfl⟩ := exists_steps .null hsteps
    rfl
  | boolean b =>
    intro depth steps rest hsteps hrest
    obtain ⟨steps, rfl⟩ := exists_steps (.boolean b) hsteps
    cases b <;> rfl
  | integer hlow hhigh => exact readsBack_integer hlow hhigh
  | string s => exact readsBack_string s
  | array h ih => exact readsBack_array h ih
  | object hnames h ih => exact readsBack_object hnames ih

/-- A document is read from its text, unless it nests too deep. -/
theorem ofText?_text {j : Json} (hj : Exact j) :
    ofText? j.text = if j.depth ≤ maxDepth then some j else none := by
  have hend : Ends [] := nofun
  have hread := readsBack hj maxDepth (2 * j.chars.length + 2) [] (by omega) hend
  rw [List.append_nil] at hread
  rw [ofText?, text, String.toList_ofList, hread]
  split
  · rename_i h
    split at h
    · simp_all [skipBlanks_of_ends hend]
    · contradiction
  · rename_i h
    split at h
    · contradiction
    · simp_all

end Json
end OData
