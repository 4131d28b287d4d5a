import Mathlib.Data.List.TakeWhile
import OData.Proofs.Address.Expansion
import OData.Proofs.Address.Query
import OData.Proofs.Filter.Token
import OData.Proofs.Text.Digits
import OData.Proofs.Text.Nested
import OData.Proofs.Text.Occurrence

/-!
Expanded navigations of the newer dialect read back. Commas separate navigations and semicolons their
options, both outside of parentheses; an option that expands further holds such a text again.
-/

namespace OData

open OData.Filter (isIdentifier isNameChar isNameChar_of_isIdentifier not_mem_of_isIdentifier)

/-- The text of a property: an identifier, a member of a property, or a function of one. -/
inductive IsPropertyText : List Char → Prop
  | name {cs : List Char} (h : isIdentifier cs) : IsPropertyText cs
  | member {cs name : List Char} (h : IsPropertyText cs) (hn : isIdentifier name) :
    IsPropertyText (cs ++ '/' :: name)
  | call {function cs : List Char} (hf : isIdentifier function) (h : IsPropertyText cs) :
    IsPropertyText (function ++ Filter.parenthesized cs)

/-- Options whose names are spelled in identifiers. A filter may be among them where it is escaped in
full: in the other mode it may leave a parenthesis open. -/
structure ExactOptions.HasNames (mode : Text.EscapeMode) (o : ExactOptions) : Prop where
  select : ∀ path ∈ o.select, path = ['*'] ∨ IsPropertyText path
  filter : o.filter.isSome → mode = .canonical
  orderBy : ∀ item ∈ o.orderBy, IsPropertyText item.1

inductive Expansion.HasNames (mode : Text.EscapeMode) : Expansion → Prop
  | node {name : List Char} {options : ExactOptions} {below : List Expansion}
    (hname : isIdentifier name) (hoptions : options.HasNames mode)
    (hbelow : ∀ e ∈ below, HasNames mode e) : HasNames mode (.node name options below)

/-- A property with a direction behind it. -/
def readOrdered (cs : List Char) : List Char × Direction :=
  match Text.beforeSuffix? " desc".toList cs with
  | some path => (path, .descending)
  | none => (cs, .ascending)

def readTop? (cs : List Char) : Option Nat :=
  if cs ≠ [] ∧ cs.all Char.isDigit then some (Text.digitsValue cs) else none

/-- The options that an expanded navigation can have. -/
inductive OptionKind
  | select
  | filter
  | orderBy
  | top
  | expand
  deriving DecidableEq, Repr

namespace OptionKind

def name : OptionKind → List Char
  | select => "$select".toList
  | filter => "$filter".toList
  | orderBy => "$orderby".toList
  | top => "$top".toList
  | expand => "$expand".toList

def ofName? (cs : List Char) : Option OptionKind :=
  [select, filter, orderBy, top, expand].find? fun kind ↦ kind.name = cs

end OptionKind

/-- An option beside those in front of it. None stands twice. -/
def addOption? (read : List Char → Option (List Expansion)) (value : List Char) :
    OptionKind → ExactOptions × List Expansion → Option (ExactOptions × List Expansion)
  | .select, (o, below) =>
    if o.select = [] then some ({ o with select := Text.pieces (· = ',') value }, below) else none
  | .filter, (o, below) =>
    if o.filter = none then
      (Text.unescape? value).map fun filter ↦ ({ o with filter := some filter }, below)
    else none
  | .orderBy, (o, below) =>
    if o.orderBy = [] then
      some ({ o with orderBy := (Text.pieces (· = ',') value).map readOrdered }, below)
    else none
  | .top, (o, below) =>
    if o.top = none then (readTop? value).map fun n ↦ ({ o with top := some n }, below) else none
  | .expand, (o, below) =>
    if below.isEmpty then (read value).map fun below ↦ (o, below) else none

/-- An option by its name, which ends at the first equals sign. -/
def readOption? (read : List Char → Option (List Expansion))
    (e : ExactOptions × List Expansion) (text : List Char) : Option (ExactOptions × List Expansion) :=
  let c := Clause.ofChars text
  (OptionKind.ofName? c.name).bind fun kind ↦ addOption? read c.value kind e

/-- A name, alone or with options in parentheses. -/
def readItem? (read : List Char → Option (List Expansion)) (text : List Char) : Option Expansion :=
  let name := text.takeWhile (· ≠ '(')
  match text.dropWhile (· ≠ '(') with
  | [] => some (.node name {} [])
  | _ :: inside =>
    match Text.beforeSuffix? [')'] inside with
    | none => none
    | some inside =>
      ((Text.outerPieces ';' 0 inside).foldlM (readOption? read) ({}, [])).map
        fun (options, below) ↦ .node name options below

def readItems? : (depth : Nat) → List Char → Option (List Expansion)
  | 0, _ => none
  | depth + 1, text => (Text.outerPieces ',' 0 text).mapM (readItem? (readItems? depth))

/-- The navigations that a text expands. They are nested no deeper than the text is long. -/
def readExpand? (text : List Char) : Option (List Expansion) :=
  readItems? (text.length + 1) text

section

variable {mark c : Char} {depth : Nat} {cs : List Char} {mode : Text.EscapeMode}

/-- The marks between navigations and between options. -/
def nestingMarks : List Char :=
  [',', ';']

theorem nestingMarks_facts : ∀ mark ∈ nestingMarks,
    isNameChar mark = false ∧ mark ≠ '/' ∧ mark ≠ '(' ∧ mark ≠ ')' :=
  List.forall_mem_cons.2 ⟨by decide, List.forall_mem_singleton.2 (by decide)⟩

/-- A text without parentheses and marks. -/
def isClear (cs : List Char) : Bool :=
  cs.all (· ∉ ['(', ')', ',', ';'])

theorem isClear_of_forall {p : Char → Bool} (hp : ['(', ')', ',', ';'].all (!p ·))
    (h : ∀ c ∈ cs, p c) : isClear cs := by
  refine List.all_eq_true.2 fun c hc ↦ decide_eq_true fun hmem ↦ ?_
  have hmark := List.all_eq_true.1 hp c hmem
  rw [h c hc] at hmark
  contradiction

/-- A clear text is in one piece. -/
theorem whole_of_isClear (hm : mark ∈ nestingMarks) (h : isClear cs) : Text.Whole mark depth cs := by
  refine Text.whole_of_forall fun c hc ↦ ?_
  have hclear := of_decide_eq_true (List.all_eq_true.1 h c hc)
  simp only [List.mem_cons, List.not_mem_nil, or_false, not_or] at hclear
  refine ⟨hclear.1, hclear.2.1, ?_⟩
  rintro rfl
  simp [nestingMarks, hclear] at hm

theorem whole_of_isIdentifier (hm : mark ∈ nestingMarks) (h : isIdentifier cs) :
    Text.Whole mark depth cs :=
  whole_of_isClear hm (isClear_of_forall (by decide) (isNameChar_of_isIdentifier h))

theorem IsPropertyText.whole (h : IsPropertyText cs) (hm : mark ∈ nestingMarks) :
    Text.Whole mark depth cs := by
  obtain ⟨-, hs, ho, hc⟩ := nestingMarks_facts mark hm
  induction h generalizing depth with
  | name h => exact whole_of_isIdentifier hm h
  | member _ hn ih =>
    have hslash : Text.Whole mark depth ['/'] :=
      Text.whole_singleton (by decide) (by decide) fun heq ↦ absurd heq.symm hs
    exact ih.append (hslash.append (whole_of_isIdentifier hm hn))
  | call hf _ ih => exact (whole_of_isIdentifier hm hf).append (Text.whole_parenthesized ho hc ih)

theorem IsPropertyText.not_mem (h : IsPropertyText cs) (hc : isNameChar c = false)
    (hmark : c ≠ '/' ∧ c ≠ '(' ∧ c ≠ ')') : c ∉ cs := by
  obtain ⟨hs, ho, hp⟩ := hmark
  have hidentifier : ∀ {cs}, isIdentifier cs → c ∉ cs := fun h ↦ not_mem_of_isIdentifier h hc
  induction h with
  | name h => exact hidentifier h
  | member _ hn ih =>
    rw [List.mem_append, List.mem_cons, not_or, not_or]
    exact ⟨ih, hs, hidentifier hn⟩
  | call hf _ ih =>
    simp only [Filter.parenthesized, List.cons_append, List.mem_append, List.mem_cons, not_or]
    exact ⟨hidentifier hf, ho, ih, hp, List.not_mem_nil⟩

end

namespace ExactOptions

variable {mode : Text.EscapeMode} {o : ExactOptions} {mark : Char} {depth : Nat}

theorem HasNames.whole_select (h : o.HasNames mode) (hm : mark ∈ nestingMarks) :
    ∀ path ∈ o.select, Text.Whole mark depth path := by
  intro path hpath
  rcases h.select path hpath with rfl | hproperty
  · refine Text.whole_singleton (by decide) (by decide) ?_
    rintro rfl
    exact absurd hm (by decide)
  · exact hproperty.whole hm

theorem HasNames.comma_not_mem_select (h : o.HasNames mode) : ∀ path ∈ o.select, ',' ∉ path := by
  intro path hpath
  rcases h.select path hpath with rfl | hproperty
  · decide
  · exact hproperty.not_mem (by decide) (by decide)

theorem HasNames.whole_orderBy (h : o.HasNames mode) (hm : mark ∈ nestingMarks) :
    ∀ item ∈ o.orderBy, Text.Whole mark depth (orderedChars item) := by
  rintro ⟨path, direction⟩ hitem
  have hpath : Text.Whole mark depth path := (h.orderBy _ hitem).whole hm
  cases direction with
  | ascending => exact hpath
  | descending => exact hpath.append (whole_of_isClear hm rfl)

theorem HasNames.comma_not_mem_orderBy (h : o.HasNames mode) :
    ∀ item ∈ o.orderBy, ',' ∉ orderedChars item := by
  rintro ⟨path, direction⟩ hitem
  have hpath : ',' ∉ path := (h.orderBy _ hitem).not_mem (by decide) (by decide)
  cases direction with
  | ascending => exact hpath
  | descending =>
    rw [orderedChars, List.mem_append, not_or]
    exact ⟨hpath, by decide⟩

theorem HasNames.readOrdered_orderBy (h : o.HasNames mode) :
    ∀ item ∈ o.orderBy, readOrdered (orderedChars item) = item := by
  rintro ⟨path, direction⟩ hitem
  cases direction with
  | ascending =>
    have hsuffix : Text.beforeSuffix? " desc".toList path = none := by
      rw [Text.beforeSuffix?_eq_none_iff]
      intro before hbefore
      have hblank : ' ' ∉ path := (h.orderBy _ hitem).not_mem (by decide) (by decide)
      rw [hbefore, List.mem_append, not_or] at hblank
      exact hblank.2 (by decide)
    rw [orderedChars, readOrdered, hsuffix]
  | descending => rw [orderedChars, readOrdered, Text.beforeSuffix?_append]

theorem whole_clause (hm : mark ∈ nestingMarks) {name value : List Char}
    (hn : isClear name) (hv : Text.Whole mark depth value) :
    Text.Whole mark depth (Clause.chars ⟨name, value⟩) := by
  have hequals : Text.Whole mark depth ['='] := whole_of_isClear hm rfl
  exact (whole_of_isClear hm hn).append (hequals.append hv)

theorem whole_commaSeparated (hd : mark = ',' → depth ≠ 0)
    {items : List (List Char)} (h : ∀ cs ∈ items, Text.Whole mark depth cs) :
    Text.Whole mark depth (Formatting.commaSeparated items) :=
  Text.whole_intercalate
    (Text.whole_singleton (by decide) (by decide) fun heq ↦ hd heq.symm) h

theorem whole_listClause (hm : mark ∈ nestingMarks) (hd : mark = ',' → depth ≠ 0) {name : String}
    (hn : isClear name.toList) {items : List (List Char)}
    (h : ∀ cs ∈ items, Text.Whole mark depth cs) :
    ∀ c ∈ Formatting.listClause name items, Text.Whole mark depth c.chars := by
  unfold Formatting.listClause
  split
  · nofun
  · exact List.forall_mem_singleton.2 (whole_clause hm hn (whole_commaSeparated hd h))

theorem isClear_escapeChars (cs : List Char) : isClear (Text.escapeChars .canonical cs) := by
  refine isClear_of_forall (p := fun c ↦ Text.EscapeMode.keeps .canonical c || c = '%') (by decide)
    fun c hc ↦ ?_
  rw [Bool.or_eq_true, decide_eq_true_iff]
  exact Text.keeps_or_eq_of_mem_escapeChars hc

theorem HasNames.whole_filter (h : o.HasNames mode) (hm : mark ∈ nestingMarks) :
    ∀ c ∈ filterClauses mode o.filter, Text.Whole mark depth c.chars := by
  cases hfilter : o.filter with
  | none => nofun
  | some text =>
    obtain rfl := h.filter (hfilter ▸ rfl)
    exact List.forall_mem_singleton.2
      (whole_clause hm rfl (whole_of_isClear hm (isClear_escapeChars text)))

theorem whole_top (hm : mark ∈ nestingMarks) (top : Option Nat) :
    ∀ c ∈ Formatting.numberClause "$top" top, Text.Whole mark depth c.chars := by
  cases top with
  | none => nofun
  | some n =>
    have hdigits : isClear (Text.decimal n) :=
      isClear_of_forall (p := Char.isDigit) (by decide) fun _ ↦ Text.isDigit_of_mem_decimal
    exact List.forall_mem_singleton.2 (whole_clause hm rfl (whole_of_isClear hm hdigits))

theorem HasNames.whole_clauses (h : o.HasNames mode) (hm : mark ∈ nestingMarks)
    (hd : mark = ',' → depth ≠ 0) : ∀ c ∈ o.clauses mode, Text.Whole mark depth c.chars := by
  simp only [clauses, List.forall_mem_append]
  have horder : ∀ cs ∈ o.orderBy.map orderedChars, Text.Whole mark depth cs :=
    List.forall_mem_map.2 (h.whole_orderBy hm)
  exact ⟨⟨⟨whole_listClause hm hd rfl (h.whole_select hm), h.whole_filter hm⟩,
    whole_listClause hm hd rfl horder⟩, whole_top hm o.top⟩

end ExactOptions

namespace Expansion

variable {mode : Text.EscapeMode} {mark : Char} {depth : Nat}

theorem whole_inside {options : ExactOptions} {below : List Expansion}
    (hoptions : options.HasNames mode) (hm : mark ∈ nestingMarks) (hd : mark = ',' → depth ≠ 0)
    (hbelow : ∀ e ∈ below, Text.Whole mark depth (e.chars mode)) :
    ∀ c ∈ inside mode options below, Text.Whole mark depth c.chars := by
  rw [inside, List.forall_mem_append]
  refine ⟨hoptions.whole_clauses hm hd, ExactOptions.whole_listClause hm hd rfl ?_⟩
  rw [charsAll_eq_map]
  exact List.forall_mem_map.2 hbelow

theorem HasNames.whole_chars {e : Expansion} (h : e.HasNames mode) (hm : mark ∈ nestingMarks) :
    Text.Whole mark depth (e.chars mode) := by
  obtain ⟨-, -, ho, hc⟩ := nestingMarks_facts mark hm
  induction h generalizing depth with
  | @node name options below hname hoptions _ ih =>
    have hfirst : Text.Whole mark depth name := whole_of_isIdentifier hm hname
    rw [chars_node, withClauses]
    split
    · exact hfirst
    · refine hfirst.append (Text.whole_parenthesized ho hc (Text.whole_intercalate ?_ ?_))
      · exact Text.whole_singleton (by decide) (by decide) fun _ ↦ Nat.succ_ne_zero depth
      · exact List.forall_mem_map.2
          (whole_inside hoptions hm (fun _ ↦ Nat.succ_ne_zero depth) fun e he ↦ ih e he)

end Expansion

section

variable {mode : Text.EscapeMode} {read : List Char → Option (List Expansion)} {o : ExactOptions}
  {below : List Expansion}

theorem pieces_commaSeparated {items : List (List Char)} (hne : items ≠ [])
    (h : ∀ cs ∈ items, ',' ∉ cs) :
    Text.pieces (· = ',') (Formatting.commaSeparated items) = items := by
  refine Text.pieces_intercalate rfl hne fun cs hcs c hc ↦ decide_eq_false ?_
  rintro rfl
  exact h cs hcs hc

theorem readOption?_chars (e : ExactOptions × List Expansion) (kind : OptionKind)
    (value : List Char) :
    readOption? read e (Clause.chars ⟨kind.name, value⟩) = addOption? read value kind e := by
  have hname : '=' ∉ kind.name := by cases kind <;> decide
  have hkind : OptionKind.ofName? kind.name = some kind := by cases kind <;> decide
  rw [readOption?, Clause.ofChars_chars hname]
  dsimp only
  rw [hkind, Option.bind_some]

theorem readTop?_decimal (n : Nat) : readTop? (Text.decimal n) = some n := by
  have hdigits : Text.decimal n ≠ [] ∧ (Text.decimal n).all Char.isDigit :=
    ⟨Text.decimal_ne_nil n, List.all_eq_true.2 fun _ ↦ Text.isDigit_of_mem_decimal⟩
  rw [readTop?, if_pos hdigits, Text.digitsValue_decimal]

theorem readOption?_singleton {e e' : ExactOptions × List Expansion} (kind : OptionKind)
    {value : List Char} (h : addOption? read value kind e = some e') :
    [Clause.chars ⟨kind.name, value⟩].foldlM (readOption? read) e = some e' := by
  rw [List.foldlM_cons, readOption?_chars, h]
  rfl

theorem readOptions_listClause {e e' : ExactOptions × List Expansion} (kind : OptionKind)
    {name : String} (hname : name.toList = kind.name) {items : List (List Char)}
    (hempty : items = [] → e = e')
    (h : items ≠ [] → addOption? read (Formatting.commaSeparated items) kind e = some e') :
    ((Formatting.listClause name items).map Clause.chars).foldlM (readOption? read) e = some e' := by
  rw [Formatting.listClause]
  split
  · rename_i heq
    exact congrArg some (hempty heq)
  · rename_i hne
    rw [hname]
    exact readOption?_singleton kind (h hne)

/-- The options are read one after the other, each beside those in front of it. -/
theorem readOptions_inside (hn : o.HasNames mode)
    (hread : below ≠ [] →
      read (Formatting.commaSeparated (Expansion.charsAll mode below)) = some below) :
    ((Expansion.inside mode o below).map Clause.chars).foldlM (readOption? read) ({}, []) =
      some (o, below) := by
  obtain ⟨fields, filter, items, top⟩ := o
  have hfields : ∀ path ∈ fields, ',' ∉ path := hn.comma_not_mem_select
  have hitems : ∀ item ∈ items, ',' ∉ ExactOptions.orderedChars item := hn.comma_not_mem_orderBy
  have hdirections : (items.map ExactOptions.orderedChars).map readOrdered = items := by
    rw [List.map_map]
    exact (List.map_congr_left hn.readOrdered_orderBy).trans (List.map_id _)
  have hselect : ((Formatting.listClause "$select" fields).map Clause.chars).foldlM
      (readOption? read) ({}, []) = some (⟨fields, none, [], none⟩, []) := by
    refine readOptions_listClause .select rfl (fun heq ↦ by rw [heq]) fun hne ↦ ?_
    rw [addOption?, if_pos rfl, pieces_commaSeparated hne hfields]
  have hfilter : ((ExactOptions.filterClauses mode filter).map Clause.chars).foldlM
      (readOption? read) (⟨fields, none, [], none⟩, []) =
        some (⟨fields, filter, [], none⟩, []) := by
    cases filter with
    | none => rfl
    | some text =>
      refine readOption?_singleton .filter ?_
      rw [addOption?, if_pos rfl, Text.unescape?_escapeChars, Option.map_some]
  have horder : ((Formatting.listClause "$orderby" (items.map ExactOptions.orderedChars)).map
      Clause.chars).foldlM (readOption? read) (⟨fields, filter, [], none⟩, []) =
        some (⟨fields, filter, items, none⟩, []) := by
    refine readOptions_listClause .orderBy rfl
      (fun heq ↦ by rw [List.map_eq_nil_iff.1 heq]) fun hne ↦ ?_
    rw [addOption?, if_pos rfl, pieces_commaSeparated hne (List.forall_mem_map.2 hitems),
      hdirections]
  have htop : ((Formatting.numberClause "$top" top).map Clause.chars).foldlM (readOption? read)
      (⟨fields, filter, items, none⟩, []) = some (⟨fields, filter, items, top⟩, []) := by
    cases top with
    | none => rfl
    | some n =>
      refine readOption?_singleton .top ?_
      rw [addOption?, if_pos rfl, readTop?_decimal, Option.map_some]
  have hexpand : ((Formatting.listClause "$expand" (Expansion.charsAll mode below)).map
      Clause.chars).foldlM (readOption? read) (⟨fields, filter, items, top⟩, []) =
        some (⟨fields, filter, items, top⟩, below) := by
    rw [Expansion.charsAll_eq_map] at hread ⊢
    refine readOptions_listClause .expand rfl
      (fun heq ↦ by rw [List.map_eq_nil_iff.1 heq]) fun hne ↦ ?_
    rw [addOption?, if_pos List.isEmpty_nil, hread (mt List.map_eq_nil_iff.2 hne),
      Option.map_some]
  simp only [Expansion.inside, ExactOptions.clauses, List.map_append, List.foldlM_append, hselect,
    hfilter, horder, htop, hexpand, Option.bind_eq_bind, Option.bind_some]

theorem readItem?_chars {name : List Char} (hname : isIdentifier name) (hn : o.HasNames mode)
    (hbelow : ∀ e ∈ below, e.HasNames mode)
    (hread : below ≠ [] →
      read (Formatting.commaSeparated (Expansion.charsAll mode below)) = some below) :
    readItem? read ((Expansion.node name o below).chars mode) = some (.node name o below) := by
  have hoptions := readOptions_inside hn hread
  have hopen : ∀ c ∈ name, decide (c ≠ '(') = true := fun c hc ↦
    decide_eq_true (ne_of_mem_of_not_mem hc (not_mem_of_isIdentifier hname (by decide)))
  rw [Expansion.chars_node, Expansion.withClauses]
  split
  · -- No clause is written, so the options are those of a name alone.
    rename_i hnone
    rw [hnone] at hoptions
    obtain ⟨rfl, rfl⟩ := Prod.mk.inj (Option.some.inj hoptions)
    rw [readItem?, List.takeWhile_eq_self_iff.2 hopen, List.dropWhile_eq_nil_iff.2 hopen]
  · rename_i hsome
    have hwhole : ∀ cs ∈ (Expansion.inside mode o below).map Clause.chars,
        Text.Whole ';' 0 cs :=
      List.forall_mem_map.2 (Expansion.whole_inside hn (by decide) (by decide)
        fun e he ↦ (hbelow e he).whole_chars (by decide))
    have hpieces := Text.outerPieces_intercalate (mt List.map_eq_nil_iff.1 hsome) hwhole
    rw [readItem?, List.takeWhile_append_of_pos hopen, List.dropWhile_append_of_pos hopen,
      Filter.parenthesized, List.cons_append, List.takeWhile_cons_of_neg (by decide),
      List.dropWhile_cons_of_neg (by decide)]
    dsimp only
    rw [Text.beforeSuffix?_append]
    dsimp only
    rw [hpieces, hoptions, List.append_nil, Option.map_some]

/-- The text of what is expanded below is shorter. -/
theorem length_charsAll_lt (mode : Text.EscapeMode) (name : List Char) (o : ExactOptions)
    (hne : below ≠ []) :
    (Formatting.commaSeparated (Expansion.charsAll mode below)).length <
      ((Expansion.node name o below).chars mode).length := by
  have hcharsAll : Expansion.charsAll mode below ≠ [] := by
    rw [Expansion.charsAll_eq_map]
    exact mt List.map_eq_nil_iff.1 hne
  have hmem : ⟨"$expand".toList, Formatting.commaSeparated (Expansion.charsAll mode below)⟩ ∈
      Expansion.inside mode o below := by
    rw [Expansion.inside, Formatting.listClause, if_neg hcharsAll]
    exact List.mem_append_right _ List.mem_cons_self
  have hclause :=
    (Text.infix_intercalate [';'] (List.mem_map_of_mem (f := Clause.chars) hmem)).length_le
  rw [Expansion.chars_node, Expansion.withClauses, if_neg (List.ne_nil_of_mem hmem)]
  simp only [Clause.chars, Filter.parenthesized, List.length_append, List.length_cons] at hclause ⊢
  omega

theorem mapM_map_eq_some {α β : Type} {text : α → β} {read : β → Option α} {l : List α}
    (h : ∀ x ∈ l, read (text x) = some x) : (l.map text).mapM read = some l := by
  induction l with
  | nil => rfl
  | cons x l ih =>
    obtain ⟨hx, hl⟩ := List.forall_mem_cons.1 h
    rw [List.map_cons, List.mapM_cons, hx, ih hl]
    rfl

theorem readItems?_chars {depth : Nat} {forest : List Expansion} (hne : forest ≠ [])
    (h : ∀ e ∈ forest, e.HasNames mode)
    (hd : (Formatting.commaSeparated (forest.map (Expansion.chars mode))).length < depth) :
    readItems? depth (Formatting.commaSeparated (forest.map (Expansion.chars mode))) =
      some forest := by
  induction depth generalizing forest with
  | zero => contradiction
  | succ depth ih =>
    have hwhole : ∀ cs ∈ forest.map (Expansion.chars mode), Text.Whole ',' 0 cs :=
      List.forall_mem_map.2 fun e he ↦ (h e he).whole_chars (by decide)
    rw [readItems?, Formatting.commaSeparated,
      Text.outerPieces_intercalate (mt List.map_eq_nil_iff.1 hne) hwhole]
    refine mapM_map_eq_some fun e he ↦ ?_
    have hitem : (e.chars mode).length ≤ depth :=
      Nat.le_trans (Text.infix_intercalate [','] (List.mem_map_of_mem he)).length_le
        (Nat.le_of_lt_succ hd)
    cases h e he with
    | @node name options below hname hoptions hbelow =>
      refine readItem?_chars hname hoptions hbelow fun hinner ↦ ?_
      have hshort := length_charsAll_lt mode name options hinner
      rw [Expansion.charsAll_eq_map] at hshort ⊢
      exact ih hinner hbelow (Nat.lt_of_lt_of_le hshort hitem)

theorem readExpand?_chars {forest : List Expansion} (hne : forest ≠ [])
    (h : ∀ e ∈ forest, e.HasNames mode) :
    readExpand? (Formatting.commaSeparated (forest.map (Expansion.chars mode))) = some forest :=
  readItems?_chars hne h (Nat.lt_succ_self _)

end

namespace Formatting

variable {f : Formatting} {collection : Option String} {es : List Expand}

/-- What is expanded in the newer dialect reads back: each path as a chain of its navigations, and all
options at the last of them. -/
theorem readExpand?_of_expandClause (hv : f.version = .v4) (hm : f.escapeMode = .canonical)
    {clauses : List Clause} {fields : List (List Char)}
    (h : f.expandClause collection es = .ok (clauses, fields))
    (hn : ∀ forest, f.expansions collection es = .ok forest →
      ∀ e ∈ forest, e.HasNames .canonical) :
    ∃ forest, f.expansions collection es = .ok forest ∧ fields = [] ∧
      (es = [] → clauses = []) ∧
      (es ≠ [] → ∃ text, clauses = [⟨"$expand".toList, text⟩] ∧
        readExpand? text = some forest) := by
  rw [expandClause_v4 hv, hm] at h
  obtain ⟨forest, hforest, h⟩ := Except.map_eq_ok.1 h
  obtain ⟨rfl, rfl⟩ := Prod.mk.inj h
  refine ⟨forest, hforest, rfl, ?_, fun hne ↦ ?_⟩
  · rintro rfl
    obtain rfl := Except.ok.inj hforest
    rfl
  · have hsome : forest ≠ [] := by
      rintro rfl
      rw [expansions_eq_mapM, Except.mapM_eq_ok, List.forall₂_nil_right_iff] at hforest
      exact hne hforest
    exact ⟨_, if_neg (mt List.map_eq_nil_iff.1 hsome),
      readExpand?_chars hsome (hn forest hforest)⟩

/-- A service with products, their categories and their suppliers. -/
def market : Formatting where
  resolver :=
    (Schema.mk "NS"
      [⟨"Products", [("Name", .string), ("Price", .other)],
          [⟨"Category", "Categories", false⟩, ⟨"Supplier", "Suppliers", false⟩]⟩,
        ⟨"Categories", [("Title", .string)], [⟨"Products", "Products", true⟩]⟩,
        ⟨"Suppliers", [("City", .string)], []⟩] []).resolver
  version := .v4

/-- Every option at once, behind a path of two navigations and above another one. -/
def wares : List Expand :=
  [.node "category.products"
      { select := ["name.length", "*"]
        filter := some ((Expr.literal (.string ");,(")).contains (.reference "Name"))
        orderBy := [("name", .descending), ("price", .ascending)]
        top := some 2 }
      [.node "supplier" { select := ["city"] } []],
    .node "supplier" {} []]

def waresText : String :=
  "Category($expand=Products($select=length(Name),*;" ++
    "$filter=contains%28%27%29%3B%2C%28%27%2CName%29;$orderby=Name desc,Price;$top=2;" ++
    "$expand=Supplier($select=City))),Supplier"

def waresForest : List Expansion :=
  [.node "Category".toList {}
      [.node "Products".toList
        { select := ["length(Name)".toList, ['*']]
          filter := some "contains(');,(',Name)".toList
          orderBy := [("Name".toList, .descending), ("Price".toList, .ascending)]
          top := some 2 }
        [.node "Supplier".toList { select := ["City".toList] } []]],
    .node "Supplier".toList {} []]

theorem readExpand?_of_expandClause_wares :
    market.version = .v4 ∧ market.escapeMode = .canonical ∧ wares ≠ [] ∧
      market.expandClause (some "Products") wares =
        .ok ([⟨"$expand".toList, waresText.toList⟩], []) ∧
      market.expansions (some "Products") wares = .ok waresForest ∧
      (∀ e ∈ waresForest, e.HasNames .canonical) ∧
      readExpand? waresText.toList = some waresForest := by
  have hforest : market.expansions (some "Products") wares = .ok waresForest := by
    rfl
  have hclause : market.expandClause (some "Products") wares =
      .ok ([⟨"$expand".toList, waresText.toList⟩], []) := by
    rw [expandClause_v4 rfl, hforest]
    decide +kernel
  have hlength : IsPropertyText ("length".toList ++ Filter.parenthesized "Name".toList) :=
    .call rfl (.name rfl)
  have hnone : ExactOptions.HasNames .canonical {} := ⟨nofun, nofun, nofun⟩
  have hcity : ExactOptions.HasNames .canonical { select := ["City".toList] } :=
    ⟨List.forall_mem_singleton.2 (.inr (.name rfl)), nofun, nofun⟩
  have hnames : ∀ e ∈ waresForest, e.HasNames .canonical := by
    refine List.forall_mem_cons.2 ⟨.node rfl hnone (List.forall_mem_singleton.2 (.node rfl
      ⟨?_, fun _ ↦ rfl, ?_⟩ (List.forall_mem_singleton.2 (.node rfl hcity nofun)))),
      List.forall_mem_singleton.2 (.node rfl hnone nofun)⟩
    · exact List.forall_mem_cons.2 ⟨.inr hlength, List.forall_mem_singleton.2 (.inl rfl)⟩
    · exact List.forall_mem_cons.2 ⟨.name rfl, List.forall_mem_singleton.2 (.name rfl)⟩
  obtain ⟨forest, hexpansions, -, -, hsome⟩ :=
    readExpand?_of_expandClause rfl rfl hclause
      fun forest h ↦ Except.ok.inj (hforest.symm.trans h) ▸ hnames
  obtain rfl := Except.ok.inj (hforest.symm.trans hexpansions)
  obtain ⟨text, hclauses, hread⟩ := hsome (List.cons_ne_nil _ _)
  obtain rfl := (Clause.mk.inj (List.cons.inj hclauses).1).2
  exact ⟨rfl, rfl, List.cons_ne_nil _ _, hclause, hforest, hnames, hread⟩

end Formatting

end OData
