import OData.Proofs.Address.Parts
import OData.Proofs.Text.Percent

/-!
Where the marks in a query come from. Beside the marks that put clauses together, only names, paths and
raw options can bring any; a text that is escaped has none.
-/

namespace OData

/-- Marks that a query has only between clauses, or not at all. -/
def breakMarks : List Char :=
  ['&', '#', '\r', '\n']

theorem eq_of_mem_breakMarks {x : Char} (hx : x ∈ breakMarks) :
    x = '&' ∨ x = '#' ∨ x = '\r' ∨ x = '\n' := by
  simpa [breakMarks] using hx

theorem mem_addressMarks {x : Char} (hx : x ∈ breakMarks) : x ∈ Text.addressMarks := by
  rcases eq_of_mem_breakMarks hx with rfl | rfl | rfl | rfl <;> decide

theorem ne_of_mem_breakMarks {x d : Char} (hx : x ∈ breakMarks) (hd : d ∉ breakMarks) : x ≠ d := by
  rintro rfl
  exact hd hx

theorem not_mem_of_all {x : Char} (hx : x ∈ breakMarks) {cs : List Char}
    (h : cs.all (· ∉ breakMarks)) : x ∉ cs :=
  fun hmem ↦ of_decide_eq_true (List.all_eq_true.1 h x hmem) hx

theorem isDigit_eq_false {x : Char} (hx : x ∈ breakMarks) : x.isDigit = false := by
  rcases eq_of_mem_breakMarks hx with rfl | rfl | rfl | rfl <;> rfl

theorem not_mem_intercalate {x d : Char} (hxd : x ≠ d) {texts : List (List Char)}
    (h : ∀ cs ∈ texts, x ∉ cs) : x ∉ List.intercalate [d] texts := by
  intro hmem
  rcases Text.mem_of_mem_intercalate hmem with hx | ⟨cs, hcs, hx⟩
  · exact hxd hx
  · exact h cs hcs hx

/-- The names that clauses have by themselves. -/
def ownNames : List String :=
  ["$filter", "$search", "$skip", "$top", "$expand", "$select", "$orderby"]

theorem not_mem_ownNames {x : Char} (hx : x ∈ breakMarks) {name : String} (h : name ∈ ownNames) :
    x ∉ name.toList := by
  have hnames : ∀ name ∈ ownNames, name.toList.all (· ∉ breakMarks) := by decide
  exact not_mem_of_all hx (hnames name h)

namespace Formatting

variable (f : Formatting)

/-- Expanded navigations whose own names, and those of properties listed below them, avoid a mark. -/
inductive ExpandAvoids (x : Char) : Option String → Expand → Prop
  | node {collection target : Option String} {path : String} {options : ExpandOptions}
    {nested : List Expand} {segments : List (List Char)}
    (h : f.navigationPath collection (pathSegments path) = .ok (segments, target))
    (hsegments : ∀ segment ∈ segments, x ∉ segment)
    (hselect : ∀ path ∈ options.select, ∀ cs, f.resolve target path = .ok cs → x ∉ cs)
    (horder : ∀ item ∈ options.orderBy, ∀ cs, f.resolve target item.1 = .ok cs → x ∉ cs)
    (hnested : ∀ e ∈ nested, ExpandAvoids x target e) :
    ExpandAvoids x collection (.node path options nested)

/-- The texts that stand in a query as they are avoid a mark. -/
structure NamesAvoid (x : Char) (collection : Option String) (c : Clauses) : Prop where
  options : ∀ option ∈ c.queryOptions, x ∉ option.1.toList ∧ x ∉ option.2.toList
  expressions : ∀ option ∈ c.expressionOptions, x ∉ option.1.toList
  arguments : ∀ i ∈ c.function, ∀ argument ∈ i.arguments, x ∉ argument.1.toList
  select : ∀ path ∈ c.select, ∀ cs, f.resolve collection path = .ok cs → x ∉ cs
  orderBy : ∀ item ∈ c.orderBy, ∀ cs, f.resolve collection item.1 = .ok cs → x ∉ cs
  expand : ∀ e ∈ c.expand, f.ExpandAvoids x collection e

/-- The texts that clauses list. -/
inductive Listed (collection : Option String) (c : Clauses) : List Char → Prop
  | selected {path : String} {text : List Char} (h : path ∈ c.select)
    (ht : f.selected collection path = .ok text) : Listed collection c text
  | ordered {item : String × Direction} {text : List Char} (h : item ∈ c.orderBy)
    (ht : f.ordered collection item = .ok text) : Listed collection c text
  | nested {e : Expand} {text : List Char} (h : e ∈ c.expand)
    (ht : f.nestedExpand collection e = .ok text) : Listed collection c text
  | flat {answer : List (List Char) × List (List Char)} {text : List Char}
    (ha : f.flatExpands collection [] c.expand = .ok answer)
    (ht : text ∈ answer.1 ∨ text ∈ answer.2) : Listed collection c text

/-- What a clause of a query can be. -/
inductive IsClause (collection : Option String) (c : Clauses) : Clause → Prop
  | argument {i : Invocation} {argument : String × Value} (hi : i ∈ c.function)
    (ha : argument ∈ i.arguments) (text : List Char) :
    IsClause collection c ⟨argument.1.toList, f.escaped text⟩
  | bound (n : Nat) (text : List Char) : IsClause collection c ⟨parameterAlias n, f.escaped text⟩
  | escaped {name : String} (h : name ∈ ownNames) (text : List Char) :
    IsClause collection c ⟨name.toList, f.escaped text⟩
  | option {option : String × String} (h : option ∈ c.queryOptions) :
    IsClause collection c (optionClause option)
  | expression {option : String × Expr} (h : option ∈ c.expressionOptions) (text : List Char) :
    IsClause collection c ⟨option.1.toList, f.escaped text⟩
  | number {name : String} (h : name ∈ ownNames) (n : Nat) :
    IsClause collection c ⟨name.toList, Text.decimal n⟩
  | listed {name : String} (h : name ∈ ownNames)
    {items : List (List Char)} (hi : ∀ cs ∈ items, f.Listed collection c cs) :
    IsClause collection c ⟨name.toList, commaSeparated items⟩
  | count {clause : Clause} (h : clause ∈ f.countClause c.count) : IsClause collection c clause

/-- A property of every clause that is no argument of a function, whatever the clause says. -/
structure EveryOption (collection : Option String) (c : Clauses) (P : Clause → Prop) : Prop where
  escaped : ∀ name ∈ ownNames, ∀ text, P ⟨name.toList, f.escaped text⟩
  option : ∀ option ∈ c.queryOptions, P (optionClause option)
  expression : ∀ option ∈ c.expressionOptions, ∀ text, P ⟨option.1.toList, f.escaped text⟩
  number : ∀ name ∈ ownNames, ∀ n, P ⟨name.toList, Text.decimal n⟩
  listed : ∀ name ∈ ownNames, ∀ items, (∀ cs ∈ items, f.Listed collection c cs) →
    P ⟨name.toList, commaSeparated items⟩
  count : ∀ clause ∈ f.countClause c.count, P clause

variable {f} {collection : Option String}

namespace EveryOption

variable {c : Clauses} {P : Clause → Prop} {clauses : List Clause}

theorem numberClause (h : f.EveryOption collection c P) {name : String} (hname : name ∈ ownNames)
    (n : Option Nat) : ∀ clause ∈ Formatting.numberClause name n, P clause := by
  cases n with
  | none => simp [Formatting.numberClause]
  | some n => exact List.forall_mem_singleton.2 (h.number name hname n)

theorem listClause (h : f.EveryOption collection c P) {name : String} (hname : name ∈ ownNames)
    {items : List (List Char)} (hi : ∀ cs ∈ items, f.Listed collection c cs) :
    ∀ clause ∈ Formatting.listClause name items, P clause := by
  unfold Formatting.listClause
  split
  · simp
  · exact List.forall_mem_singleton.2 (h.listed name hname items hi)

theorem expandClause (h : f.EveryOption collection c P) {fields : List (List Char)}
    (he : f.expandClause collection c.expand = .ok (clauses, fields)) :
    (∀ clause ∈ clauses, P clause) ∧ ∀ cs ∈ fields, f.Listed collection c cs := by
  unfold Formatting.expandClause at he
  split at he
  · obtain ⟨rfl, rfl⟩ := Prod.mk.inj (Except.ok.inj he)
    simp
  · have hname : "$expand" ∈ ownNames := by decide
    cases hv : f.version with
    | v4 =>
      simp only [hv] at he
      obtain ⟨items, hitems, he⟩ := Except.bind_eq_ok.1 he
      obtain ⟨rfl, rfl⟩ := Prod.mk.inj (Except.ok.inj he)
      rw [nestedExpands_eq_mapM] at hitems
      have hlisted : ∀ cs ∈ items, f.Listed collection c cs :=
        Except.forall_of_mapM (fun e he _ ht ↦ .nested he ht) hitems
      exact ⟨List.forall_mem_singleton.2 (h.listed _ hname items hlisted), by simp⟩
    | v3 =>
      simp only [hv] at he
      obtain ⟨⟨paths, more⟩, hpaths, he⟩ := Except.bind_eq_ok.1 he
      obtain ⟨rfl, rfl⟩ := Prod.mk.inj (Except.ok.inj he)
      have hlisted : ∀ cs ∈ paths, f.Listed collection c cs :=
        fun cs hcs ↦ .flat hpaths (.inl hcs)
      exact ⟨List.forall_mem_singleton.2 (h.listed _ hname paths hlisted),
        fun cs hcs ↦ .flat hpaths (.inr hcs)⟩

theorem filterClause (h : f.EveryOption collection c P)
    (hf : f.filterClause collection c.filter = .ok clauses) : ∀ clause ∈ clauses, P clause := by
  cases hfilter : c.filter with
  | none =>
    rw [hfilter] at hf
    obtain rfl := Except.ok.inj hf
    simp
  | some e =>
    rw [hfilter] at hf
    obtain ⟨text, -, rfl⟩ := filterClause_some_eq_ok hf
    split
    · simp
    · exact List.forall_mem_singleton.2 (h.escaped _ (by decide) text)

theorem searchClause (h : f.EveryOption collection c P) :
    ∀ clause ∈ f.searchClause c.search, P clause := by
  unfold Formatting.searchClause
  split
  · split
    · simp
    · exact List.forall_mem_singleton.2 (h.escaped _ (by decide) _)
  · simp

theorem of_clauses (h : f.EveryOption collection c P) (hc : f.clauses collection c = .ok clauses) :
    ∀ clause ∈ clauses, P clause := by
  obtain ⟨filter, expressions, select, expand, fields, orderBy, hfilter, hexpressions, hselect,
    hexpand, horder, rfl⟩ := clauses_eq_ok hc
  have hoptions : ∀ clause ∈ c.queryOptions.map optionClause, P clause := by
    intro clause hclause
    obtain ⟨option, hoption, rfl⟩ := List.mem_map.1 hclause
    exact h.option option hoption
  have hexpressions' : ∀ clause ∈ expressions, P clause := by
    refine Except.forall_of_mapM (fun option hmem clause hclause ↦ ?_) hexpressions
    obtain ⟨text, -, rfl⟩ := expressionClause_eq_ok hclause
    exact h.expression option hmem text
  have hselect' : ∀ cs ∈ select, f.Listed collection c cs :=
    Except.forall_of_mapM (fun _ hpath _ ht ↦ .selected hpath ht) hselect
  have horder' : ∀ cs ∈ orderBy, f.Listed collection c cs :=
    Except.forall_of_mapM (fun _ hitem _ ht ↦ .ordered hitem ht) horder
  obtain ⟨hexpand', hfields⟩ := h.expandClause hexpand
  have hfields' := List.forall_mem_append.2 ⟨hselect', hfields⟩
  simp only [List.forall_mem_append]
  exact ⟨⟨⟨⟨⟨⟨⟨⟨⟨h.filterClause hfilter, h.searchClause⟩, hoptions⟩, hexpressions'⟩,
    h.numberClause (by decide) _⟩, h.numberClause (by decide) _⟩, hexpand'⟩,
    h.listClause (by decide) hfields'⟩, h.listClause (by decide) horder'⟩, h.count⟩

end EveryOption

theorem everyOption_isClause (c : Clauses) :
    f.EveryOption collection c (f.IsClause collection c) where
  escaped _ h text := .escaped h text
  option _ h := .option h
  expression _ h text := .expression h text
  number _ h n := .number h n
  listed _ h _ hi := .listed h hi
  count _ h := .count h

theorem isClause_pathArguments (c : Clauses) {arguments : List (String × Value)} {used : Nat}
    {inline bound : List Clause} (h : f.pathArguments used arguments = .ok (inline, bound)) :
    ∀ clause ∈ bound, f.IsClause collection c clause := by
  induction arguments generalizing used inline bound with
  | nil =>
    obtain ⟨-, rfl⟩ := Prod.mk.inj (Except.ok.inj h)
    simp
  | cons argument rest ih =>
    obtain ⟨text, inline', bound', -, h⟩ := pathArguments_cons_eq_ok h
    rcases h with ⟨-, hrest, -, rfl⟩ | ⟨-, hrest, -, rfl⟩
    · exact List.forall_mem_cons.2 ⟨.bound (used + 1) text, ih hrest⟩
    · exact ih hrest

theorem isClause_of_withFunction {c : Clauses} {bound : Bool} {path path' : List Char}
    {arguments : List Clause} (h : f.withFunction bound path c.function = .ok (path', arguments)) :
    ∀ clause ∈ arguments, f.IsClause collection c clause := by
  cases hi : c.function with
  | none =>
    rw [hi] at h
    obtain ⟨-, rfl⟩ := Prod.mk.inj (Except.ok.inj h)
    simp
  | some i =>
    rw [hi] at h
    obtain ⟨name, -, h⟩ := withFunction_some_eq_ok h
    rcases h with ⟨-, h, -⟩ | ⟨-, inline, h, -⟩
    · refine Except.forall_of_mapM (fun argument hmem clause hclause ↦ ?_) h
      obtain ⟨text, -, rfl⟩ := queryArgument_eq_ok hclause
      exact .argument hi hmem text
    · exact isClause_pathArguments c h

/-- The clauses of an address are what the clauses of its command say. -/
theorem isClause_of_address {command : Command} {a : Address} (h : f.address command = .ok a) :
    ∃ r, f.resource command = .ok r ∧
      ∀ clause ∈ a.query, f.IsClause r.collection command.clauses clause := by
  obtain ⟨r, path, path', arguments, clauses, hr, hfunction, -, hclauses, rfl⟩ := address_eq_ok h
  exact ⟨r, hr, List.forall_mem_append.2
    ⟨isClause_of_withFunction hfunction, (everyOption_isClause _).of_clauses hclauses⟩⟩

theorem not_mem_decimal {x : Char} (hx : x.isDigit = false) (n : Nat) : x ∉ Text.decimal n := by
  intro h
  have hdigit := Nat.isDigit_of_mem_toDigits (by decide) (by decide) h
  rw [hx] at hdigit
  contradiction

/-- Paths and fields without a mark. -/
def PathsAvoid (x : Char) (answer : List (List Char) × List (List Char)) : Prop :=
  (∀ cs ∈ answer.1, x ∉ cs) ∧ ∀ cs ∈ answer.2, x ∉ cs

theorem pathsAvoid_flatExpands {x : Char} {es : List Expand} {above : List Char}
    {answer : List (List Char) × List (List Char)}
    (hes : ∀ e ∈ es, ∀ answer, f.flatExpand collection above e = .ok answer → PathsAvoid x answer)
    (h : f.flatExpands collection above es = .ok answer) : PathsAvoid x answer := by
  induction es generalizing answer with
  | nil =>
    obtain rfl := Except.ok.inj h
    simp [PathsAvoid]
  | cons e es ih =>
    obtain ⟨he, hrest⟩ := List.forall_mem_cons.1 hes
    rw [flatExpands] at h
    obtain ⟨first, hfirst, h⟩ := Except.bind_eq_ok.1 h
    obtain ⟨others, hothers, h⟩ := Except.bind_eq_ok.1 h
    obtain rfl := Except.ok.inj h
    have havoids := he first hfirst
    have hothers := ih hrest hothers
    exact ⟨List.forall_mem_append.2 ⟨havoids.1, hothers.1⟩,
      List.forall_mem_append.2 ⟨havoids.2, hothers.2⟩⟩

section

variable {x : Char} (hx : x ∈ breakMarks)

include hx

theorem not_mem_escaped (text : List Char) : x ∉ f.escaped text :=
  Text.not_mem_escapeChars (mem_addressMarks hx) f.escapeMode text

theorem not_mem_chars {c : Clause} (hn : x ∉ c.name) (hv : x ∉ c.value) : x ∉ c.chars := by
  have hne : x ≠ '=' := ne_of_mem_breakMarks hx (by decide)
  simp [Clause.chars, hn, hv, hne]

theorem not_mem_commaSeparated {items : List (List Char)} (h : ∀ cs ∈ items, x ∉ cs) :
    x ∉ commaSeparated items :=
  not_mem_intercalate (ne_of_mem_breakMarks hx (by decide)) h

theorem not_mem_parenthesized {cs : List Char} (h : x ∉ cs) : x ∉ Filter.parenthesized cs := by
  have hbrackets : x ∉ ['(', ')'] := not_mem_of_all hx (by decide)
  simp only [List.mem_cons, List.not_mem_nil, or_false, not_or] at hbrackets
  simp [Filter.parenthesized, h, hbrackets]

theorem not_mem_selected {path : String} {cs : List Char}
    (hp : ∀ cs, f.resolve collection path = .ok cs → x ∉ cs)
    (h : f.selected collection path = .ok cs) : x ∉ cs := by
  rw [selected] at h
  split at h
  · obtain rfl := Except.ok.inj h
    exact not_mem_of_all hx (by decide)
  · exact hp cs h

theorem not_mem_ordered {item : String × Direction} {cs : List Char}
    (hp : ∀ cs, f.resolve collection item.1 = .ok cs → x ∉ cs)
    (h : f.ordered collection item = .ok cs) : x ∉ cs := by
  obtain ⟨path, hpath, h⟩ := Except.bind_eq_ok.1 h
  have hnot := hp path hpath
  have hdesc : x ∉ " desc".toList := not_mem_of_all hx (by decide)
  obtain rfl := Except.ok.inj h
  split
  · exact hnot
  · rw [List.mem_append]
    exact not_or.2 ⟨hnot, hdesc⟩

theorem not_mem_listClause {name : String} (hn : name ∈ ownNames) {items : List (List Char)}
    (hi : ∀ cs ∈ items, x ∉ cs) : ∀ c ∈ listClause name items, x ∉ c.chars := by
  unfold listClause
  split
  · simp
  · exact List.forall_mem_singleton.2
      (not_mem_chars hx (not_mem_ownNames hx hn) (not_mem_commaSeparated hx hi))

theorem not_mem_filterOption {target : Option String} {e? : Option Expr} {clauses : List Clause}
    (h : f.filterOption target e? = .ok clauses) : ∀ c ∈ clauses, x ∉ c.chars := by
  cases e? with
  | none =>
    obtain rfl := Except.ok.inj h
    simp
  | some e =>
    obtain ⟨text, -, rfl⟩ := Except.map_eq_ok.1 h
    exact List.forall_mem_singleton.2
      (not_mem_chars hx (not_mem_ownNames hx (by decide)) (not_mem_escaped hx text))

theorem not_mem_numberClause {name : String} (hn : name ∈ ownNames) (n : Option Nat) :
    ∀ c ∈ numberClause name n, x ∉ c.chars := by
  cases n with
  | none => simp [numberClause]
  | some n =>
    exact List.forall_mem_singleton.2
      (not_mem_chars hx (not_mem_ownNames hx hn) (not_mem_decimal (isDigit_eq_false hx) n))

theorem not_mem_expandOptions {target : Option String} {o : ExpandOptions} {clauses : List Clause}
    (hs : ∀ path ∈ o.select, ∀ cs, f.resolve target path = .ok cs → x ∉ cs)
    (ho : ∀ item ∈ o.orderBy, ∀ cs, f.resolve target item.1 = .ok cs → x ∉ cs)
    (h : f.expandOptions target o = .ok clauses) : ∀ c ∈ clauses, x ∉ c.chars := by
  obtain ⟨select, filter, orderBy, hselect, hfilter, horder, rfl⟩ := expandOptions_eq_ok h
  have hselect' : ∀ cs ∈ select, x ∉ cs :=
    Except.forall_of_mapM (fun path hpath _ ↦ not_mem_selected hx (hs path hpath)) hselect
  have horder' : ∀ cs ∈ orderBy, x ∉ cs :=
    Except.forall_of_mapM (fun item hitem _ ↦ not_mem_ordered hx (ho item hitem)) horder
  simp only [List.forall_mem_append]
  exact ⟨⟨⟨not_mem_listClause hx (by decide) hselect', not_mem_filterOption hx hfilter⟩,
    not_mem_listClause hx (by decide) horder'⟩, not_mem_numberClause hx (by decide) o.top⟩

theorem not_mem_nestedSegments {options : List Clause} {segments : List (List Char)}
    {text : List Char} (ho : ∀ c ∈ options, x ∉ c.chars)
    (hs : ∀ segment ∈ segments, x ∉ segment)
    (h : nestedSegments options segments = .ok text) : x ∉ text := by
  induction segments generalizing text with
  | nil => contradiction
  | cons segment rest ih =>
    obtain ⟨hsegment, hrest⟩ := List.forall_mem_cons.1 hs
    have hbehind {cs : List Char} (h : x ∉ cs) : x ∉ segment ++ Filter.parenthesized cs := by
      rw [List.mem_append]
      exact not_or.2 ⟨hsegment, not_mem_parenthesized hx h⟩
    cases rest with
    | nil =>
      obtain rfl := Except.ok.inj h
      split
      · exact hsegment
      · refine hbehind (not_mem_intercalate (ne_of_mem_breakMarks hx (by decide)) ?_)
        exact List.forall_mem_map.2 ho
    | cons next rest =>
      obtain ⟨inner, hinner, h⟩ := Except.bind_eq_ok.1 h
      obtain rfl := Except.ok.inj h
      exact hbehind (not_mem_chars hx (not_mem_ownNames hx (by decide)) (ih hrest hinner))

theorem ExpandAvoids.not_mem_nestedExpand {e : Expand} (he : f.ExpandAvoids x collection e)
    {text : List Char} (h : f.nestedExpand collection e = .ok text) : x ∉ text := by
  -- The evidence says at every depth which collection the names below belong to.
  induction he generalizing text with
  | node hpath hsegments hselect horder _ ih =>
    obtain ⟨segments, target, clauses, below, hpath', hclauses, hbelow, h⟩ := nestedExpand_eq_ok h
    obtain ⟨rfl, rfl⟩ := Prod.mk.inj (Except.ok.inj (hpath.symm.trans hpath'))
    rw [nestedExpands_eq_mapM] at hbelow
    have htexts := Except.forall_of_mapM (fun e he _ ↦ ih e he) hbelow
    refine not_mem_nestedSegments hx ?_ hsegments h
    exact List.forall_mem_append.2 ⟨not_mem_expandOptions hx hselect horder hclauses,
      not_mem_listClause hx (by decide) htexts⟩

theorem not_mem_flatPath {above : List Char} {segments : List (List Char)} (ha : x ∉ above)
    (hs : ∀ segment ∈ segments, x ∉ segment) : x ∉ flatPath above segments := by
  have hslash : x ≠ '/' := ne_of_mem_breakMarks hx (by decide)
  have hown := not_mem_intercalate hslash hs
  unfold flatPath
  split
  · exact hown
  · simp [ha, hslash, hown]

theorem ExpandAvoids.pathsAvoid {e : Expand} (he : f.ExpandAvoids x collection e)
    {above : List Char} (ha : x ∉ above) {answer : List (List Char) × List (List Char)}
    (h : f.flatExpand collection above e = .ok answer) : PathsAvoid x answer := by
  induction he generalizing above answer with
  | node hpath hsegments hselect _ _ ih =>
    obtain ⟨segments, target, selected, below, hpath', hselected, hbelow, rfl⟩ := flatExpand_eq_ok h
    obtain ⟨rfl, rfl⟩ := Prod.mk.inj (Except.ok.inj (hpath.symm.trans hpath'))
    have hown := not_mem_flatPath hx ha hsegments
    have hslash : x ≠ '/' := ne_of_mem_breakMarks hx (by decide)
    have hfields : ∀ cs ∈ selected, x ∉ cs :=
      Except.forall_of_mapM (fun path hpath _ ↦ not_mem_selected hx (hselect path hpath)) hselected
    have hbelow' : PathsAvoid x below := by
      rw [flatBelow] at hbelow
      split at hbelow
      · obtain rfl := Except.ok.inj hbelow
        simp [PathsAvoid, hown]
      · exact pathsAvoid_flatExpands (fun e he _ ↦ ih e he hown) hbelow
    refine ⟨hbelow'.1, List.forall_mem_append.2 ⟨List.forall_mem_map.2 fun field hfield ↦ ?_,
      hbelow'.2⟩⟩
    simp [hown, hslash, hfields field hfield]

theorem Listed.not_mem {c : Clauses} (hn : f.NamesAvoid x collection c) {text : List Char}
    (h : f.Listed collection c text) : x ∉ text := by
  cases h with
  | @selected path _ h ht => exact not_mem_selected hx (hn.select path h) ht
  | @ordered item _ h ht => exact not_mem_ordered hx (hn.orderBy item h) ht
  | @nested e _ h ht => exact (hn.expand e h).not_mem_nestedExpand hx ht
  | flat ha ht =>
    have havoids := pathsAvoid_flatExpands
      (fun e he _ ↦ (hn.expand e he).pathsAvoid hx List.not_mem_nil) ha
    exact ht.elim (havoids.1 text) (havoids.2 text)

theorem not_mem_countClause (count : CountMode) : ∀ c ∈ f.countClause count, x ∉ c.chars := by
  unfold countClause
  split
  · split
    · exact List.forall_mem_singleton.2 (not_mem_of_all hx (by decide))
    · exact List.forall_mem_singleton.2 (not_mem_of_all hx (by decide))
  · simp

/-- A clause has a mark only from a name, a path or a raw option. -/
theorem IsClause.not_mem {c : Clauses} (hn : f.NamesAvoid x collection c) {clause : Clause}
    (h : f.IsClause collection c clause) : x ∉ clause.chars := by
  cases h with
  | @argument i argument hi ha text =>
    exact not_mem_chars hx (hn.arguments i hi argument ha) (not_mem_escaped hx text)
  | bound n text =>
    have hname : x ∉ parameterAlias n := by
      have hat : x ≠ '@' := ne_of_mem_breakMarks hx (by decide)
      have hp : x ≠ 'p' := ne_of_mem_breakMarks hx (by decide)
      simp [parameterAlias, hat, hp, not_mem_decimal (isDigit_eq_false hx)]
    exact not_mem_chars hx hname (not_mem_escaped hx text)
  | @escaped name h text =>
    exact not_mem_chars hx (not_mem_ownNames hx h) (not_mem_escaped hx text)
  | @option option h => exact not_mem_chars hx (hn.options option h).1 (hn.options option h).2
  | @expression option h text =>
    exact not_mem_chars hx (hn.expressions option h) (not_mem_escaped hx text)
  | @number name h n =>
    exact not_mem_chars hx (not_mem_ownNames hx h) (not_mem_decimal (isDigit_eq_false hx) n)
  | @listed name h items hi =>
    exact not_mem_chars hx (not_mem_ownNames hx h)
      (not_mem_commaSeparated hx fun cs hcs ↦ (hi cs hcs).not_mem hx hn)
  | count h => exact not_mem_countClause hx c.count clause h

theorem not_mem_address (hne : x ≠ '&') {command : Command} {a : Address}
    (h : f.address command = .ok a) (hp : x ∉ a.path)
    (hn : ∀ r, f.resource command = .ok r → f.NamesAvoid x r.collection command.clauses) :
    x ∉ a.chars := by
  obtain ⟨r, hr, hclause⟩ := isClause_of_address h
  have hquery : x ∉ List.intercalate ['&'] (a.query.map Clause.chars) :=
    not_mem_intercalate hne
      (List.forall_mem_map.2 fun c hc ↦ (hclause c hc).not_mem hx (hn r hr))
  have hquestion : x ≠ '?' := ne_of_mem_breakMarks hx (by decide)
  unfold Address.chars
  split
  · exact hp
  · simp [hp, hquestion, hquery]

end

end Formatting
end OData
