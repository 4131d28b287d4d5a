import OData.Proofs.Address.Marks
import OData.Proofs.Text.Trimmed
import OData.Schema.Basic

/-!
Queries read back. A query is cut at its ampersands, and each piece at its first equals sign; what comes
out are the clauses of the command in their order. Texts that the command does not restrict are escaped,
so nothing in them can be taken for a mark of the query.
-/

namespace OData

namespace Clause

/-- A piece of a query, cut at its first equals sign. -/
def ofChars (cs : List Char) : Clause :=
  match Text.cutWhere? (· = '=') cs with
  | some (name, value) => ⟨name, value⟩
  | none => ⟨cs, []⟩

/-- The value decodes to a text. -/
structure Encodes (c : Clause) (name text : List Char) : Prop where
  name_eq : c.name = name
  decoded : Text.unescape? c.value = some text

theorem ofChars_chars {c : Clause} (h : '=' ∉ c.name) : ofChars c.chars = c := by
  have hcut : Text.cutWhere? (· = '=') c.chars = some (c.name, c.value) := by
    refine Text.cutWhere?_append (fun d hd ↦ ?_) rfl
    exact decide_eq_false fun hd' ↦ h (hd' ▸ hd)
  rw [ofChars, hcut]

theorem encodes_escapeChars (mode : Text.EscapeMode) (name text : List Char) :
    Encodes ⟨name, Text.escapeChars mode text⟩ name text :=
  ⟨rfl, Text.unescape?_escapeChars mode text⟩

end Clause

/-- The clauses of a query. -/
def readQuery (cs : List Char) : List Clause :=
  (Text.pieces (· = '&') cs).map Clause.ofChars

theorem readQuery_chars {clauses : List Clause} (hne : clauses ≠ [])
    (hname : ∀ c ∈ clauses, '=' ∉ c.name) (hend : ∀ c ∈ clauses, '&' ∉ c.chars) :
    readQuery (List.intercalate ['&'] (clauses.map Clause.chars)) = clauses := by
  rw [readQuery, Text.pieces_intercalate (by rfl) (by simpa using hne), List.map_map]
  · exact List.map_congr_left (fun c hc ↦ Clause.ofChars_chars (hname c hc)) |>.trans
      (List.map_id _)
  · intro cs hcs d hd
    obtain ⟨c, hc, rfl⟩ := List.mem_map.1 hcs
    exact decide_eq_false fun hd' ↦ hend c hc (hd' ▸ hd)

/-- The clauses of a query by what they come from, in the order in which they stand. -/
structure QueryParts where
  arguments : List Clause
  filter : List Clause
  search : List Clause
  options : List Clause
  expressions : List Clause
  skip : List Clause
  top : List Clause
  expand : List Clause
  select : List Clause
  orderBy : List Clause
  count : List Clause

def QueryParts.all (p : QueryParts) : List Clause :=
  p.arguments ++ p.filter ++ p.search ++ p.options ++ p.expressions ++ p.skip ++ p.top ++ p.expand ++
    p.select ++ p.orderBy ++ p.count

namespace Formatting

variable (f : Formatting) (collection : Option String)

def EncodesLiteral (name : List Char) (v : Value) (c : Clause) : Prop :=
  ∃ text, f.literal v = .ok text ∧ c.Encodes name text

def EncodesFilter (name : List Char) (e : Expr) (c : Clause) : Prop :=
  ∃ text, f.filter collection e = .ok text ∧ c.Encodes name text

def EncodesUnlessEmpty (name : String) (text : List Char) (clauses : List Clause) : Prop :=
  if text = [] then clauses = []
  else ∃ clause, clauses = [clause] ∧ clause.Encodes name.toList text

/-- Of the arguments of a function the older dialect has all in the query, the newer one only the
collections, under the names given to them in turn. -/
def HasArguments (i? : Option Invocation) (clauses : List Clause) : Prop :=
  match i?, f.version with
  | none, _ => clauses = []
  | some i, .v3 =>
    List.Forall₂ (fun argument ↦ f.EncodesLiteral argument.1.toList argument.2) i.arguments clauses
  | some i, .v4 =>
    List.Forall₂ (fun place ↦ f.EncodesLiteral (parameterAlias place.2) place.1.2)
      ((i.arguments.filter (·.2.isCollection)).zipIdx 1) clauses

def HasFilter (e? : Option Expr) (clauses : List Clause) : Prop :=
  match e? with
  | none => clauses = []
  | some e => ∃ text, f.filter collection e = .ok text ∧ EncodesUnlessEmpty "$filter" text clauses

def HasSearch (terms? : Option String) (clauses : List Clause) : Prop :=
  match f.version, terms? with
  | .v4, some terms => EncodesUnlessEmpty "$search" terms.toList clauses
  | _, _ => clauses = []

/-- How the clauses of a query say what a command asks for. -/
structure HasQuery (c : Clauses) (p : QueryParts) : Prop where
  arguments : f.HasArguments c.function p.arguments
  filter : f.HasFilter collection c.filter p.filter
  search : f.HasSearch c.search p.search
  options : p.options = c.queryOptions.map optionClause
  expressions :
    List.Forall₂ (fun option ↦ f.EncodesFilter collection option.1.toList option.2)
      c.expressionOptions p.expressions
  skip : p.skip = (c.skip.map fun n ↦ ⟨"$skip".toList, Text.decimal n⟩).toList
  top : p.top = (c.top.map fun n ↦ ⟨"$top".toList, Text.decimal n⟩).toList
  select : ∃ selected fields, c.select.mapM (f.selected collection) = .ok selected ∧
    f.expandClause collection c.expand = .ok (p.expand, fields) ∧
    p.select = listClause "$select" (selected ++ fields)
  orderBy : ∃ items, c.orderBy.mapM (f.ordered collection) = .ok items ∧
    p.orderBy = listClause "$orderby" items
  count : p.count = f.countClause c.count

/-- What a command must take care of by itself: the texts that stand in the query as they are have no
ampersand, and names of clauses no equals sign. -/
structure PlainNames (c : Clauses) : Prop extends f.NamesAvoid '&' collection c where
  optionNames : ∀ option ∈ c.queryOptions, '=' ∉ option.1.toList
  expressionNames : ∀ option ∈ c.expressionOptions, '=' ∉ option.1.toList
  argumentNames : ∀ i ∈ c.function, ∀ argument ∈ i.arguments, '=' ∉ argument.1.toList

variable {f collection}

theorem IsClause.equals_not_mem {c : Clauses} (hn : f.PlainNames collection c) {clause : Clause}
    (h : f.IsClause collection c clause) : '=' ∉ clause.name := by
  have hown : ∀ name ∈ ownNames, '=' ∉ name.toList := by decide
  cases h with
  | @argument i argument hi ha => exact hn.argumentNames i hi argument ha
  | bound n => simp [parameterAlias, not_mem_decimal]
  | @option option h => exact hn.optionNames option h
  | @expression option h => exact hn.expressionNames option h
  | @escaped name h | @number name h | @listed name h => exact hown name h
  | count h =>
    have hcount : ∀ name ∈ ["$inlinecount", "$count"], '=' ∉ name.toList := by decide
    unfold countClause at h
    split at h
    · split at h
      · exact List.mem_singleton.1 h ▸ hcount _ (by decide)
      · exact List.mem_singleton.1 h ▸ hcount _ (by decide)
    · contradiction

theorem encodes_of_queryArgument {argument : String × Value} {c : Clause}
    (h : f.queryArgument argument = .ok c) : f.EncodesLiteral argument.1.toList argument.2 c := by
  obtain ⟨text, htext, rfl⟩ := queryArgument_eq_ok h
  exact ⟨text, htext, Clause.encodes_escapeChars ..⟩

theorem encodes_of_expressionClause {option : String × Expr} {c : Clause}
    (h : f.expressionClause collection option = .ok c) :
    f.EncodesFilter collection option.1.toList option.2 c := by
  obtain ⟨text, htext, rfl⟩ := expressionClause_eq_ok h
  exact ⟨text, htext, Clause.encodes_escapeChars ..⟩

theorem encodes_of_pathArguments {arguments : List (String × Value)} {used : Nat}
    {inline bound : List Clause} (h : f.pathArguments used arguments = .ok (inline, bound)) :
    List.Forall₂ (fun place ↦ f.EncodesLiteral (parameterAlias place.2) place.1.2)
      ((arguments.filter (·.2.isCollection)).zipIdx (used + 1)) bound := by
  induction arguments generalizing used inline bound with
  | nil =>
    obtain ⟨-, rfl⟩ := Prod.mk.inj (Except.ok.inj h)
    exact .nil
  | cons argument rest ih =>
    obtain ⟨text, inline', bound', htext, h⟩ := pathArguments_cons_eq_ok h
    -- Only a collection takes a name, so only it moves the numbering on.
    rcases h with ⟨hv, hrest, -, rfl⟩ | ⟨hv, hrest, -, rfl⟩
    · rw [List.filter_cons_of_pos (by exact hv), List.zipIdx_cons]
      exact .cons ⟨text, htext, Clause.encodes_escapeChars ..⟩ (ih hrest)
    · rw [List.filter_cons_of_neg (by simp [hv])]
      exact ih hrest

theorem hasArguments_of_withFunction {bound : Bool} {path path' : List Char} {i? : Option Invocation}
    {arguments : List Clause} (h : f.withFunction bound path i? = .ok (path', arguments)) :
    f.HasArguments i? arguments := by
  unfold HasArguments
  cases i? with
  | none => exact (Prod.mk.inj (Except.ok.inj h)).2.symm
  | some i =>
    obtain ⟨name, -, h⟩ := withFunction_some_eq_ok h
    rcases h with ⟨hv, h, -⟩ | ⟨hv, inline, h, -⟩
    · rw [hv]
      exact (Except.mapM_eq_ok.1 h).imp fun _ _ ↦ encodes_of_queryArgument
    · rw [hv]
      exact encodes_of_pathArguments h

theorem encodesUnlessEmpty (mode : Text.EscapeMode) (name : String) (text : List Char) :
    EncodesUnlessEmpty name text
      (if text = [] then [] else [⟨name.toList, Text.escapeChars mode text⟩]) := by
  unfold EncodesUnlessEmpty
  by_cases hempty : text = []
  · simp [hempty]
  · simp only [hempty, if_false]
    exact ⟨_, rfl, Clause.encodes_escapeChars ..⟩

theorem hasFilter_of_filterClause {e? : Option Expr} {clauses : List Clause}
    (h : f.filterClause collection e? = .ok clauses) : f.HasFilter collection e? clauses := by
  cases e? with
  | none => exact (Except.ok.inj h).symm
  | some e =>
    obtain ⟨text, htext, rfl⟩ := filterClause_some_eq_ok h
    exact ⟨text, htext, encodesUnlessEmpty ..⟩

theorem hasSearch (terms? : Option String) : f.HasSearch terms? (f.searchClause terms?) := by
  unfold HasSearch searchClause
  cases f.version with
  | v3 => rfl
  | v4 =>
    cases terms? with
    | none => rfl
    | some terms =>
      have h := encodesUnlessEmpty f.escapeMode "$search" terms.toList
      simp only [String.toList_eq_nil_iff] at h
      exact h

theorem numberClause_eq (name : String) (n : Option Nat) :
    numberClause name n = (n.map fun n ↦ ⟨name.toList, Text.decimal n⟩).toList := by
  cases n <;> rfl

theorem hasQuery_of_address {command : Command} {resource : Resource} {a : Address}
    (hr : f.resource command = .ok resource) (h : f.address command = .ok a) :
    ∃ p, f.HasQuery resource.collection command.clauses p ∧ a.query = p.all := by
  obtain ⟨r, path, path', arguments, clauses, hr', ha, -, h, rfl⟩ := address_eq_ok h
  obtain rfl : resource = r := Except.ok.inj (hr.symm.trans hr')
  obtain ⟨filter, expressions, select, expand, fields, orderBy, hfilter, hexpressions, hselect,
    hexpand, horder, rfl⟩ := clauses_eq_ok h
  generalize command.clauses = c at *
  refine ⟨⟨arguments, filter, f.searchClause c.search, c.queryOptions.map optionClause, expressions,
    numberClause "$skip" c.skip, numberClause "$top" c.top, expand,
    listClause "$select" (select ++ fields), listClause "$orderby" orderBy,
    f.countClause c.count⟩, ?_, by simp only [QueryParts.all, List.append_assoc]⟩
  · exact {
      arguments := hasArguments_of_withFunction ha
      filter := hasFilter_of_filterClause hfilter
      search := hasSearch c.search
      options := rfl
      expressions := (Except.mapM_eq_ok.1 hexpressions).imp fun _ _ ↦ encodes_of_expressionClause
      skip := numberClause_eq ..
      top := numberClause_eq ..
      select := ⟨select, fields, hselect, hexpand, rfl⟩
      orderBy := ⟨orderBy, horder, rfl⟩
      count := rfl }

/-- A service with products in categories and a function. -/
def store : Formatting where
  resolver :=
    (Schema.mk "NS" [⟨"Products", [("Name", .string)], [⟨"Category", "Categories", false⟩]⟩,
      ⟨"Categories", [("Title", .string)], []⟩] ["Rated"]).resolver
  version := .v4

/-- A command whose texts are full of marks. -/
def rated : Command :=
  .collection "products"
    { filter := some (.binary .eq (.reference "name") (.literal (.string "a&b")))
      search := some "&$top=1"
      expand := [.node "category"
        { filter := some ((Expr.literal (.string "#")).contains (.reference "Title")) } []]
      orderBy := [("Name", .descending)]
      skip := some 1
      queryOptions := [("custom", "=")]
      function := some ⟨"rated", [("ids", .collection [.int32 1, .int32 2])]⟩
      count := .inline }

def ratedUri : String :=
  "Products/NS.Rated(ids=@p1)?@p1=%5B1%2C2%5D&$filter=Name%20eq%20%27a%26b%27&" ++
    "$search=%26%24top%3D1&custom==&$skip=1&" ++
    "$expand=Category($filter=contains%28%27%23%27%2CTitle%29)&$orderby=Name desc&$count=true"

end Formatting
end OData
