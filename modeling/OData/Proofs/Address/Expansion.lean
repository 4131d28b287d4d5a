import OData.Proofs.Address.Parts

/-!
Expanded navigations with their exact names. The names are resolved first and written then: formatting in
the newer dialect does the one after the other.
-/

namespace OData

/-- The options of an expanded navigation with exact names, and the filter as a text. -/
structure ExactOptions where
  select : List (List Char) := []
  filter : Option (List Char) := none
  orderBy : List (List Char × Direction) := []
  top : Option Nat := none
  deriving DecidableEq, Repr

namespace ExactOptions

def orderedChars : List Char × Direction → List Char
  | (path, .ascending) => path
  | (path, .descending) => path ++ " desc".toList

def filterClauses (mode : Text.EscapeMode) : Option (List Char) → List Clause
  | some text => [⟨"$filter".toList, Text.escapeChars mode text⟩]
  | none => []

def clauses (mode : Text.EscapeMode) (o : ExactOptions) : List Clause :=
  Formatting.listClause "$select" o.select ++ filterClauses mode o.filter ++
    Formatting.listClause "$orderby" (o.orderBy.map orderedChars) ++
    Formatting.numberClause "$top" o.top

end ExactOptions

/-- An expanded navigation under its exact name, with what is expanded below it. -/
inductive Expansion
  | node (name : List Char) (options : ExactOptions) (below : List Expansion)

namespace Expansion

/-- A path of navigations: each has the next one below it, and the options are those of the last. -/
def chain (options : ExactOptions) (below : List Expansion) :
    List (List Char) → Except FormatError Expansion
  | [] => .error (.malformedCommand .emptyExpandPath)
  | [last] => .ok (.node last options below)
  | segment :: rest => (chain options below rest).map fun inner ↦ .node segment {} [inner]

/-- A name with its options in parentheses, where there are any. -/
def withClauses (name : List Char) (clauses : List Clause) : List Char :=
  if clauses = [] then name
  else name ++ Filter.parenthesized (List.intercalate [';'] (clauses.map Clause.chars))

mutual

/-- The text of an expanded navigation in the newer dialect. -/
def chars (mode : Text.EscapeMode) : Expansion → List Char
  | .node name options below =>
    withClauses name (options.clauses mode ++ Formatting.listClause "$expand" (charsAll mode below))

def charsAll (mode : Text.EscapeMode) : List Expansion → List (List Char)
  | [] => []
  | e :: rest => chars mode e :: charsAll mode rest

end

/-- The clauses in the parentheses of an expanded navigation. -/
def inside (mode : Text.EscapeMode) (options : ExactOptions) (below : List Expansion) :
    List Clause :=
  options.clauses mode ++ Formatting.listClause "$expand" (charsAll mode below)

theorem chars_node (mode : Text.EscapeMode) (name : List Char) (options : ExactOptions)
    (below : List Expansion) :
    (node name options below).chars mode = withClauses name (inside mode options below) := by
  rw [chars, inside]

theorem charsAll_eq_map (mode : Text.EscapeMode) (forest : List Expansion) :
    charsAll mode forest = forest.map (chars mode) := by
  induction forest with
  | nil => rfl
  | cons e forest ih => rw [charsAll, ih, List.map_cons]

theorem chars_outer (mode : Text.EscapeMode) (segment : List Char) (inner : Expansion) :
    (node segment {} [inner]).chars mode =
      segment ++ Filter.parenthesized (Clause.chars ⟨"$expand".toList, inner.chars mode⟩) := by
  have hclauses : inside mode {} [inner] = [⟨"$expand".toList, inner.chars mode⟩] := by
    rw [inside, charsAll, charsAll, Formatting.listClause, if_neg (List.cons_ne_nil _ _),
      Formatting.commaSeparated, List.intercalate_singleton]
    rfl
  rw [chars_node, hclauses, withClauses, if_neg (List.cons_ne_nil _ _), List.map_singleton,
    List.intercalate_singleton]

end Expansion

namespace Formatting

variable (f : Formatting)

def exactFilter (target : Option String) : Option Expr → Except FormatError (Option (List Char))
  | some e => (f.filter target e).map some
  | none => .ok none

def exactOrder (target : Option String) (item : String × Direction) :
    Except FormatError (List Char × Direction) :=
  (f.resolve target item.1).map fun path ↦ (path, item.2)

def exactOptions (target : Option String) (o : ExpandOptions) :
    Except FormatError ExactOptions := do
  let select ← o.select.mapM (f.selected target)
  let filter ← f.exactFilter target o.filter
  let orderBy ← o.orderBy.mapM (f.exactOrder target)
  return ⟨select, filter, orderBy, o.top⟩

mutual

/-- What an expanded navigation asks for under exact names. -/
def expansion (collection : Option String) : Expand → Except FormatError Expansion
  | .node path options nested => do
    let (segments, target) ← f.navigationPath collection (pathSegments path)
    let options ← f.exactOptions target options
    let below ← expansions target nested
    Expansion.chain options below segments

def expansions (collection : Option String) : List Expand → Except FormatError (List Expansion)
  | [] => .ok []
  | e :: rest => do
    let first ← expansion collection e
    let others ← expansions collection rest
    return first :: others

end

variable {f}

theorem expansions_eq_mapM (collection : Option String) (es : List Expand) :
    f.expansions collection es = es.mapM (f.expansion collection) := by
  induction es with
  | nil => rfl
  | cons e es ih => rw [expansions, List.mapM_cons, ih]

theorem expansion_eq_ok {collection : Option String} {path : String} {options : ExpandOptions}
    {nested : List Expand} {x : Expansion}
    (h : f.expansion collection (.node path options nested) = .ok x) :
    ∃ segments target exact below,
      f.navigationPath collection (pathSegments path) = .ok (segments, target) ∧
      f.exactOptions target options = .ok exact ∧ f.expansions target nested = .ok below ∧
      Expansion.chain exact below segments = .ok x := by
  rw [expansion] at h
  obtain ⟨⟨segments, target⟩, hpath, h⟩ := Except.bind_eq_ok.1 h
  obtain ⟨exact, hexact, h⟩ := Except.bind_eq_ok.1 h
  obtain ⟨below, hbelow, h⟩ := Except.bind_eq_ok.1 h
  exact ⟨segments, target, exact, below, hpath, hexact, hbelow, h⟩

theorem ordered_eq (target : Option String) (item : String × Direction) :
    f.ordered target item = (f.exactOrder target item).map ExactOptions.orderedChars := by
  obtain ⟨path, direction⟩ := item
  unfold ordered exactOrder
  cases f.resolve target path with
  | error => rfl
  | ok => cases direction <;> rfl

theorem filterOption_eq (target : Option String) (filter : Option Expr) :
    f.filterOption target filter =
      (f.exactFilter target filter).map (ExactOptions.filterClauses f.escapeMode) := by
  cases filter with
  | none => rfl
  | some e =>
    show (f.filter target e).map _ = ((f.filter target e).map some).map _
    cases f.filter target e <;> rfl

theorem expandOptions_eq_map (target : Option String) (o : ExpandOptions) :
    f.expandOptions target o = (f.exactOptions target o).map (·.clauses f.escapeMode) := by
  have horder : o.orderBy.mapM (f.ordered target) =
      (o.orderBy.mapM (f.exactOrder target)).map (List.map ExactOptions.orderedChars) := by
    rw [← Except.mapM_map_answer]
    exact congrArg (List.mapM · o.orderBy) (funext (ordered_eq target))
  rw [expandOptions_eq, filterOption_eq, horder, exactOptions]
  cases o.select.mapM (f.selected target) with
  | error => rfl
  | ok select =>
    cases f.exactFilter target o.filter with
    | error => rfl
    | ok filter => cases o.orderBy.mapM (f.exactOrder target) <;> rfl

theorem nestedSegments_eq_map (mode : Text.EscapeMode) (options : ExactOptions)
    (below : List Expansion) (segments : List (List Char)) :
    nestedSegments (options.clauses mode ++ listClause "$expand" (Expansion.charsAll mode below))
        segments = (Expansion.chain options below segments).map (Expansion.chars mode) := by
  induction segments with
  | nil => rfl
  | cons segment rest ih =>
    cases rest with
    | nil => rfl
    | cons next rest =>
      have hchain : Expansion.chain options below (segment :: next :: rest) =
          (Expansion.chain options below (next :: rest)).map fun inner ↦
            .node segment {} [inner] := rfl
      rw [nestedSegments, ih, hchain]
      · cases Expansion.chain options below (next :: rest) with
        | error => rfl
        | ok inner => exact congrArg _ (Expansion.chars_outer mode segment inner).symm
      · exact List.cons_ne_nil _ _

mutual

/-- The newer dialect writes an expanded navigation from its exact names. -/
theorem nestedExpand_eq_map (collection : Option String) (e : Expand) :
    f.nestedExpand collection e =
      (f.expansion collection e).map (Expansion.chars f.escapeMode) := by
  cases e with
  | node path options nested =>
    rw [nestedExpand, expansion]
    cases f.navigationPath collection (pathSegments path) with
    | error => rfl
    | ok answer =>
      obtain ⟨segments, target⟩ := answer
      have hnested := nestedExpands_eq_map target nested
      show (do
        let clauses ← f.expandOptions target options
        let below ← f.nestedExpands target nested
        nestedSegments (clauses ++ listClause "$expand" below) segments) =
          (do
            let exact ← f.exactOptions target options
            let below ← f.expansions target nested
            Expansion.chain exact below segments).map (Expansion.chars f.escapeMode)
      rw [expandOptions_eq_map, hnested]
      cases f.exactOptions target options with
      | error => rfl
      | ok exact =>
        cases f.expansions target nested with
        | error => rfl
        | ok below => exact nestedSegments_eq_map f.escapeMode exact below segments

theorem nestedExpands_eq_map (collection : Option String) (es : List Expand) :
    f.nestedExpands collection es =
      (f.expansions collection es).map (Expansion.charsAll f.escapeMode) := by
  cases es with
  | nil => rfl
  | cons e es =>
    have hfirst := nestedExpand_eq_map collection e
    have hothers := nestedExpands_eq_map collection es
    rw [nestedExpands, expansions, hfirst, hothers]
    cases f.expansion collection e with
    | error => rfl
    | ok first => cases f.expansions collection es <;> rfl

end

/-- The newer dialect writes one clause for all that is expanded. -/
theorem expandClause_v4 (hv : f.version = .v4) (collection : Option String) (es : List Expand) :
    f.expandClause collection es = (f.expansions collection es).map fun forest ↦
      (listClause "$expand" (forest.map (Expansion.chars f.escapeMode)), []) := by
  simp only [← Expansion.charsAll_eq_map]
  cases es with
  | nil => rfl
  | cons e es =>
    have hempty : (e :: es).isEmpty = false := rfl
    rw [expandClause, hempty, hv, nestedExpands_eq_map, expansions]
    cases f.expansion collection e with
    | error => rfl
    | ok x => cases f.expansions collection es <;> rfl

end Formatting
end OData
