import OData.Proofs.Address.Nesting
import OData.Proofs.Address.Resolution

/-!
The same fields and navigations in either dialect. What the newer one nests is what the older one lists.
-/

namespace OData

open OData.Filter (isIdentifier)

/-- The values of the clauses of a name. -/
def clauseValues (name : String) (clauses : List Clause) : List (List Char) :=
  (clauses.filter (·.name = name.toList)).map Clause.value

/-- A list of paths: commas between the paths and slashes between their segments. -/
def readPaths (name : String) (clauses : List Clause) : List (List (List Char)) :=
  (clauseValues name clauses).flatMap fun text ↦
    (Text.pieces (· = ',') text).map (Text.pieces (· = '/'))

/-- The forest that is expanded in the newer dialect. -/
def readForest? (clauses : List Clause) : Option (List Expansion) :=
  ((clauseValues "$expand" clauses).mapM readExpand?).map List.flatten

section

variable {name other : String} {items : List (List Char)} {paths : List (List (List Char))}

theorem clauseValues_append (name : String) (front back : List Clause) :
    clauseValues name (front ++ back) = clauseValues name front ++ clauseValues name back := by
  rw [clauseValues, List.filter_append, List.map_append]
  rfl

theorem clauseValues_listClause (name : String) (items : List (List Char)) :
    clauseValues name (Formatting.listClause name items) =
      if items = [] then [] else [Formatting.commaSeparated items] := by
  rw [Formatting.listClause]
  split
  · rfl
  · simp [clauseValues]

theorem clauseValues_listClause_of_ne (h : other.toList ≠ name.toList) (items : List (List Char)) :
    clauseValues name (Formatting.listClause other items) = [] := by
  rw [Formatting.listClause]
  split
  · rfl
  · simp [clauseValues, h]

/-- The two lists that are written where only fields and navigations are asked for. -/
def listClauses (expand select : List (List Char)) : List Clause :=
  Formatting.listClause "$expand" expand ++ Formatting.listClause "$select" select

theorem clauseValues_expand (expand select : List (List Char)) :
    clauseValues "$expand" (listClauses expand select) =
      if expand = [] then [] else [Formatting.commaSeparated expand] := by
  rw [listClauses, clauseValues_append, clauseValues_listClause,
    clauseValues_listClause_of_ne (by decide), List.append_nil]

theorem clauseValues_select (expand select : List (List Char)) :
    clauseValues "$select" (listClauses expand select) =
      if select = [] then [] else [Formatting.commaSeparated select] := by
  rw [listClauses, clauseValues_append, clauseValues_listClause,
    clauseValues_listClause_of_ne (by decide), List.nil_append]

/-- A path of at least one name. -/
def IsPlainPath (path : List (List Char)) : Prop :=
  path ≠ [] ∧ ∀ segment ∈ path, IsPlainName segment

/-- Paths of names read back. -/
theorem readPaths_of_clauseValues {clauses : List Clause}
    (hvalues : clauseValues name clauses =
      if paths.map (List.intercalate ['/']) = [] then []
      else [Formatting.commaSeparated (paths.map (List.intercalate ['/']))])
    (h : ∀ path ∈ paths, IsPlainPath path) : readPaths name clauses = paths := by
  rw [readPaths, hvalues]
  split
  · rename_i hnone
    exact (List.map_eq_nil_iff.1 hnone).symm
  · rename_i hsome
    have hcomma : ∀ cs ∈ paths.map (List.intercalate ['/']), ',' ∉ cs := by
      refine List.forall_mem_map.2 fun path hpath hmem ↦ ?_
      rcases Text.mem_of_mem_intercalate hmem with heq | ⟨segment, hsegment, hmem⟩
      · exact absurd heq (by decide)
      · exact ((h path hpath).2 segment hsegment).not_mem (by decide) (by decide) hmem
    rw [List.flatMap_singleton, pieces_commaSeparated hsome hcomma, List.map_map]
    refine (List.map_congr_left fun path hpath ↦ ?_).trans (List.map_id _)
    obtain ⟨hne, hsegments⟩ := h path hpath
    refine Text.pieces_intercalate rfl hne fun segment hsegment c hc ↦ decide_eq_false ?_
    rintro rfl
    exact (hsegments segment hsegment).not_mem (by decide) (by decide) hc

end

/-- Names alone, with nothing but selected fields among the options. -/
inductive Expansion.IsPlain : Expansion → Prop
  | node {name : List Char} {select : List (List Char)} {below : List Expansion}
    (hname : isIdentifier name) (hselect : ∀ field ∈ select, IsPlainName field)
    (hbelow : ∀ e ∈ below, IsPlain e) : IsPlain (.node name { select := select } below)

namespace Expansion

variable {e x : Expansion} {forest below : List Expansion} {fields segments : List (List Char)}

theorem IsPlain.hasNames (h : e.IsPlain) (mode : Text.EscapeMode) : e.HasNames mode := by
  induction h with
  | node hname hselect _ ih =>
    exact .node hname
      ⟨fun field hfield ↦ (hselect field hfield).imp id .name, nofun, nofun⟩ ih

theorem isPlain_chain (hs : ∀ segment ∈ segments, isIdentifier segment)
    (hfields : ∀ field ∈ fields, IsPlainName field) (hbelow : ∀ e ∈ below, e.IsPlain)
    (h : Expansion.chain { select := fields } below segments = .ok x) : x.IsPlain := by
  induction segments generalizing x with
  | nil => contradiction
  | cons segment rest ih =>
    obtain ⟨hsegment, hrest⟩ := List.forall_mem_cons.1 hs
    cases rest with
    | nil =>
      obtain rfl := Except.ok.inj h
      exact .node hsegment hfields hbelow
    | cons next rest =>
      obtain ⟨inner, hinner, rfl⟩ := Except.map_eq_ok.1 h
      exact .node hsegment nofun (List.forall_mem_singleton.2 (ih hrest hinner))

/-- Every place in the forest is plain and has a path of identifiers. -/
theorem isPlain_of_mem_placesAll (h : ∀ e ∈ forest, e.IsPlain) :
    ∀ place ∈ placesAll forest, (∀ segment ∈ place.1, isIdentifier segment) ∧ place.2.IsPlain := by
  induction forest using forest_induction with
  | nil => nofun
  | cons name o below rest hbelow hrest =>
    obtain ⟨hfirst, hothers⟩ := List.forall_mem_cons.1 h
    rw [placesAll, List.forall_mem_append, places, List.forall_mem_cons, List.forall_mem_map]
    cases hfirst with
    | node hname hselect hinner =>
      refine ⟨⟨⟨List.forall_mem_singleton.2 hname, .node hname hselect hinner⟩, ?_⟩, hrest hothers⟩
      intro place hplace
      obtain ⟨hsegments, hplain⟩ := hbelow hinner place hplace
      exact ⟨List.forall_mem_cons.2 ⟨hname, hsegments⟩, hplain⟩

theorem isPlainPath_of_mem_leafPaths (h : ∀ e ∈ forest, e.IsPlain) :
    ∀ path ∈ leafPaths forest, IsPlainPath path := by
  intro path hpath
  obtain ⟨place, hplace, heq⟩ := List.mem_map.1 hpath
  obtain ⟨hsegments, -⟩ := isPlain_of_mem_placesAll h place (List.mem_of_mem_filter hplace)
  exact ⟨leafPath_ne_nil hpath, fun segment hsegment ↦ .inr (hsegments segment (heq ▸ hsegment))⟩

/-- The path of a selected field, with the field behind that of its navigation. -/
def fieldPath (selection : List (List Char) × List Char) : List (List Char) :=
  selection.1 ++ [selection.2]

theorem isPlainPath_of_mem_selections (h : ∀ e ∈ forest, e.IsPlain) :
    ∀ s ∈ selections forest, IsPlainPath (fieldPath s) := by
  intro s hs
  obtain ⟨⟨path, e⟩, hplace, hs⟩ := List.mem_flatMap.1 hs
  obtain ⟨field, hfield, rfl⟩ := List.mem_map.1 hs
  obtain ⟨hsegments, hplain⟩ := isPlain_of_mem_placesAll h _ hplace
  refine ⟨List.append_ne_nil_of_right_ne_nil _ (List.cons_ne_nil _ _), ?_⟩
  refine List.forall_mem_append.2 ⟨fun segment hsegment ↦ .inr (hsegments segment hsegment), ?_⟩
  cases hplain with
  | node _ hselect _ => exact List.forall_mem_singleton.2 (hselect field hfield)

end Expansion

/-- A request for fields and navigations, and for nothing else. -/
def Clauses.selecting (select : List String) (expand : List Expand) : Clauses :=
  { select, expand }

namespace Formatting

open Expansion

variable {f : Formatting} {collection target : Option String} {select : List String}
  {es : List Expand} {v w : Version} {forest : List Expansion} {fields : List (List Char)}
  {clauses : List Clause}

/-- Only the navigations and the selected fields leave clauses where nothing else is asked for. -/
theorem clauses_selecting (collection : Option String) (select : List String) (es : List Expand) :
    f.clauses collection (.selecting select es) = do
      let fields ← select.mapM (f.selected collection)
      let (expand, more) ← f.expandClause collection es
      return expand ++ listClause "$select" (fields ++ more) := by
  have hsearch : f.searchClause none = [] := by
    unfold searchClause
    cases f.version <;> rfl
  show (do
    let fields ← select.mapM (f.selected collection)
    let (expand, more) ← f.expandClause collection es
    return [] ++ f.searchClause none ++ [] ++ [] ++ [] ++ [] ++ expand ++
      listClause "$select" (fields ++ more) ++ [] ++ []) = _
  simp only [hsearch, List.nil_append, List.append_nil]

/-- The older dialect writes one clause for the paths to all leaves, and adds the selected fields to
those from the top. -/
theorem expandClause_v3 (hv : f.version = .v3) (h : ∀ e ∈ es, f.SelectsFields collection e) :
    f.expandClause collection es = (f.expansions collection es).map fun forest ↦
      (listClause "$expand" (flatTexts [] forest).1, (flatTexts [] forest).2) := by
  cases es with
  | nil => rfl
  | cons e es =>
    have hempty : (e :: es).isEmpty = false := rfl
    rw [expandClause, hempty, hv, flatExpands_eq_map fun e he ↦ (h e he).flatExpand_eq_map,
      expansions]
    cases f.expansion collection e with
    | error => rfl
    | ok x =>
      cases f.expansions collection es with
      | error => rfl
      | ok forest =>
        have hpaths : (flatTexts [] (x :: forest)).1 ≠ [] :=
          mt List.map_eq_nil_iff.1 (leafPaths_ne_nil (List.cons_ne_nil x forest))
        have hlist : listClause "$expand" (flatTexts [] (x :: forest)).1 =
            [⟨"$expand".toList, commaSeparated (flatTexts [] (x :: forest)).1⟩] := if_neg hpaths
        exact congrArg Except.ok (congrArg (·, _) hlist.symm)

theorem SelectsFields.inVersion {e : Expand} (h : f.SelectsFields collection e) (v : Version) :
    (f.inVersion v).SelectsFields collection e := by
  induction h with
  | node hpath hfilter horder htop hsegments hselect _ ih =>
    refine .node hpath hfilter horder htop ?_ ?_ ?_ <;> intro segments target hnavigation <;>
      rw [navigationPath_inVersion] at hnavigation
    · exact hsegments segments target hnavigation
    · exact hselect segments target hnavigation
    · exact ih segments target hnavigation

theorem clauses_selecting_eq_ok {g : List Expansion → List Clause × List (List Char)}
    (hexpand : f.expandClause collection es = (f.expansions collection es).map g) :
    f.clauses collection (.selecting select es) = .ok clauses ↔
      ∃ fields forest, select.mapM (f.selected collection) = .ok fields ∧
        f.expansions collection es = .ok forest ∧
        clauses = (g forest).1 ++ listClause "$select" (fields ++ (g forest).2) := by
  rw [clauses_selecting, hexpand]
  constructor
  · intro h
    obtain ⟨fields, hfields, h⟩ := Except.bind_eq_ok.1 h
    obtain ⟨_, hexpand, h⟩ := Except.bind_eq_ok.1 h
    obtain ⟨forest, hforest, rfl⟩ := Except.map_eq_ok.1 hexpand
    exact ⟨fields, forest, hfields, hforest, (Except.ok.inj h).symm⟩
  · rintro ⟨fields, forest, hfields, hforest, rfl⟩
    rw [hfields, hforest]
    rfl

theorem clauses_v3_eq_ok (h : ∀ e ∈ es, f.SelectsFields collection e) :
    (f.inVersion .v3).clauses collection (.selecting select es) = .ok clauses ↔
      ∃ fields forest, select.mapM ((f.inVersion .v3).selected collection) = .ok fields ∧
        (f.inVersion .v3).expansions collection es = .ok forest ∧
        clauses = listClauses (flatTexts [] forest).1 (fields ++ (flatTexts [] forest).2) :=
  clauses_selecting_eq_ok (expandClause_v3 rfl fun e he ↦ (h e he).inVersion .v3)

theorem clauses_v4_eq_ok :
    (f.inVersion .v4).clauses collection (.selecting select es) = .ok clauses ↔
      ∃ fields forest, select.mapM ((f.inVersion .v4).selected collection) = .ok fields ∧
        (f.inVersion .v4).expansions collection es = .ok forest ∧
        clauses = listClauses (forest.map (Expansion.chars f.escapeMode)) fields := by
  rw [clauses_selecting_eq_ok (expandClause_v4 rfl collection es)]
  simp only [List.append_nil]
  rfl

theorem SelectsFields.isPlain {e : Expand} (h : f.SelectsFields collection e) {x : Expansion}
    (hx : (f.inVersion v).expansion collection e = .ok x) : x.IsPlain := by
  induction h generalizing x with
  | node _ hfilter horder htop hsegments hselect _ ih =>
    obtain ⟨segments, target, fields, below, hnavigation, hfields, hbelow, hchain⟩ :=
      (expansion_of_select_eq_ok hfilter horder htop).1 hx
    have hnames : ∀ field ∈ fields, IsPlainName field := Except.forall_of_mapM
      (fun name hname field hfield ↦ hselect segments target hnavigation name hname v field hfield)
      hfields
    have hplain : ∀ e ∈ below, e.IsPlain := by
      rw [expansions_eq_mapM] at hbelow
      exact Except.forall_of_mapM (fun e he x hx ↦ ih segments target hnavigation e he hx) hbelow
    exact isPlain_chain (hsegments segments target hnavigation) hnames hplain hchain

theorem readPaths_expand (h : ∀ path ∈ leafPaths forest, IsPlainPath path)
    (fields : List (List Char)) :
    readPaths "$expand" (listClauses (flatTexts [] forest).1 fields) = leafPaths forest :=
  readPaths_of_clauseValues (clauseValues_expand _ _) h

theorem flatTexts_fields (forest : List Expansion) :
    (flatTexts [] forest).2 = ((selections forest).map fieldPath).map (List.intercalate ['/']) := by
  rw [flatTexts, List.map_map]
  refine List.map_congr_left fun s hs ↦ ?_
  show List.intercalate ['/'] s.1 ++ '/' :: s.2 = List.intercalate ['/'] (s.1 ++ [s.2])
  rw [Text.intercalate_append (selection_ne_nil hs) (List.cons_ne_nil _ _), List.intercalate_singleton]

theorem singleton_fields (fields : List (List Char)) :
    (fields.map fun field ↦ [field]).map (List.intercalate ['/']) = fields := by
  rw [List.map_map]
  exact (List.map_congr_left fun field _ ↦ List.intercalate_singleton ..).trans (List.map_id _)

theorem isPlainPath_singleton (hfields : ∀ field ∈ fields, IsPlainName field) :
    ∀ path ∈ fields.map fun field ↦ [field], IsPlainPath path :=
  List.forall_mem_map.2 fun field hfield ↦
    ⟨List.cons_ne_nil _ _, List.forall_mem_singleton.2 (hfields field hfield)⟩

theorem readPaths_fields (hfields : ∀ field ∈ fields, IsPlainName field)
    (expand : List (List Char)) :
    readPaths "$select" (listClauses expand fields) = fields.map fun field ↦ [field] := by
  refine readPaths_of_clauseValues ?_ (isPlainPath_singleton hfields)
  rw [singleton_fields, clauseValues_select]

/-- Fields from the top, and those behind their navigations. -/
theorem readPaths_select (hfields : ∀ field ∈ fields, IsPlainName field)
    (h : ∀ s ∈ selections forest, IsPlainPath (fieldPath s)) (expand : List (List Char)) :
    readPaths "$select" (listClauses expand (fields ++ (flatTexts [] forest).2)) =
      fields.map (fun field ↦ [field]) ++ (selections forest).map fieldPath := by
  refine readPaths_of_clauseValues ?_
    (List.forall_mem_append.2 ⟨isPlainPath_singleton hfields, List.forall_mem_map.2 h⟩)
  rw [List.map_append, singleton_fields, ← flatTexts_fields, clauseValues_select]

theorem readForest?_chars {mode : Text.EscapeMode} (h : ∀ e ∈ forest, e.HasNames mode)
    (fields : List (List Char)) :
    readForest? (listClauses (forest.map (Expansion.chars mode)) fields) = some forest := by
  rw [readForest?, clauseValues_expand]
  split
  · rename_i hnone
    rw [List.map_eq_nil_iff.1 hnone]
    rfl
  · rename_i hsome
    have hread := readExpand?_chars (mt List.map_eq_nil_iff.2 hsome) h
    simp [hread]

/-- Both dialects write a request for fields and navigations, or neither does. The older one lists the
paths to all leaves of the forest that the newer one nests, and what is expanded there is what lies on
the way to these. The fields stand behind those from the top, each with the path of its navigation. -/
theorem dialects_expand_alike (hselect : ∀ name ∈ select, f.SelectsField collection name)
    (hes : ∀ e ∈ es, f.SelectsFields collection e) :
    ((∃ older, (f.inVersion .v3).clauses collection (.selecting select es) = .ok older) ↔
      ∃ newer, (f.inVersion .v4).clauses collection (.selecting select es) = .ok newer) ∧
    ∀ older newer, (f.inVersion .v3).clauses collection (.selecting select es) = .ok older →
      (f.inVersion .v4).clauses collection (.selecting select es) = .ok newer →
        ∃ fields forest,
          (∀ v, select.mapM ((f.inVersion v).selected collection) = .ok fields) ∧
          (∀ v, (f.inVersion v).expansions collection es = .ok forest) ∧
          readForest? newer = some forest ∧
          readPaths "$expand" older = leafPaths forest ∧
          (∀ chain, chain ∈ chains forest ↔
            chain ≠ [] ∧ ∃ path ∈ readPaths "$expand" older, chain <+: path) ∧
          readPaths "$select" newer = fields.map (fun field ↦ [field]) ∧
          readPaths "$select" older =
            fields.map (fun field ↦ [field]) ++ (selections forest).map fieldPath := by
  constructor
  · constructor
    · rintro ⟨older, h⟩
      obtain ⟨fields, forest, hfields, hforest, -⟩ := (clauses_v3_eq_ok hes).1 h
      exact ⟨_, clauses_v4_eq_ok.2 ⟨fields, forest, mapM_selected_version hselect .v4 hfields,
        expansions_version hes .v4 hforest, rfl⟩⟩
    · rintro ⟨newer, h⟩
      obtain ⟨fields, forest, hfields, hforest, -⟩ := clauses_v4_eq_ok.1 h
      exact ⟨_, (clauses_v3_eq_ok hes).2 ⟨fields, forest,
        mapM_selected_version hselect .v3 hfields, expansions_version hes .v3 hforest, rfl⟩⟩
  · intro older newer hold hnew
    obtain ⟨fields, forest, hfields, hforest, rfl⟩ := (clauses_v3_eq_ok hes).1 hold
    obtain ⟨fields', forest', hfields', hforest', rfl⟩ := clauses_v4_eq_ok.1 hnew
    have hfields := fun v ↦ mapM_selected_version hselect v hfields
    have hforest := fun v ↦ expansions_version hes v hforest
    obtain rfl := Except.ok.inj ((hfields .v4).symm.trans hfields')
    obtain rfl := Except.ok.inj ((hforest .v4).symm.trans hforest')
    have hnames : ∀ field ∈ fields, IsPlainName field :=
      Except.forall_of_mapM (fun name hname field hfield ↦ hselect name hname .v4 field hfield)
        hfields'
    have hplain : ∀ e ∈ forest, e.IsPlain := by
      rw [expansions_eq_mapM] at hforest'
      exact Except.forall_of_mapM (fun e he x hx ↦ (hes e he).isPlain hx) hforest'
    have hpaths := readPaths_expand (isPlainPath_of_mem_leafPaths hplain)
      (fields ++ (flatTexts [] forest).2)
    have hread := readForest?_chars (fun e he ↦ (hplain e he).hasNames f.escapeMode) fields
    refine ⟨fields, forest, hfields, hforest, hread, hpaths, fun chain ↦ ?_,
      readPaths_fields hnames _,
      readPaths_select hnames (isPlainPath_of_mem_selections hplain) _⟩
    rw [hpaths]
    exact mem_chains_iff forest chain

theorem SelectsField.of_selected {name : String} (text : List Char)
    (h : ∀ v, (f.inVersion v).selected target name = .ok text) (ht : IsPlainName text) :
    f.SelectsField target name :=
  fun v _ hv ↦ Except.ok.inj ((h v).symm.trans hv) ▸ ht

theorem SelectsFields.of_navigationPath {path : String} {nested : List Expand}
    (segments : List (List Char)) (target : Option String) (hpath : pathSegments path ≠ [])
    (h : f.navigationPath collection (pathSegments path) = .ok (segments, target))
    (hsegments : ∀ segment ∈ segments, isIdentifier segment)
    (hselect : ∀ name ∈ select, f.SelectsField target name)
    (hnested : ∀ e ∈ nested, f.SelectsFields target e) :
    f.SelectsFields collection (.node path { select := select } nested) := by
  refine .node hpath rfl rfl rfl ?_ ?_ ?_ <;> intro segments' target' h' <;>
    obtain ⟨rfl, rfl⟩ := Prod.mk.inj (Except.ok.inj (h.symm.trans h'))
  · exact hsegments
  · exact hselect
  · exact hnested

/-- A path of two navigations with fields, above two others, and a path beside it. -/
def goods : List Expand :=
  [.node "category.products" { select := ["name", "*"] }
      [.node "supplier" { select := ["city"] } [], .node "category" {} []],
    .node "supplier" { select := ["city"] } []]

def goodsForest : List Expansion :=
  [.node "Category".toList {}
      [.node "Products".toList { select := ["Name".toList, ['*']] }
        [.node "Supplier".toList { select := ["City".toList] } [],
          .node "Category".toList {} []]],
    .node "Supplier".toList { select := ["City".toList] } []]

/-- The lists of the older dialect. -/
def goodsOlder : List Clause :=
  listClauses
    ["Category/Products/Supplier".toList, "Category/Products/Category".toList, "Supplier".toList]
    ["Name".toList, "Category/Products/Name".toList, "Category/Products/*".toList,
      "Category/Products/Supplier/City".toList, "Supplier/City".toList]

/-- The nested text of the newer dialect. -/
def goodsNewer : List Clause :=
  listClauses
    [("Category($expand=Products($select=Name,*;" ++
        "$expand=Supplier($select=City),Category))").toList, "Supplier($select=City)".toList]
    ["Name".toList]

theorem dialects_expand_alike_goods :
    (∀ name ∈ ["name"], market.SelectsField (some "Products") name) ∧
      (∀ e ∈ goods, market.SelectsFields (some "Products") e) ∧
      (market.inVersion .v3).clauses (some "Products") (.selecting ["name"] goods) =
        .ok goodsOlder ∧
      (market.inVersion .v4).clauses (some "Products") (.selecting ["name"] goods) =
        .ok goodsNewer ∧
      readForest? goodsNewer = some goodsForest ∧
      readPaths "$expand" goodsOlder = leafPaths goodsForest ∧
      readPaths "$select" goodsOlder =
        ["Name".toList] :: (selections goodsForest).map fieldPath := by
  have holder : (market.inVersion .v3).clauses (some "Products") (.selecting ["name"] goods) =
      .ok goodsOlder := by
    decide +kernel
  have hnewer : (market.inVersion .v4).clauses (some "Products") (.selecting ["name"] goods) =
      .ok goodsNewer := by
    decide +kernel
  have hname : market.SelectsField (some "Products") "name" :=
    .of_selected "Name".toList (fun v ↦ by cases v <;> rfl) (.inr rfl)
  have hstar : market.SelectsField (some "Products") "*" :=
    .of_selected ['*'] (fun v ↦ rfl) (.inl rfl)
  have hcity : market.SelectsField (some "Suppliers") "city" :=
    .of_selected "City".toList (fun v ↦ by cases v <;> rfl) (.inr rfl)
  have hsupplier : market.SelectsFields (some "Products")
      (.node "supplier" { select := ["city"] } []) :=
    .of_navigationPath ["Supplier".toList] (some "Suppliers") (by decide) rfl (by decide)
      (List.forall_mem_singleton.2 hcity) nofun
  have hcategory : market.SelectsFields (some "Products") (.node "category" {} []) :=
    .of_navigationPath ["Category".toList] (some "Categories") (by decide) rfl (by decide)
      nofun nofun
  have hselect : ∀ name ∈ ["name"], market.SelectsField (some "Products") name :=
    List.forall_mem_singleton.2 hname
  have hgoods : ∀ e ∈ goods, market.SelectsFields (some "Products") e := by
    refine List.forall_mem_cons.2 ⟨?_, List.forall_mem_singleton.2 hsupplier⟩
    exact .of_navigationPath ["Category".toList, "Products".toList] (some "Products") (by decide)
      rfl (by decide) (List.forall_mem_cons.2 ⟨hname, List.forall_mem_singleton.2 hstar⟩)
      (List.forall_mem_cons.2 ⟨hsupplier, List.forall_mem_singleton.2 hcategory⟩)
  obtain ⟨-, halike⟩ := dialects_expand_alike hselect hgoods
  obtain ⟨fields, forest, hfields, hforest, hread, hpaths, -, -, hselected⟩ :=
    halike _ _ holder hnewer
  obtain rfl : ["Name".toList] = fields := Except.ok.inj (hfields .v3)
  obtain rfl : goodsForest = forest := Except.ok.inj (hforest .v3)
  exact ⟨hselect, hgoods, holder, hnewer, hread, hpaths, hselected⟩

end Formatting

end OData
