import OData.Proofs.Address.Expansion
import OData.Proofs.Filter.Token
import OData.Proofs.Text.Occurrence

/-!
What a forest of expanded navigations expands, as paths from the top. The older dialect lists the paths
that lead to the leaves, and puts every selected field behind the path of its navigation.
-/

namespace OData

open OData.Filter (isIdentifier isNameChar ne_nil_of_isIdentifier not_mem_of_isIdentifier)

/-- An identifier, or the asterisk that stands for all fields. -/
def IsPlainName (cs : List Char) : Prop :=
  cs = ['*'] ∨ isIdentifier cs

theorem IsPlainName.not_mem {cs : List Char} {c : Char} (h : IsPlainName cs)
    (hc : isNameChar c = false) (hstar : c ≠ '*') : c ∉ cs := by
  rcases h with rfl | hidentifier
  · exact mt List.mem_singleton.1 hstar
  · exact not_mem_of_isIdentifier hidentifier hc

namespace Expansion

def options : Expansion → ExactOptions
  | node _ options _ => options

/-- Nothing is expanded below the navigation. -/
def isLeaf : Expansion → Bool
  | node _ _ below => below.isEmpty

mutual

/-- A navigation and all below it in the order of the text, each with the path that leads to it. -/
def places : Expansion → List (List (List Char) × Expansion)
  | node name options below =>
    ([name], node name options below) ::
      (placesAll below).map fun place ↦ (name :: place.1, place.2)

def placesAll : List Expansion → List (List (List Char) × Expansion)
  | [] => []
  | e :: rest => places e ++ placesAll rest

end

/-- The paths to everything that is expanded. -/
def chains (forest : List Expansion) : List (List (List Char)) :=
  (placesAll forest).map (·.1)

/-- The paths to what has nothing below it. -/
def leafPaths (forest : List Expansion) : List (List (List Char)) :=
  ((placesAll forest).filter (·.2.isLeaf)).map (·.1)

/-- The selected fields with the path of their navigation. -/
def selections (forest : List Expansion) : List (List (List Char) × List Char) :=
  (placesAll forest).flatMap fun place ↦ place.2.options.select.map fun field ↦ (place.1, field)

variable {name : List Char} {o : ExactOptions} {forest : List Expansion} {e x : Expansion}
  {segments : List (List Char)}

theorem placesAll_singleton (e : Expansion) : placesAll [e] = places e :=
  List.append_nil _

theorem chains_cons (e : Expansion) (forest : List Expansion) :
    chains (e :: forest) = chains [e] ++ chains forest := by
  rw [chains, placesAll, List.map_append, chains, placesAll_singleton, chains]

theorem leafPaths_cons (e : Expansion) (forest : List Expansion) :
    leafPaths (e :: forest) = leafPaths [e] ++ leafPaths forest := by
  rw [leafPaths, placesAll, List.filter_append, List.map_append, leafPaths, placesAll_singleton,
    leafPaths]

theorem selections_cons (e : Expansion) (forest : List Expansion) :
    selections (e :: forest) = selections [e] ++ selections forest := by
  rw [selections, placesAll, List.flatMap_append, selections, placesAll_singleton, selections]

theorem chains_node : chains [node name o forest] = [name] :: (chains forest).map (name :: ·) := by
  rw [chains, placesAll_singleton, places, chains, List.map_cons, List.map_map, List.map_map]
  rfl

theorem leafPaths_node : leafPaths [node name o forest] =
    if forest.isEmpty then [[name]] else (leafPaths forest).map (name :: ·) := by
  have hbelow : ((placesAll forest).map fun place ↦ (name :: place.1, place.2)).filter
      (·.2.isLeaf) =
        ((placesAll forest).filter (·.2.isLeaf)).map fun place ↦
          (name :: place.1, place.2) :=
    List.filter_map ..
  rw [leafPaths, placesAll_singleton, places, List.filter_cons, hbelow]
  cases forest with
  | nil => rfl
  | cons e rest => simp [leafPaths, isLeaf]

theorem selections_node : selections [node name o forest] =
    (o.select.map fun field ↦ ([name], field)) ++
      (selections forest).map fun s ↦ (name :: s.1, s.2) := by
  rw [selections, placesAll_singleton, places, List.flatMap_cons, List.flatMap_map, selections,
    List.map_flatMap]
  simp only [List.map_map]
  rfl

/-- A forest is empty, or a tree with a forest below it and a forest behind it. -/
theorem forest_induction {motive : List Expansion → Prop} (nil : motive [])
    (cons : ∀ name o below rest, motive below → motive rest → motive (node name o below :: rest)) :
    ∀ forest, motive forest
  | [] => nil
  | node name o below :: rest =>
    cons name o below rest (forest_induction nil cons below) (forest_induction nil cons rest)

theorem leafPaths_ne_nil (h : forest ≠ []) : leafPaths forest ≠ [] := by
  induction forest using forest_induction with
  | nil => contradiction
  | cons name o below rest hbelow _ =>
    have hfirst : leafPaths [node name o below] ≠ [] := by
      rw [leafPaths_node]
      split
      · exact List.cons_ne_nil _ _
      · rename_i hsome
        exact mt List.map_eq_nil_iff.1 (hbelow (mt List.isEmpty_iff.2 hsome))
    rw [leafPaths_cons]
    exact List.append_ne_nil_of_left_ne_nil hfirst _

/-- A chain of navigations is expanded where it leads to a leaf or is on the way to one. -/
def OnTheWay (forest : List Expansion) (chain : List (List Char)) : Prop :=
  chain ≠ [] ∧ ∃ path ∈ leafPaths forest, chain <+: path

theorem onTheWay_cons (e : Expansion) (forest : List Expansion) (chain : List (List Char)) :
    OnTheWay (e :: forest) chain ↔ OnTheWay [e] chain ∨ OnTheWay forest chain := by
  simp only [OnTheWay, leafPaths_cons e forest, List.mem_append, or_and_right, exists_or,
    and_or_left]

theorem onTheWay_node {chain : List (List Char)} : OnTheWay [node name o forest] chain ↔
    chain = [name] ∨ ∃ rest, chain = name :: rest ∧ OnTheWay forest rest := by
  rw [OnTheWay, leafPaths_node]
  cases hempty : forest.isEmpty with
  | true =>
    -- The name is the only path, so a chain on the way is the name alone.
    obtain rfl := List.isEmpty_iff.1 hempty
    rw [if_pos rfl]
    constructor
    · rintro ⟨hchain, path, hpath, hprefix⟩
      obtain rfl := List.mem_singleton.1 hpath
      obtain ⟨segment, rest, rfl⟩ := List.exists_cons_of_ne_nil hchain
      obtain ⟨rfl, hrest⟩ := List.cons_prefix_cons.1 hprefix
      exact .inl (congrArg _ (List.prefix_nil.1 hrest))
    · rintro (rfl | ⟨rest, -, -, path, hpath, -⟩)
      · exact ⟨List.cons_ne_nil _ _, [name], List.mem_singleton_self _, List.prefix_refl _⟩
      · contradiction
  | false =>
    have hne : forest ≠ [] := List.isEmpty_eq_false_iff.1 hempty
    rw [if_neg Bool.false_ne_true]
    constructor
    · rintro ⟨hchain, path, hpath, hprefix⟩
      obtain ⟨path, hleaf, rfl⟩ := List.mem_map.1 hpath
      obtain ⟨segment, rest, rfl⟩ := List.exists_cons_of_ne_nil hchain
      obtain ⟨rfl, hrest⟩ := List.cons_prefix_cons.1 hprefix
      by_cases hend : rest = []
      · exact .inl (hend ▸ rfl)
      · exact .inr ⟨rest, rfl, hend, path, hleaf, hrest⟩
    · rintro (rfl | ⟨rest, rfl, -, path, hpath, hrest⟩)
      · -- Some leaf lies below, and the name alone is on the way to it.
        obtain ⟨path, hpath⟩ := List.exists_mem_of_ne_nil _ (leafPaths_ne_nil hne)
        exact ⟨List.cons_ne_nil _ _, name :: path, List.mem_map_of_mem hpath,
          List.cons_prefix_cons.2 ⟨rfl, List.nil_prefix⟩⟩
      · exact ⟨List.cons_ne_nil _ _, name :: path, List.mem_map_of_mem hpath,
          List.cons_prefix_cons.2 ⟨rfl, hrest⟩⟩

/-- What is expanded on the way to the leaves is all that is expanded. -/
theorem mem_chains_iff (forest : List Expansion) (chain : List (List Char)) :
    chain ∈ chains forest ↔ OnTheWay forest chain := by
  induction forest using forest_induction generalizing chain with
  | nil => simp [chains, OnTheWay, leafPaths, placesAll]
  | cons name o below rest hbelow hrest =>
    rw [chains_cons, List.mem_append, onTheWay_cons, hrest, chains_node, List.mem_cons,
      List.mem_map, onTheWay_node]
    simp only [hbelow, and_comm, eq_comm]

theorem leafPaths_chain {below : List Expansion} (h : Expansion.chain o below segments = .ok x) :
    leafPaths [x] =
      if below.isEmpty then [segments] else (leafPaths below).map (segments ++ ·) := by
  induction segments generalizing x with
  | nil => contradiction
  | cons segment rest ih =>
    cases rest with
    | nil =>
      obtain rfl := Except.ok.inj h
      exact leafPaths_node
    | cons next rest =>
      obtain ⟨inner, hinner, rfl⟩ := Except.map_eq_ok.1 h
      have hfalse : [inner].isEmpty = false := rfl
      rw [leafPaths_node, hfalse, ih hinner]
      cases below with
      | nil => rfl
      | cons e below => simp

theorem selections_chain {below : List Expansion} (h : Expansion.chain o below segments = .ok x) :
    selections [x] = (o.select.map fun field ↦ (segments, field)) ++
      (selections below).map fun s ↦ (segments ++ s.1, s.2) := by
  induction segments generalizing x with
  | nil => contradiction
  | cons segment rest ih =>
    cases rest with
    | nil =>
      obtain rfl := Except.ok.inj h
      exact selections_node
    | cons next rest =>
      obtain ⟨inner, hinner, rfl⟩ := Except.map_eq_ok.1 h
      rw [selections_node, ih hinner]
      simp [Function.comp_def]

theorem path_ne_nil (forest : List Expansion) : ∀ place ∈ placesAll forest, place.1 ≠ [] := by
  induction forest using forest_induction with
  | nil => nofun
  | cons name o below rest _ hrest =>
    rw [placesAll, List.forall_mem_append, places, List.forall_mem_cons, List.forall_mem_map]
    exact ⟨⟨List.cons_ne_nil _ _, fun _ _ ↦ List.cons_ne_nil _ _⟩, hrest⟩

theorem leafPath_ne_nil {path : List (List Char)} (h : path ∈ leafPaths forest) : path ≠ [] := by
  obtain ⟨place, hplace, rfl⟩ := List.mem_map.1 h
  exact path_ne_nil forest place (List.mem_of_mem_filter hplace)

theorem selection_ne_nil {s : List (List Char) × List Char} (h : s ∈ selections forest) :
    s.1 ≠ [] := by
  obtain ⟨place, hplace, hs⟩ := List.mem_flatMap.1 h
  obtain ⟨field, -, rfl⟩ := List.mem_map.1 hs
  exact path_ne_nil forest place hplace

end Expansion

namespace Formatting

open Expansion

variable {f : Formatting} {collection target : Option String} {above : List Char}
  {segments path : List (List Char)} {es : List Expand}

theorem flatPath_ne_nil (hs : segments ≠ []) (hn : ∀ segment ∈ segments, segment ≠ []) :
    flatPath above segments ≠ [] := by
  obtain ⟨segment, rest, rfl⟩ := List.exists_cons_of_ne_nil hs
  obtain ⟨tail, htail⟩ := Text.exists_intercalate_cons '/' segment rest
  rw [flatPath]
  split
  · rw [htail]
    exact List.append_ne_nil_of_left_ne_nil (hn segment List.mem_cons_self) _
  · exact List.append_ne_nil_of_right_ne_nil _ (List.cons_ne_nil _ _)

/-- A path below another one goes on from it. -/
theorem flatPath_append (hs : segments ≠ []) (hn : ∀ segment ∈ segments, segment ≠ [])
    (hp : path ≠ []) :
    flatPath above (segments ++ path) = flatPath (flatPath above segments) path := by
  have hjoin : flatPath above (segments ++ path) =
      flatPath above segments ++ '/' :: List.intercalate ['/'] path := by
    unfold flatPath
    rw [Text.intercalate_append hs hp]
    split <;> simp
  have hbelow : flatPath (flatPath above segments) path =
      flatPath above segments ++ '/' :: List.intercalate ['/'] path :=
    if_neg (flatPath_ne_nil hs hn)
  rw [hjoin, hbelow]

/-- The paths of a forest in the older dialect, and the selected fields behind theirs. -/
def flatTexts (above : List Char) (forest : List Expansion) : List (List Char) × List (List Char) :=
  ((leafPaths forest).map (flatPath above),
    (selections forest).map fun s ↦ flatPath above s.1 ++ '/' :: s.2)

theorem flatTexts_cons (above : List Char) (x : Expansion) (forest : List Expansion) :
    flatTexts above (x :: forest) =
      ((flatTexts above [x]).1 ++ (flatTexts above forest).1,
        (flatTexts above [x]).2 ++ (flatTexts above forest).2) := by
  rw [flatTexts, leafPaths_cons, selections_cons, List.map_append, List.map_append]
  rfl

def textsBelow (above : List Char) (forest : List Expansion) : List (List Char) × List (List Char) :=
  if forest.isEmpty then ([above], []) else flatTexts above forest

theorem flatTexts_chain {o : ExactOptions} {below : List Expansion} {x : Expansion}
    (hs : segments ≠ []) (hn : ∀ segment ∈ segments, segment ≠ [])
    (h : Expansion.chain o below segments = .ok x) :
    flatTexts above [x] =
      ((textsBelow (flatPath above segments) below).1,
        o.select.map (flatPath above segments ++ '/' :: ·) ++
          (textsBelow (flatPath above segments) below).2) := by
  rw [flatTexts, leafPaths_chain h, selections_chain h, textsBelow]
  cases hempty : below.isEmpty with
  | true =>
    obtain rfl := List.isEmpty_iff.1 hempty
    simp [selections, placesAll]
  | false =>
    have hpaths : ∀ path ∈ leafPaths below,
        flatPath above (segments ++ path) = flatPath (flatPath above segments) path :=
      fun path hpath ↦ flatPath_append hs hn (leafPath_ne_nil hpath)
    have hselections : ∀ s ∈ selections below,
        flatPath above (segments ++ s.1) = flatPath (flatPath above segments) s.1 :=
      fun s hs' ↦ flatPath_append hs hn (selection_ne_nil hs')
    rw [if_neg Bool.false_ne_true, if_neg Bool.false_ne_true, List.map_map, List.map_append,
      List.map_map, List.map_map]
    have hfields : ∀ s ∈ selections below, flatPath above (segments ++ s.1) ++ '/' :: s.2 =
        flatPath (flatPath above segments) s.1 ++ '/' :: s.2 :=
      fun s hs' ↦ congrArg (· ++ '/' :: s.2) (hselections s hs')
    exact congrArg₂ Prod.mk (List.map_congr_left hpaths)
      (congrArg (_ ++ ·) (List.map_congr_left hfields))

theorem flatExpands_eq_map
    (h : ∀ e ∈ es, f.flatExpand collection above e =
      (f.expansion collection e).map fun x ↦ flatTexts above [x]) :
    f.flatExpands collection above es = (f.expansions collection es).map (flatTexts above) := by
  induction es with
  | nil => rfl
  | cons e es ih =>
    obtain ⟨hfirst, hrest⟩ := List.forall_mem_cons.1 h
    rw [flatExpands, expansions, hfirst, ih hrest]
    cases f.expansion collection e with
    | error => rfl
    | ok x =>
      cases f.expansions collection es with
      | error => rfl
      | ok forest => exact congrArg Except.ok (flatTexts_cons above x forest).symm

theorem flatBelow_eq_map
    (h : ∀ e ∈ es, f.flatExpand target above e =
      (f.expansion target e).map fun x ↦ flatTexts above [x]) :
    f.flatBelow target above es = (f.expansions target es).map (textsBelow above) := by
  cases es with
  | nil => rfl
  | cons e es =>
    rw [flatBelow, if_neg (List.cons_ne_nil _ _), flatExpands_eq_map h, expansions]
    cases f.expansion target e with
    | error => rfl
    | ok x => cases f.expansions target es <;> rfl

variable (f)

/-- The same formatting in another dialect. -/
def inVersion (version : Version) : Formatting :=
  { f with version }

/-- In every dialect that resolves it, the name is an identifier or the asterisk. -/
def SelectsField (target : Option String) (name : String) : Prop :=
  ∀ version text, (f.inVersion version).selected target name = .ok text → IsPlainName text

/-- An expanded navigation that asks for fields and for what is expanded below it, and for nothing
else. Its path is not empty, and its names are identifiers where they are resolved. -/
inductive SelectsFields : Option String → Expand → Prop
  | node {collection : Option String} {path : String} {options : ExpandOptions}
    {nested : List Expand} (hpath : pathSegments path ≠ []) (hfilter : options.filter = none)
    (horder : options.orderBy = []) (htop : options.top = none)
    (hsegments : ∀ segments target,
      f.navigationPath collection (pathSegments path) = .ok (segments, target) →
        ∀ segment ∈ segments, isIdentifier segment)
    (hselect : ∀ segments target,
      f.navigationPath collection (pathSegments path) = .ok (segments, target) →
        ∀ name ∈ options.select, f.SelectsField target name)
    (hnested : ∀ segments target,
      f.navigationPath collection (pathSegments path) = .ok (segments, target) →
        ∀ e ∈ nested, SelectsFields target e) :
    SelectsFields collection (.node path options nested)

variable {f}

theorem exactOptions_of_select {o : ExpandOptions} (hfilter : o.filter = none)
    (horder : o.orderBy = []) (htop : o.top = none) :
    f.exactOptions target o =
      (o.select.mapM (f.selected target)).map fun fields ↦ { select := fields } := by
  rw [exactOptions, hfilter, horder, htop]
  cases o.select.mapM (f.selected target) <;> rfl

theorem navigationPath_ne_nil {names : List (List Char)} (hne : names ≠ [])
    (h : f.navigationPath collection names = .ok (segments, target)) : segments ≠ [] := by
  obtain ⟨name, names, rfl⟩ := List.exists_cons_of_ne_nil hne
  cases collection with
  | none =>
    obtain ⟨⟨rest, _⟩, -, h⟩ := Except.bind_eq_ok.1 h
    obtain ⟨rfl, -⟩ := Prod.mk.inj (Except.ok.inj h)
    exact List.cons_ne_nil _ _
  | some collection =>
    obtain ⟨exact, -, h⟩ := Except.bind_eq_ok.1 h
    obtain ⟨next, -, h⟩ := Except.bind_eq_ok.1 h
    obtain ⟨⟨rest, _⟩, -, h⟩ := Except.bind_eq_ok.1 h
    obtain ⟨rfl, -⟩ := Prod.mk.inj (Except.ok.inj h)
    exact List.cons_ne_nil _ _

theorem exists_chain (o : ExactOptions) (below : List Expansion) (hs : segments ≠ []) :
    ∃ x, Expansion.chain o below segments = .ok x := by
  induction segments with
  | nil => contradiction
  | cons segment rest ih =>
    cases rest with
    | nil => exact ⟨_, rfl⟩
    | cons next rest =>
      obtain ⟨inner, hinner⟩ := ih (List.cons_ne_nil _ _)
      exact ⟨_, Except.map_eq_ok.2 ⟨inner, hinner, rfl⟩⟩

/-- The older dialect writes the paths of an expanded navigation from its exact names. -/
theorem SelectsFields.flatExpand_eq_map {e : Expand} (h : f.SelectsFields collection e) :
    f.flatExpand collection above e =
      (f.expansion collection e).map fun x ↦ flatTexts above [x] := by
  induction h generalizing above with
  | @node collection path options nested hpath hfilter horder htop hsegments _ _ ih =>
    rw [flatExpand_eq, expansion]
    cases hnavigation : f.navigationPath collection (pathSegments path) with
    | error => rfl
    | ok answer =>
      obtain ⟨segments, target⟩ := answer
      have hs := navigationPath_ne_nil hpath hnavigation
      have hn : ∀ segment ∈ segments, segment ≠ [] := fun segment hsegment ↦
        ne_nil_of_isIdentifier (hsegments segments target hnavigation segment hsegment)
      have hbelow : f.flatBelow target (flatPath above segments) nested =
          (f.expansions target nested).map (textsBelow (flatPath above segments)) :=
        flatBelow_eq_map fun e he ↦ ih segments target hnavigation e he
      show (do
        let selected ← options.select.mapM (f.selected target)
        let below ← f.flatBelow target (flatPath above segments) nested
        return (below.1, selected.map (flatPath above segments ++ '/' :: ·) ++ below.2)) =
          (do
            let exact ← f.exactOptions target options
            let below ← f.expansions target nested
            Expansion.chain exact below segments).map fun x ↦ flatTexts above [x]
      rw [exactOptions_of_select hfilter horder htop, hbelow]
      cases options.select.mapM (f.selected target) with
      | error => rfl
      | ok fields =>
        cases f.expansions target nested with
        | error => rfl
        | ok below =>
          obtain ⟨x, hx⟩ := exists_chain { select := fields } below hs
          show _ = (Expansion.chain { select := fields } below segments).map _
          rw [hx]
          exact congrArg Except.ok (flatTexts_chain hs hn hx).symm

end Formatting

end OData
