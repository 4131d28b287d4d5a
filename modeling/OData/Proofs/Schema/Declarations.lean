import Mathlib.Data.List.Induction
import Mathlib.Data.List.Perm.Basic
import OData.Proofs.Schema.Names

/-!
Schemas as they are built, by one declaration after the other. A collection is declared unless its name
leads to another one, and what is declared of a collection that is there is kept; so a declaration is
found again just where no other name stands in its way.
-/

namespace OData

/-- A step in building a schema. -/
inductive Declaration
  | collection (name : String)
  | field (owner name : String) (kind : FieldKind)
  | navigation (owner name target : String) (multivalued : Bool)
  | function (name : String)
  deriving DecidableEq

namespace Declaration

/-- The collection that is declared, or that has what is declared. -/
def collection? : Declaration → Option String
  | collection name => some name
  | field owner _ _ => some owner
  | navigation owner _ _ _ => some owner
  | function _ => none

def fieldOf? (c : String) : Declaration → Option (String × FieldKind)
  | field owner name kind => if owner = c then some (name, kind) else none
  | _ => none

def navigationOf? (c : String) : Declaration → Option Navigation
  | navigation owner name target multivalued =>
    if owner = c then some ⟨name, target, multivalued⟩ else none
  | _ => none

/-- What becomes of a collection that is there. -/
def extend (d : Declaration) (c : EntitySet) : EntitySet :=
  { c with
    fields := c.fields ++ (d.fieldOf? c.name).toList
    navigations := c.navigations ++ (d.navigationOf? c.name).toList }

variable {d : Declaration} {c : String}

theorem fieldOf?_eq_some {f : String × FieldKind} : d.fieldOf? c = some f ↔ d = field c f.1 f.2 := by
  cases d with
  | field owner name kind => simp [fieldOf?, Prod.ext_iff]
  | collection | navigation | function => simp [fieldOf?]

theorem navigationOf?_eq_some {n : Navigation} :
    d.navigationOf? c = some n ↔ d = navigation c n.name n.target n.multivalued := by
  obtain ⟨name, target, multivalued⟩ := n
  cases d with
  | navigation => simp [navigationOf?]
  | collection | field | function => simp [navigationOf?]

theorem fieldOf?_eq_none (h : d.collection? ≠ some c) : d.fieldOf? c = none := by
  refine Option.eq_none_iff_forall_ne_some.2 fun f hf ↦ h ?_
  rw [fieldOf?_eq_some.1 hf, collection?]

theorem navigationOf?_eq_none (h : d.collection? ≠ some c) : d.navigationOf? c = none := by
  refine Option.eq_none_iff_forall_ne_some.2 fun n hn ↦ h ?_
  rw [navigationOf?_eq_some.1 hn, collection?]

theorem extend_of_ne {c : EntitySet} (h : d.collection? ≠ some c.name) : d.extend c = c := by
  rw [extend, fieldOf?_eq_none h, navigationOf?_eq_none h]
  simp

end Declaration

namespace Schema

def declare (s : Schema) : Declaration → Schema
  | .collection name => s.addCollection name
  | .field owner name kind => s.addField owner name kind
  | .navigation owner name target multivalued => s.addNavigation owner name target multivalued
  | .function name => s.addFunction name

/-- The schema that declarations build, from the first to the last. -/
def ofDeclarations (space : String) (ds : List Declaration) : Schema :=
  ds.foldl declare (empty space)

/-- The schema in which a declaration looks for its collection. -/
def withCollection (s : Schema) (d : Declaration) : Schema :=
  d.collection?.elim s s.addCollection

variable {s : Schema} {d : Declaration} {ds before after : List Declaration} {name c space : String}

/-! ### One declaration -/

theorem changeFirst_eq_map {α : Type} {key : α → String} {f : α → α} {items : List α}
    (h : (items.map key).Nodup) :
    changeFirst (fun a ↦ key a = name) f items =
      items.map fun a ↦ if key a = name then f a else a := by
  induction items with
  | nil => rfl
  | cons a rest ih =>
    obtain ⟨ha, hrest⟩ := List.nodup_cons.1 h
    rw [changeFirst, List.map_cons]
    by_cases hname : key a = name
    · have hothers : ∀ b ∈ rest, (if key b = name then f b else b) = b := by
        intro b hb
        refine if_neg fun heq ↦ ha ?_
        rw [hname, ← heq]
        exact List.mem_map_of_mem hb
      rw [if_pos (decide_eq_true hname), if_pos hname, List.map_congr_left hothers, List.map_id']
    · rw [if_neg (by simpa using hname), if_neg hname, ih hrest]

theorem names_addCollection : (s.addCollection name).names =
    if (s.findCollection? name).isSome then s.names else s.names ++ [name] := by
  rw [addCollection]
  split
  · rfl
  · rw [names, names, List.map_append, List.map_singleton]

theorem nodup_addCollection (h : s.names.Nodup) (name : String) :
    (s.addCollection name).names.Nodup := by
  rw [names_addCollection]
  split
  · exact h
  · rename_i hnone
    have hname : name ∉ s.names := fun hmem ↦
      hnone (isSome_findCollection?.2 ⟨name, hmem, .inl rfl⟩)
    refine List.nodup_append.2 ⟨h, by simp, fun other hother exact hexact heq ↦ ?_⟩
    obtain rfl := List.mem_singleton.1 hexact
    exact hname (heq ▸ hother)

/-- A declaration extends its collection, and leaves the others as they are. -/
theorem collections_declare (h : s.names.Nodup) (d : Declaration) :
    (s.declare d).collections = (s.withCollection d).collections.map d.extend := by
  have hextend : ∀ {owner : String} {f : EntitySet → EntitySet},
      d.collection? = some owner → (∀ c, c.name = owner → f c = d.extend c) →
      ((s.addCollection owner).changeCollection owner f).collections =
        (s.addCollection owner).collections.map d.extend := by
    intro owner f howner hf
    refine (changeFirst_eq_map (nodup_addCollection h owner)).trans (List.map_congr_left fun c _ ↦ ?_)
    split
    · rename_i hc
      exact hf c hc
    · rename_i hc
      exact (Declaration.extend_of_ne fun heq ↦ hc (Option.some.inj (heq.symm.trans howner))).symm
  cases d with
  | collection name =>
    have hsame : ∀ c : EntitySet, (Declaration.collection name).extend c = c := fun c ↦ by
      simp [Declaration.extend, Declaration.fieldOf?, Declaration.navigationOf?]
    rw [funext hsame]
    exact (List.map_id' _).symm
  | function name =>
    have hsame : (s.declare (.function name)).collections = s.collections := by
      rw [declare, addFunction]
      split <;> rfl
    rw [hsame, funext fun c ↦ Declaration.extend_of_ne (d := .function name) (c := c) nofun]
    exact (List.map_id' _).symm
  | field owner name kind =>
    refine hextend rfl fun c hc ↦ ?_
    simp [Declaration.extend, Declaration.fieldOf?, Declaration.navigationOf?, hc]
  | navigation owner name target multivalued =>
    refine hextend rfl fun c hc ↦ ?_
    simp [Declaration.extend, Declaration.fieldOf?, Declaration.navigationOf?, hc]

theorem names_withCollection : (s.withCollection d).names =
    match d.collection? with
    | some owner => if (s.findCollection? owner).isSome then s.names else s.names ++ [owner]
    | none => s.names := by
  rw [withCollection]
  cases d.collection? with
  | some owner => exact names_addCollection
  | none => rfl

theorem nodup_withCollection (h : s.names.Nodup) (d : Declaration) :
    (s.withCollection d).names.Nodup := by
  rw [withCollection]
  cases d.collection? with
  | some owner => exact nodup_addCollection h owner
  | none => exact h

theorem names_declare (h : s.names.Nodup) (d : Declaration) :
    (s.declare d).names = (s.withCollection d).names := by
  rw [names, collections_declare h, List.map_map]
  rfl

theorem mem_collections_withCollection {k : EntitySet} (h : k ∈ (s.withCollection d).collections) :
    k ∈ s.collections ∨
      ∃ owner, d.collection? = some owner ∧ s.findCollection? owner = none ∧ k = ⟨owner, [], []⟩ := by
  rw [withCollection] at h
  cases howner : d.collection? with
  | none =>
    rw [howner] at h
    exact .inl h
  | some owner =>
    rw [howner, Option.elim_some, addCollection] at h
    split at h
    · exact .inl h
    · rename_i hnone
      rcases List.mem_append.1 h with h | h
      · exact .inl h
      · exact .inr ⟨owner, rfl, Option.not_isSome_iff_eq_none.1 hnone, List.mem_singleton.1 h⟩

theorem functions_addCollection (s : Schema) (owner : String) :
    (s.addCollection owner).functions = s.functions := by
  rw [addCollection]
  split <;> rfl

theorem mem_functions_declare {f : String} :
    f ∈ (s.declare d).functions ↔ f ∈ s.functions ∨ d = .function f := by
  cases d with
  | function name =>
    rw [declare, addFunction, Declaration.function.injEq]
    split
    · rename_i hname
      exact ⟨.inl, fun h ↦ h.elim id (· ▸ hname)⟩
    · rw [List.mem_append, List.mem_singleton, eq_comm]
  | collection name =>
    simp [declare, functions_addCollection]
  | field owner name kind =>
    simp [declare, addField, changeCollection, functions_addCollection]
  | navigation owner name target multivalued =>
    simp [declare, addNavigation, changeCollection, functions_addCollection]

theorem space_declare (s : Schema) (d : Declaration) : (s.declare d).space = s.space := by
  have hadd : ∀ owner, (s.addCollection owner).space = s.space := by
    intro owner
    rw [addCollection]
    split <;> rfl
  cases d with
  | function name =>
    rw [declare, addFunction]
    split <;> rfl
  | collection name => exact hadd name
  | field owner name kind => exact hadd owner
  | navigation owner name target multivalued => exact hadd owner

/-! ### Declarations in a row -/

/-- A schema has what is declared of its collections, in the order of the declarations. -/
structure Records (s : Schema) (ds : List Declaration) : Prop where
  nodup : s.names.Nodup
  known : ∀ d ∈ ds, ∀ owner, d.collection? = some owner → (s.findCollection? owner).isSome
  fields : ∀ c ∈ s.collections, c.fields = ds.filterMap (·.fieldOf? c.name)
  navigations : ∀ c ∈ s.collections, c.navigations = ds.filterMap (·.navigationOf? c.name)
  functions : ∀ f, f ∈ s.functions ↔ .function f ∈ ds

/-- A name that leads somewhere goes on to do so. -/
theorem isSome_findCollection?_declare (hs : s.names.Nodup) (h : (s.findCollection? name).isSome) :
    ((s.declare d).findCollection? name).isSome := by
  rw [isSome_findCollection?] at h ⊢
  obtain ⟨exact, hexact, hleads⟩ := h
  refine ⟨exact, ?_, hleads⟩
  rw [names_declare hs, names_withCollection]
  split
  · split
    · exact hexact
    · exact List.mem_append_left _ hexact
  · exact hexact

theorem isSome_findCollection?_of_declare (hs : s.names.Nodup) (h : d.collection? = some name) :
    ((s.declare d).findCollection? name).isSome := by
  cases hname : (s.findCollection? name).isSome with
  | true => exact isSome_findCollection?_declare hs hname
  | false =>
    rw [isSome_findCollection?, names_declare hs, names_withCollection, h]
    refine ⟨name, ?_, .inl rfl⟩
    simp [hname]

/-- A collection that is new has nothing that was declared of it before. -/
theorem Records.withCollection (h : s.Records ds) {k : EntitySet}
    (hk : k ∈ (s.withCollection d).collections) :
    k.fields = ds.filterMap (·.fieldOf? k.name) ∧
      k.navigations = ds.filterMap (·.navigationOf? k.name) := by
  rcases mem_collections_withCollection hk with hk | ⟨owner, -, hnone, rfl⟩
  · exact ⟨h.fields k hk, h.navigations k hk⟩
  · have hnew : ∀ d' ∈ ds, d'.collection? ≠ some owner := by
      intro d' hd' howner
      have hsome := h.known d' hd' owner howner
      rw [hnone] at hsome
      contradiction
    constructor
    · exact (List.filterMap_eq_nil_iff.2 fun d' hd' ↦
        Declaration.fieldOf?_eq_none (hnew d' hd')).symm
    · exact (List.filterMap_eq_nil_iff.2 fun d' hd' ↦
        Declaration.navigationOf?_eq_none (hnew d' hd')).symm

theorem filterMap_concat {α β : Type} (f : α → Option β) (as : List α) (a : α) :
    (as ++ [a]).filterMap f = as.filterMap f ++ (f a).toList := by
  rw [List.filterMap_append, List.filterMap_cons, List.filterMap_nil]
  cases f a <;> rfl

theorem Records.declare (h : s.Records ds) (d : Declaration) : (s.declare d).Records (ds ++ [d]) where
  nodup := names_declare h.nodup d ▸ nodup_withCollection h.nodup d
  known := by
    intro d' hd' owner howner
    rcases List.mem_append.1 hd' with hd' | hd'
    · exact isSome_findCollection?_declare h.nodup (h.known d' hd' owner howner)
    · obtain rfl := List.mem_singleton.1 hd'
      exact isSome_findCollection?_of_declare h.nodup howner
  fields := by
    intro c hc
    rw [collections_declare h.nodup] at hc
    obtain ⟨k, hk, rfl⟩ := List.mem_map.1 hc
    rw [filterMap_concat, Declaration.extend]
    exact congrArg (· ++ _) (h.withCollection hk).1
  navigations := by
    intro c hc
    rw [collections_declare h.nodup] at hc
    obtain ⟨k, hk, rfl⟩ := List.mem_map.1 hc
    rw [filterMap_concat, Declaration.extend]
    exact congrArg (· ++ _) (h.withCollection hk).2
  functions := by
    intro f
    rw [mem_functions_declare, h.functions, List.mem_append, List.mem_singleton, eq_comm (a := d)]

theorem ofDeclarations_append (space : String) (ds more : List Declaration) :
    ofDeclarations space (ds ++ more) = more.foldl Schema.declare (ofDeclarations space ds) :=
  List.foldl_append

theorem records_ofDeclarations (space : String) (ds : List Declaration) :
    (ofDeclarations space ds).Records ds := by
  induction ds using List.reverseRecOn with
  | nil =>
    constructor
    case nodup => exact List.nodup_nil
    all_goals simp [ofDeclarations, empty]
  | append_singleton ds d ih =>
    rw [ofDeclarations_append]
    exact ih.declare d

theorem space_ofDeclarations (space : String) (ds : List Declaration) :
    (ofDeclarations space ds).space = space := by
  induction ds using List.reverseRecOn with
  | nil => rfl
  | append_singleton ds d ih =>
    rw [ofDeclarations_append]
    exact (space_declare _ d).trans ih

/-! ### Looking declarations up -/

theorem Records.field_eq_ok (h : s.Records ds) : s.resolver.field c name = .ok name ↔
    ∃ exact kind, s.resolver.collection c = .ok exact ∧ .field exact name kind ∈ ds := by
  have hfields : ∀ k, s.findCollection? c = some k →
      ((findByName Prod.fst name k.fields).map Prod.fst = some name ↔
        ∃ kind, .field k.name name kind ∈ ds) := by
    intro k hk
    rw [map_findByName_eq_some, h.fields k (mem_of_findByName hk)]
    simp [Declaration.fieldOf?_eq_some]
  simp only [resolver_field_eq_ok, resolver_collection_eq_ok]
  constructor
  · rintro ⟨k, hk, hname⟩
    obtain ⟨kind, hmem⟩ := (hfields k hk).1 hname
    exact ⟨k.name, kind, ⟨k, hk, rfl⟩, hmem⟩
  · rintro ⟨exact, kind, ⟨k, hk, rfl⟩, hmem⟩
    exact ⟨k, hk, (hfields k hk).2 ⟨kind, hmem⟩⟩

theorem Records.navigation_eq_ok (h : s.Records ds) : s.resolver.navigation c name = .ok name ↔
    ∃ exact target multivalued, s.resolver.collection c = .ok exact ∧
      .navigation exact name target multivalued ∈ ds := by
  have hnavigations : ∀ k, s.findCollection? c = some k →
      ((findByName Navigation.name name k.navigations).map Navigation.name = some name ↔
        ∃ target multivalued, .navigation k.name name target multivalued ∈ ds) := by
    intro k hk
    rw [map_findByName_eq_some, h.navigations k (mem_of_findByName hk)]
    simp only [List.mem_map, List.mem_filterMap, Declaration.navigationOf?_eq_some]
    constructor
    · rintro ⟨n, ⟨d, hd, rfl⟩, rfl⟩
      exact ⟨n.target, n.multivalued, hd⟩
    · rintro ⟨target, multivalued, hd⟩
      exact ⟨⟨name, target, multivalued⟩, ⟨_, hd, rfl⟩, rfl⟩
  simp only [resolver_navigation_eq_ok, resolver_collection_eq_ok]
  constructor
  · rintro ⟨k, hk, hname⟩
    obtain ⟨target, multivalued, hmem⟩ := (hnavigations k hk).1 hname
    exact ⟨k.name, target, multivalued, ⟨k, hk, rfl⟩, hmem⟩
  · rintro ⟨exact, target, multivalued, ⟨k, hk, rfl⟩, hmem⟩
    exact ⟨k, hk, (hnavigations k hk).2 ⟨target, multivalued, hmem⟩⟩

/-- Whatever order the functions are in, one is found just where no other name differs from its own in
case only. -/
theorem function_eq_ok_of_perm (hname : name ∈ s.functions) :
    (∀ functions : List String, functions.Perm s.functions →
        { s with functions := functions }.resolver.function name = .ok (s.qualified name)) ↔
      ∀ f ∈ s.functions, Text.sameIgnoringCase f name → f = name := by
  constructor
  · intro h f hf hsame
    have hfirst := h (f :: s.functions.erase f) (List.perm_cons_erase hf).symm
    have hfunction : { s with functions := f :: s.functions.erase f }.resolver.function name =
        .ok (s.qualified f) := by
      simp only [resolver, Schema.function, List.find?_cons, hsame]
      rfl
    exact (String.append_right_inj _).1 (Except.ok.inj (hfunction.symm.trans hfirst))
  · intro h functions hperm
    have hsome : (functions.find? fun f ↦ Text.sameIgnoringCase f name).isSome :=
      List.find?_isSome.2 ⟨name, hperm.mem_iff.2 hname, Text.sameIgnoringCase_iff.2 rfl⟩
    obtain ⟨f, hf⟩ := Option.isSome_iff_exists.1 hsome
    obtain rfl := h f (hperm.mem_iff.1 (List.mem_of_find?_eq_some hf))
      (List.find?_some (p := fun f ↦ Text.sameIgnoringCase f name) hf)
    simp only [resolver, Schema.function, hf]
    rfl

/-- Once a name leads to a collection, it is settled whether there will be one of this name. -/
theorem mem_names_foldl (hs : s.names.Nodup) (h : (s.findCollection? name).isSome) :
    name ∈ (ds.foldl Schema.declare s).names ↔ name ∈ s.names := by
  induction ds generalizing s with
  | nil => rfl
  | cons d rest ih =>
    have hnodup : (s.declare d).names.Nodup := names_declare hs d ▸ nodup_withCollection hs d
    rw [List.foldl_cons, ih hnodup (isSome_findCollection?_declare hs h), names_declare hs,
      names_withCollection]
    split
    · rename_i owner _
      split
      · rfl
      · rename_i hnone
        rw [List.mem_append, List.mem_singleton]
        exact ⟨fun hmem ↦ hmem.resolve_right fun heq ↦ hnone (heq ▸ h), .inl⟩
    · rfl

/-- A name is free, or it leads to the collection that has it. -/
def Admits (s : Schema) (name : String) : Prop :=
  ∀ exact, s.resolver.collection name = .ok exact → exact = name

theorem collection_eq_ok_iff_admits (h : d.collection? = some name) :
    (ofDeclarations space (before ++ d :: after)).resolver.collection name = .ok name ↔
      (ofDeclarations space before).Admits name := by
  have hbefore := records_ofDeclarations space before
  have hsome := isSome_findCollection?_of_declare hbefore.nodup h
  rw [resolver_collection_self, ofDeclarations_append, List.foldl_cons,
    mem_names_foldl (hbefore.declare d).nodup hsome, names_declare hbefore.nodup,
    names_withCollection, h]
  dsimp only
  split
  · rename_i hknown
    obtain ⟨k, hk⟩ := Option.isSome_iff_exists.1 hknown
    have hexact : (ofDeclarations space before).resolver.collection name = .ok k.name :=
      resolver_collection_eq_ok.2 ⟨k, hk, rfl⟩
    rw [← resolver_collection_self, Admits, hexact, Except.ok.injEq]
    exact ⟨fun heq exact h ↦ (Except.ok.inj h).symm.trans heq, fun h ↦ h k.name rfl⟩
  · rename_i hnone
    have hadmits : (ofDeclarations space before).Admits name := by
      intro exact hexact
      obtain ⟨k, hk, -⟩ := resolver_collection_eq_ok.1 hexact
      exact absurd (Option.isSome_of_eq_some hk) hnone
    simp [hadmits]

/-- The schema of some declarations finds one in its exact spelling; a function, whatever order the
functions are in. -/
def Finds (space : String) (ds : List Declaration) : Declaration → Prop
  | .collection name => (ofDeclarations space ds).resolver.collection name = .ok name
  | .field owner name _ => (ofDeclarations space ds).resolver.field owner name = .ok name
  | .navigation owner name _ _ => (ofDeclarations space ds).resolver.navigation owner name = .ok name
  | .function name => ∀ functions : List String, functions.Perm (ofDeclarations space ds).functions →
      { ofDeclarations space ds with functions := functions }.resolver.function name =
        .ok (space ++ "." ++ name)

/-- What a declaration needs of those before it and of them all to be found. -/
def Allows (space : String) (before ds : List Declaration) : Declaration → Prop
  | .collection name => (ofDeclarations space before).Admits name
  | .field owner name _ => ∃ exact kind,
      (ofDeclarations space ds).resolver.collection owner = .ok exact ∧ .field exact name kind ∈ ds
  | .navigation owner name _ _ => ∃ exact target multivalued,
      (ofDeclarations space ds).resolver.collection owner = .ok exact ∧
        .navigation exact name target multivalued ∈ ds
  | .function name => ∀ f, .function f ∈ ds → Text.sameIgnoringCase f name → f = name

/-- A declaration is found in the end just where nothing stood in its way. A collection is if its name
was free when it was declared, or led to itself; and then so is all that is declared of it there. What is
declared of a collection whose name leads to another one is lost, unless the other one has the same; and a
function may be lost to one whose name differs from its own in case only. -/
theorem finds_iff_allows (space : String) (before after : List Declaration) (d : Declaration) :
    (Finds space (before ++ d :: after) d ↔ Allows space before (before ++ d :: after) d) ∧
      ∀ owner, d.collection? = some owner → (ofDeclarations space before).Admits owner →
        Finds space (before ++ d :: after) (.collection owner) ∧ Finds space (before ++ d :: after) d := by
  have hrecords := records_ofDeclarations space (before ++ d :: after)
  have hmem : d ∈ before ++ d :: after := List.mem_append_right _ (List.mem_cons_self ..)
  have hfinds : Finds space (before ++ d :: after) d ↔
      Allows space before (before ++ d :: after) d := by
    cases d with
    | collection name => exact collection_eq_ok_iff_admits rfl
    | field owner name kind => exact hrecords.field_eq_ok
    | navigation owner name target multivalued => exact hrecords.navigation_eq_ok
    | function name =>
      have hqualified : (ofDeclarations space (before ++ .function name :: after)).qualified name =
          space ++ "." ++ name := by
        rw [qualified, space_ofDeclarations]
      have hfunction := function_eq_ok_of_perm ((hrecords.functions name).2 hmem)
      rw [hqualified] at hfunction
      simp only [hrecords.functions] at hfunction
      exact hfunction
  refine ⟨hfinds, fun owner howner hadmits ↦ ?_⟩
  have hself : Finds space (before ++ d :: after) (.collection owner) :=
    (collection_eq_ok_iff_admits howner).2 hadmits
  refine ⟨hself, hfinds.2 ?_⟩
  cases d with
  | collection name =>
    obtain rfl := Option.some.inj howner
    exact hadmits
  | field owner' name kind =>
    obtain rfl := Option.some.inj howner
    exact ⟨owner', kind, hself, hmem⟩
  | navigation owner' name target multivalued =>
    obtain rfl := Option.some.inj howner
    exact ⟨owner', target, multivalued, hself, hmem⟩
  | function name => contradiction

/-- Products with a number, and a product with a name. -/
def ofProducts : List Declaration :=
  [.field "Products" "ID" .other, .field "Product" "Name" .string]

theorem collection_ofProducts :
    (ofDeclarations "NS" ofProducts).resolver.collection "Product" = .ok "Products" := by
  rfl

theorem finds_iff_allows_products :
    Finds "NS" ofProducts (.field "Products" "ID" .other) ∧
      ¬ Finds "NS" ofProducts (.field "Product" "Name" .string) := by
  constructor
  · have hempty : (ofDeclarations "NS" []).Admits "Products" := nofun
    exact ((finds_iff_allows "NS" [] [.field "Product" "Name" .string]
      (.field "Products" "ID" .other)).2 "Products" rfl hempty).2
  · intro hfound
    obtain ⟨exact, kind, hexact, hmem⟩ := (finds_iff_allows "NS" [.field "Products" "ID" .other] []
      (.field "Product" "Name" .string)).1.1 hfound
    obtain rfl := Except.ok.inj (hexact.symm.trans collection_ofProducts)
    simp at hmem

/-- What is declared of a product is lost where there are products. -/
theorem not_finds_declared : ¬ ∀ (space : String) (ds : List Declaration), ∀ d ∈ ds,
    Finds space ds d := by
  intro hall
  have hfound : (ofDeclarations "NS" ofProducts).resolver.field "Product" "Name" = .ok "Name" :=
    hall "NS" ofProducts (.field "Product" "Name" .string) (by decide)
  have hlost : (ofDeclarations "NS" ofProducts).resolver.field "Product" "Name" =
      .error ⟨"Products.Name"⟩ := by
    rfl
  rw [hlost] at hfound
  contradiction

end Schema
end OData
