import OData.Format.Reference
import OData.Proofs.Schema.Names

/-!
Paths in the spelling of a schema. They resolve to themselves, unless a field stands in the way of a
navigation: a segment is a field first, by any spelling that leads to one, and what follows a field is
not looked up.
-/

namespace OData

namespace EntitySet

/-- No field of the collection has the navigation's name, in any letter case. -/
def SparesCase (c : EntitySet) (n : Navigation) : Prop :=
  ∀ f ∈ c.fields, ¬ Text.sameIgnoringCase f.1 n.name

/-- The navigation's name leads to no field of the collection. -/
def Spares (c : EntitySet) (n : Navigation) : Prop :=
  ∀ f ∈ c.fields, ¬ LeadsTo n.name f.1

/-- The navigation is the one that its name stands for. -/
def Opens (c : EntitySet) (n : Navigation) : Prop :=
  c.Spares n ∧ c.navigations.find? (fun other ↦ other.name = n.name) = some n

instance (c : EntitySet) (n : Navigation) : Decidable (c.SparesCase n) :=
  inferInstanceAs (Decidable (∀ f ∈ c.fields, _))

instance (c : EntitySet) (n : Navigation) : Decidable (c.Opens n) :=
  inferInstanceAs (Decidable ((∀ f ∈ c.fields, _) ∧ _))

end EntitySet

namespace Schema

/-- Names as they are declared lead from a collection to another, by navigations that satisfy a
condition, and end there or with a field. -/
inductive Follows (s : Schema) (Open : EntitySet → Navigation → Prop) :
    EntitySet → List String → EntitySet → Option (String × String) → Prop
  | stop (c : EntitySet) : Follows s Open c [] c none
  | field {c : EntitySet} {f : String × FieldKind} (hf : f ∈ c.fields) :
      Follows s Open c [f.1] c (some (c.name, f.1))
  | navigation {c next last : EntitySet} {n : Navigation} {names : List String}
      {field : Option (String × String)} (hn : n ∈ c.navigations) (hopen : Open c n)
      (htarget : s.findCollection? n.target = some next)
      (rest : Follows s Open next names last field) : Follows s Open c (n.name :: names) last field

variable {s : Schema} {c next last : EntitySet} {n : Navigation} {names : List String}
  {field : Option (String × String)} {v : Version} {path : String}

theorem step_field (hc : s.findCollection? c.name = some c) {f : String × FieldKind}
    (hf : f ∈ c.fields) (before : List (List Char)) :
    ResolvedPath.step s.resolver v path f.1 ⟨some c.name, before, none, false⟩ =
      .ok ⟨some c.name, before ++ [f.1.toList], some (c.name, f.1), false⟩ := by
  have hfield : s.resolver.field c.name f.1 = .ok f.1 :=
    resolver_field_eq_ok.2 ⟨c, hc, map_findByName_eq_some.2 (List.mem_map_of_mem hf)⟩
  simp only [ResolvedPath.step, hfield, ResolvedPath.push]

/-- The navigation that a collection opens is taken, and leads to its target. -/
theorem step_navigation (hc : s.findCollection? c.name = some c) (hn : c.Opens n)
    (htarget : s.findCollection? n.target = some next) (before : List (List Char)) :
    ResolvedPath.step s.resolver v path n.name ⟨some c.name, before, none, false⟩ =
      .ok ⟨some next.name, before ++ [n.name.toList], none, false⟩ := by
  have hfound : s.navigation c.name n.name = .ok n :=
    navigation_eq_ok.2 ⟨c, hc, findByName_of_find? hn.2⟩
  have hnavigation : s.resolver.navigation c.name n.name = .ok n.name :=
    Except.map_eq_ok.2 ⟨n, hfound, rfl⟩
  have hnext : s.resolver.target c.name n.name = .ok next.name :=
    Except.bind_eq_ok.2 ⟨n, hfound, Except.bind_eq_ok.2 ⟨next, collection_eq_ok.2 htarget, rfl⟩⟩
  cases hfield : s.resolver.field c.name n.name with
  | ok exact =>
    obtain ⟨k, hk, hexact⟩ := resolver_field_eq_ok.1 hfield
    obtain rfl := Option.some.inj (hc.symm.trans hk)
    have hnone : findByName Prod.fst n.name c.fields = none := findByName_eq_none.2 hn.1
    rw [hnone] at hexact
    contradiction
  | error e =>
    simp only [ResolvedPath.step, hfield, hnavigation, hnext, ResolvedPath.push]
    rfl

theorem Follows.steps (h : s.Follows EntitySet.Opens c names last field)
    (hc : s.findCollection? c.name = some c) (before : List (List Char)) :
    ResolvedPath.steps s.resolver v path (names.map String.toList)
        ⟨some c.name, before, none, false⟩ =
      .ok ⟨some last.name, before ++ names.map String.toList, field, false⟩ := by
  induction h generalizing before with
  | stop c => rw [List.map_nil, List.append_nil, ResolvedPath.steps]
  | field hf =>
    rw [List.map_cons, ResolvedPath.steps, String.ofList_toList, step_field hc hf]
    rfl
  | @navigation c next last n names field hn hopens htarget rest ih =>
    rw [List.map_cons, ResolvedPath.steps, String.ofList_toList, step_navigation hc hopens htarget]
    have hrest := ih (findByName_key htarget) (before ++ [n.name.toList])
    rw [List.append_assoc, List.singleton_append] at hrest
    exact hrest

/-- A path of declared names resolves to these names, and to the field that it ends with, in either
dialect and with points or slashes between them. The navigations on the way are such that their names
lead to no field of the collection that they start from, in any case or grammatical number. -/
theorem resolvePath_eq_spelled (hc : s.findCollection? c.name = some c)
    (h : s.Follows EntitySet.Opens c names last field)
    (hpath : pathSegments path = names.map String.toList) :
    resolvePath s.resolver v (some c.name) path =
      .ok ⟨some last.name, names.map String.toList, field, false⟩ := by
  rw [resolvePath, hpath, ResolvedPath.start, h.steps hc, List.nil_append]

def orders : EntitySet :=
  ⟨"Orders", [("Date", .other)], [⟨"Lines", "line", true⟩]⟩

def lines : EntitySet :=
  ⟨"Lines", [("Amount", .other)], [⟨"Product", "Products", false⟩]⟩

def products : EntitySet :=
  ⟨"Products", [("Name", .string)], []⟩

/-- Orders with their lines, and these with a product each. -/
def shop : Schema :=
  ⟨"NS", [orders, lines, products], []⟩

theorem resolvePath_eq_spelled_lines :
    (shop.findCollection? "Orders" = some orders ∧
      shop.Follows EntitySet.Opens orders ["Lines", "Product", "Name"] products
        (some ("Products", "Name")) ∧
      pathSegments "Lines/Product.Name" = ["Lines", "Product", "Name"].map String.toList) ∧
    resolvePath shop.resolver .v4 (some "Orders") "Lines/Product.Name" =
      .ok ⟨some "Products", ["Lines", "Product", "Name"].map String.toList,
        some ("Products", "Name"), false⟩ := by
  have hc : shop.findCollection? "Orders" = some orders := by rfl
  have hlines : shop.findCollection? "line" = some lines := by rfl
  have hproducts : shop.findCollection? "Products" = some products := by rfl
  have hfollows : shop.Follows EntitySet.Opens orders ["Lines", "Product", "Name"] products
      (some ("Products", "Name")) :=
    .navigation (n := ⟨"Lines", "line", true⟩) (by decide) (by decide) hlines
      (.navigation (n := ⟨"Product", "Products", false⟩) (by decide) (by decide) hproducts
        (.field (f := ("Name", .string)) (by decide)))
  have hpath : pathSegments "Lines/Product.Name" =
      ["Lines", "Product", "Name"].map String.toList := by rfl
  exact ⟨⟨hc, hfollows, hpath⟩, resolvePath_eq_spelled hc hfollows hpath⟩

def cats : EntitySet :=
  ⟨"Cats", [("Name", .string)], []⟩

/-- Products that have categories as a field, and a category among the cats. -/
def ofCategories : EntitySet :=
  ⟨"Products", [("Categories", .other)], [⟨"Category", "Cats", false⟩]⟩

/-- Products that have a category twice. -/
def ofCategory : EntitySet :=
  ⟨"Products", [], [⟨"Category", "Products", false⟩, ⟨"Category", "Cats", false⟩]⟩

/-- Another number of a navigation's name suffices for a field to be taken for it, and the second
navigation of a name is never taken. -/
theorem resolvePath_other_names :
    (Follows ⟨"NS", [ofCategories, cats], []⟩ EntitySet.SparesCase ofCategories
        ["Category", "Name"] cats (some ("Cats", "Name")) ∧
      resolvePath (Schema.resolver ⟨"NS", [ofCategories, cats], []⟩) .v4 (some "Products")
          "Category.Name" =
        .ok ⟨some "Products", ["Categories", "Name"].map String.toList,
          some ("Products", "Categories"), false⟩) ∧
      Follows ⟨"NS", [ofCategory, cats], []⟩ EntitySet.SparesCase ofCategory
        ["Category", "Name"] cats (some ("Cats", "Name")) ∧
      resolvePath (Schema.resolver ⟨"NS", [ofCategory, cats], []⟩) .v4 (some "Products")
          "Category.Name" =
        .error (.unresolvedReference "Name" "Category.Name") := by
  have hname : ("Name", FieldKind.string) ∈ cats.fields := by decide
  have hnumbers : findCollection? ⟨"NS", [ofCategories, cats], []⟩ "Cats" = some cats := by rfl
  have htwice : findCollection? ⟨"NS", [ofCategory, cats], []⟩ "Cats" = some cats := by rfl
  refine ⟨⟨?_, by rfl⟩, ?_, by rfl⟩
  · exact .navigation (n := ⟨"Category", "Cats", false⟩) (by decide) (by decide) hnumbers (.field hname)
  · exact .navigation (n := ⟨"Category", "Cats", false⟩) (by decide) (by decide) htwice (.field hname)

end Schema
end OData
