import OData.Proofs.Address.Parts
import OData.Schema.Basic

/-!
Paths along navigations. The path of a command begins with that of each command it was navigated from,
whose other clauses are not looked at: clauses there that exclude each other are refused only where that
command is formatted itself.
-/

namespace OData

/-- The clauses that a path is made of. -/
def Clauses.forPath (c : Clauses) : Clauses :=
  { key := c.key, derivedType := c.derivedType }

namespace Command

/-- The command with nothing but what its path is made of. -/
def bare (command : Command) : Command :=
  command.withClauses command.clauses.forPath

/-- The commands that a command was navigated from, the nearest first. -/
def ancestors : Command → List Command
  | service _ => []
  | collection _ _ => []
  | navigation parent _ _ => parent :: ancestors parent

end Command

namespace Formatting

variable (f : Formatting)

def keySegment (collection : Option String) : Option Key → Except FormatError (List Char)
  | some key => f.key collection key
  | none => .ok []

def typeSegment : Option String → Except FormatError (List Char)
  | some type => (f.typeName type).map ('/' :: ·)
  | none => .ok []

/-- What key and derived type put behind the path of a resource. -/
def ownSegments (collection : Option String) (c : Clauses) : Except FormatError (List Char) := do
  let key ← f.keySegment collection c.key
  let type ← f.typeSegment c.derivedType
  return key ++ type

variable {f} {parent command a : Command} {name text : String} {c : Clauses} {r r' : Resource}

theorem exists_ownSegments (h : f.refine r c = .ok r') (hr : r.path ≠ []) :
    ∃ own, f.ownSegments r.collection c = .ok own ∧ r' = ⟨r.path ++ own, r.collection⟩ := by
  obtain ⟨path, hkey, htype, hcollection⟩ := refine_eq_ok h
  obtain ⟨key, hkey', rfl⟩ : ∃ key, f.keySegment r.collection c.key = .ok key ∧ r.path ++ key = path := by
    cases hc : c.key with
    | none =>
      rw [hc] at hkey
      exact ⟨[], rfl, (List.append_nil _).trans (Except.ok.inj hkey)⟩
    | some k =>
      rw [hc] at hkey
      exact Except.map_eq_ok.1 hkey
  obtain ⟨type, htype', hpath⟩ : ∃ type, f.typeSegment c.derivedType = .ok type ∧
      r.path ++ key ++ type = r'.path := by
    cases hc : c.derivedType with
    | none =>
      rw [hc] at htype
      exact ⟨[], rfl, (List.append_nil _).trans (Except.ok.inj htype)⟩
    | some t =>
      rw [hc] at htype
      obtain ⟨name, hname, hpath⟩ := Except.map_eq_ok.1 htype
      refine ⟨'/' :: name, Except.map_eq_ok.2 ⟨name, hname, rfl⟩, ?_⟩
      rw [← hpath, addSegment, if_neg]
      intro hempty
      exact hr (List.append_eq_nil_iff.1 hempty).1
  refine ⟨key ++ type, ?_, ?_⟩
  · exact Except.bind_eq_ok.2 ⟨key, hkey', Except.bind_eq_ok.2 ⟨type, htype', rfl⟩⟩
  · cases r'
    obtain rfl : _ = r.collection := hcollection
    rw [← List.append_assoc]
    exact congrArg (Resource.mk · _) hpath.symm

theorem checkedResource_bare (f : Formatting) (command : Command) :
    f.checkedResource command.bare = f.resource command := by
  cases command <;> rfl

/-- A step to what a navigation leads to. -/
theorem resource_navigation_eq_ok (h : f.resource (.navigation parent name c) = .ok r) :
    ∃ above collection link target own, f.resource parent = .ok ⟨above, some collection⟩ ∧
      f.resolver.navigation collection name = .ok link ∧
      f.resolver.target collection link = .ok target ∧ f.ownSegments (some target) c = .ok own ∧
      r = ⟨above ++ '/' :: link.toList ++ own, some target⟩ := by
  obtain ⟨⟨above, collection?⟩, hparent, h⟩ := Except.bind_eq_ok.1 h
  cases collection? with
  | none => contradiction
  | some collection =>
    obtain ⟨link, hlink, h⟩ := Except.bind_eq_ok.1 h
    obtain ⟨target, htarget, h⟩ := Except.bind_eq_ok.1 h
    obtain ⟨own, hown, rfl⟩ := exists_ownSegments h (by simp)
    exact ⟨above, collection, link, target, own, hparent, Except.mapError_eq_ok.1 hlink,
      Except.mapError_eq_ok.1 htarget, hown, rfl⟩

theorem resource_of_ancestor (h : f.resource command = .ok r) (ha : a ∈ command.ancestors) :
    ∃ r', f.resource a = .ok r' ∧ r'.path ++ ['/'] <+: r.path := by
  induction command generalizing r with
  | service c => contradiction
  | collection name c => contradiction
  | navigation parent name c ih =>
    obtain ⟨above, collection, link, target, own, hparent, -, -, -, rfl⟩ :=
      resource_navigation_eq_ok h
    have hstep : above ++ ['/'] <+: above ++ '/' :: link.toList ++ own :=
      ⟨link.toList ++ own, by simp⟩
    rcases List.mem_cons.1 ha with rfl | ha
    · exact ⟨_, hparent, hstep⟩
    · obtain ⟨r', hr', hprefix⟩ := ih hparent ha
      exact ⟨r', hr', hprefix.trans ((List.prefix_append above ['/']).trans hstep)⟩

theorem path_of_resource (h : f.resource command = .ok r) :
    f.path command = command.clauses.check.map fun _ ↦ String.ofList r.path := by
  rw [path, checkedResource, h]
  cases command.clauses.check <;> rfl

/-- The path of what a navigation leads to is that of its parent, a slash, the exact name of the
navigation, and its own key and derived type; so it begins with the path of every ancestor. For itself an
ancestor has this path just where none of its clauses exclude each other, and is refused for them
otherwise: behind a navigation they are not checked, and the parent only has to have a path without them. -/
theorem path_of_navigation (h : f.path (.navigation parent name c) = .ok text) :
    c.check = .ok () ∧
    (∃ above collection link target own,
      f.checkedResource parent.bare = .ok ⟨above, some collection⟩ ∧
      f.path parent = parent.clauses.check.map (fun _ ↦ String.ofList above) ∧
      f.resolver.navigation collection name = .ok link ∧
      f.resolver.target collection link = .ok target ∧
      f.ownSegments (some target) c = .ok own ∧
      text = String.ofList (above ++ '/' :: link.toList ++ own)) ∧
    ∀ a ∈ (Command.navigation parent name c).ancestors, ∃ above : String,
      f.path a = a.clauses.check.map (fun _ ↦ above) ∧ above.toList ++ ['/'] <+: text.toList := by
  obtain ⟨r, hr, rfl⟩ := Except.map_eq_ok.1 h
  obtain ⟨⟨⟩, hcheck, hr⟩ := Except.bind_eq_ok.1 hr
  refine ⟨hcheck, ?_, ?_⟩
  · obtain ⟨above, collection, link, target, own, hparent, hlink, htarget, hown, rfl⟩ :=
      resource_navigation_eq_ok hr
    refine ⟨above, collection, link, target, own, ?_, path_of_resource hparent, hlink, htarget, hown, rfl⟩
    rw [checkedResource_bare, hparent]
  · intro a ha
    obtain ⟨r', hr', hprefix⟩ := resource_of_ancestor hr ha
    refine ⟨String.ofList r'.path, path_of_resource hr', ?_⟩
    rw [String.toList_ofList, String.toList_ofList]
    exact hprefix

/-- Categories with their products, which lead back to them. -/
def aisles : Formatting where
  resolver := (Schema.mk "NS" [⟨"Categories", [], [⟨"Products", "Products", true⟩]⟩,
    ⟨"Products", [], [⟨"Category", "Categories", false⟩]⟩] []).resolver
  version := .v4

/-- A category by its key, with a filter that does not go with it. -/
def filteredCategory : Command :=
  .collection "categories"
    { key := some (.single (.int32 1)), filter := some (.literal (.boolean true)) }

/-- One of its products. -/
def categorized : Command :=
  .navigation filteredCategory "products" { key := some (.single (.int32 2)) }

theorem path_of_navigation_categorized :
    aisles.path (.navigation categorized "category" { derivedType := some "Special" }) =
        .ok "Categories(1)/Products(2)/Category/NS.Special" ∧
      aisles.path categorized = .ok "Categories(1)/Products(2)" ∧
      ∃ above : String,
        aisles.path filteredCategory = filteredCategory.clauses.check.map (fun _ ↦ above) ∧
        above.toList ++ ['/'] <+: "Categories(1)/Products(2)/Category/NS.Special".toList := by
  have htext : aisles.path (.navigation categorized "category" { derivedType := some "Special" }) =
      .ok "Categories(1)/Products(2)/Category/NS.Special" := by
    rfl
  obtain ⟨-, -, hancestors⟩ := path_of_navigation htext
  refine ⟨htext, rfl, hancestors filteredCategory ?_⟩
  simp [Command.ancestors, categorized]

/-- A product of a category is found by way of a command that is refused for itself. -/
theorem not_path_of_parent : ¬ ∀ (f : Formatting) (parent : Command) (name text : String) (c : Clauses),
    f.path (.navigation parent name c) = .ok text → ∃ above, f.path parent = .ok above := by
  intro hall
  have htext : aisles.path categorized = .ok "Categories(1)/Products(2)" := by
    rfl
  obtain ⟨above, habove⟩ := hall aisles filteredCategory "products" _ _ htext
  have hrefused : aisles.path filteredCategory = .error (.malformedCommand .filterWithKey) := by
    rfl
  rw [hrefused] at habove
  contradiction

end Formatting
end OData
