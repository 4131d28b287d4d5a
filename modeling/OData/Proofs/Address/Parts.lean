import Mathlib.Data.List.Forall2
import OData.Format.Command
import OData.Proofs.Answer

/-!
The parts of an address, each as an answer of its own: key and derived type of a resource, function and
action behind it, and the options of an expanded navigation.
-/

namespace OData

namespace Except

variable {ε α β : Type} {g : α → Except ε β}

theorem mapM_eq_ok {l : List α} {ys : List β} :
    l.mapM g = .ok ys ↔ List.Forall₂ (fun x y ↦ g x = .ok y) l ys := by
  induction l generalizing ys with
  | nil =>
    rw [List.mapM_nil, List.forall₂_nil_left_iff]
    exact ⟨fun h ↦ (Except.ok.inj h).symm, fun h ↦ congrArg _ h.symm⟩
  | cons x l ih =>
    rw [List.mapM_cons, List.forall₂_cons_left_iff, bind_eq_ok]
    constructor
    · rintro ⟨y, hy, h⟩
      obtain ⟨rest, hrest, h⟩ := bind_eq_ok.1 h
      exact ⟨y, rest, hy, ih.1 hrest, (Except.ok.inj h).symm⟩
    · rintro ⟨y, rest, hy, hrest, rfl⟩
      exact ⟨y, hy, bind_eq_ok.2 ⟨rest, ih.2 hrest, rfl⟩⟩

theorem mapM_eq_ok_of_forall {g' : α → Except ε β} {l : List α} {ys : List β}
    (hg : ∀ x ∈ l, ∀ y, g x = .ok y → g' x = .ok y) (h : l.mapM g = .ok ys) :
    l.mapM g' = .ok ys := by
  induction l generalizing ys with
  | nil => exact h
  | cons x l ih =>
    obtain ⟨hx, hl⟩ := List.forall_mem_cons.1 hg
    rw [mapM_eq_ok, List.forall₂_cons_left_iff] at h ⊢
    obtain ⟨y, rest, hy, hrest, rfl⟩ := h
    exact ⟨y, rest, hx y hy, mapM_eq_ok.1 (ih hl (mapM_eq_ok.2 hrest)), rfl⟩

theorem forall_of_mapM {P : β → Prop} {l : List α} {ys : List β}
    (hg : ∀ x ∈ l, ∀ y, g x = .ok y → P y) (h : l.mapM g = .ok ys) : ∀ y ∈ ys, P y := by
  induction mapM_eq_ok.1 h with
  | nil => simp
  | cons hy hrest ih =>
    obtain ⟨hx, hl⟩ := List.forall_mem_cons.1 hg
    exact List.forall_mem_cons.2 ⟨hx _ hy, ih hl (mapM_eq_ok.2 hrest)⟩

theorem forall₂_of_mapM {γ δ : Type} {R : α → γ → Prop} {S : β → δ → Prop}
    {g' : γ → Except ε δ} {xs : List α} {xs' : List γ} {ys : List β}
    {ys' : List δ} (h : List.Forall₂ R xs xs')
    (hg : ∀ x ∈ xs, ∀ x' ∈ xs', R x x' → ∀ y y', g x = .ok y → g' x' = .ok y' → S y y')
    (hy : xs.mapM g = .ok ys) (hy' : xs'.mapM g' = .ok ys') : List.Forall₂ S ys ys' := by
  induction h generalizing ys ys' with
  | nil =>
    obtain rfl := Except.ok.inj hy
    obtain rfl := Except.ok.inj hy'
    exact .nil
  | cons hx h ih =>
    rw [mapM_eq_ok, List.forall₂_cons_left_iff] at hy hy'
    obtain ⟨y, ys, hgy, hys, rfl⟩ := hy
    obtain ⟨y', ys', hgy', hys', rfl⟩ := hy'
    refine .cons (hg _ List.mem_cons_self _ List.mem_cons_self hx y y' hgy hgy') ?_
    exact ih (fun x hx x' hx' ↦ hg x (List.mem_cons_of_mem _ hx) x' (List.mem_cons_of_mem _ hx'))
      (mapM_eq_ok.2 hys) (mapM_eq_ok.2 hys')

end Except

def Value.isCollection : Value → Bool
  | .collection _ => true
  | _ => false

namespace Formatting

/-- An option that stands in the query as it is. -/
def optionClause (option : String × String) : Clause :=
  ⟨option.1.toList, option.2.toList⟩

variable (f : Formatting)

def keyName (name : String) : Option String → Except FormatError String
  | some collection => FormatError.ofName (f.resolver.field collection name)
  | none => .ok name

def withKey (resource : Resource) : Option Key → Except FormatError (List Char)
  | some key => (f.key resource.collection key).map (resource.path ++ ·)
  | none => .ok resource.path

def typeName (type : String) : Except FormatError (List Char) :=
  (FormatError.ofName (f.resolver.type type)).map String.toList

/-- A path with a name behind it, where there is one. -/
def withName (exact : String → Except FormatError (List Char)) (path : List Char) :
    Option String → Except FormatError (List Char)
  | some name => (exact name).map (addSegment path)
  | none => .ok path

def withFunction (bound : Bool) (path : List Char) :
    Option Invocation → Except FormatError (List Char × List Clause)
  | some i => (f.invocation bound i).map fun (segment, arguments) ↦
    (addSegment path segment, arguments)
  | none => .ok (path, [])

def filterOption (target : Option String) : Option Expr → Except FormatError (List Clause)
  | some e => (f.filter target e).map fun text ↦ [⟨"$filter".toList, f.escaped text⟩]
  | none => .ok []

/-- The path of an expanded navigation from the top. -/
def flatPath (above : List Char) (segments : List (List Char)) : List Char :=
  if above = [] then List.intercalate ['/'] segments
  else above ++ '/' :: List.intercalate ['/'] segments

/-- What is below a path of the older dialect: the path itself where nothing is. -/
def flatBelow (target : Option String) (path : List Char) (nested : List Expand) :
    Except FormatError (List (List Char) × List (List Char)) :=
  if nested = [] then .ok ([path], []) else f.flatExpands target path nested

variable {f}

theorem keyPart_eq (collection : Option String) (part : String × Value) :
    f.keyPart collection part = do
      let name ← f.keyName part.1 collection
      let text ← f.literal part.2
      return ⟨name.toList, text⟩ := by
  unfold keyPart
  cases collection <;> rfl

theorem keyPart_eq_ok {collection : Option String} {part : String × Value} {c : Clause}
    (h : f.keyPart collection part = .ok c) :
    ∃ name text, f.keyName part.1 collection = .ok name ∧ f.literal part.2 = .ok text ∧
      c = ⟨name.toList, text⟩ := by
  rw [keyPart_eq] at h
  obtain ⟨name, hname, h⟩ := Except.bind_eq_ok.1 h
  obtain ⟨text, htext, h⟩ := Except.bind_eq_ok.1 h
  exact ⟨name, text, hname, htext, (Except.ok.inj h).symm⟩

theorem refine_eq_ok {resource r : Resource} {c : Clauses} (h : f.refine resource c = .ok r) :
    ∃ path, f.withKey resource c.key = .ok path ∧ withName f.typeName path c.derivedType = .ok r.path ∧
      r.collection = resource.collection := by
  have hrefine : f.refine resource c = do
      let path ← f.withKey resource c.key
      let path ← withName f.typeName path c.derivedType
      return ⟨path, resource.collection⟩ := by
    unfold refine
    cases c.derivedType with
    | none => cases c.key <;> rfl
    | some type =>
      simp only [withName, typeName]
      cases c.key <;> cases FormatError.ofName (f.resolver.type type) <;> rfl
  rw [hrefine] at h
  obtain ⟨path, hkey, h⟩ := Except.bind_eq_ok.1 h
  obtain ⟨path', htype, h⟩ := Except.bind_eq_ok.1 h
  obtain rfl := Except.ok.inj h
  exact ⟨path, hkey, htype, rfl⟩

theorem pathArguments_cons_eq_ok {used : Nat} {argument : String × Value}
    {rest : List (String × Value)} {inline bound : List Clause}
    (h : f.pathArguments used (argument :: rest) = .ok (inline, bound)) :
    ∃ text inline' bound', f.literal argument.2 = .ok text ∧
      ((argument.2.isCollection ∧ f.pathArguments (used + 1) rest = .ok (inline', bound') ∧
          inline = ⟨argument.1.toList, parameterAlias (used + 1)⟩ :: inline' ∧
          bound = ⟨parameterAlias (used + 1), f.escaped text⟩ :: bound') ∨
        (argument.2.isCollection = false ∧ f.pathArguments used rest = .ok (inline', bound') ∧
          inline = ⟨argument.1.toList, text⟩ :: inline' ∧ bound = bound')) := by
  obtain ⟨name, v⟩ := argument
  obtain ⟨text, htext, h⟩ := Except.bind_eq_ok.1 h
  cases v with
  | collection items =>
    obtain ⟨⟨inline', bound'⟩, hrest, h⟩ := Except.bind_eq_ok.1 h
    obtain ⟨rfl, rfl⟩ := Prod.mk.inj (Except.ok.inj h)
    exact ⟨text, inline', bound', htext, .inl ⟨rfl, hrest, rfl, rfl⟩⟩
  | _ =>
    obtain ⟨⟨inline', bound'⟩, hrest, h⟩ := Except.bind_eq_ok.1 h
    obtain ⟨rfl, rfl⟩ := Prod.mk.inj (Except.ok.inj h)
    exact ⟨text, inline', bound', htext, .inr ⟨rfl, hrest, rfl, rfl⟩⟩

theorem withFunction_some_eq_ok {bound : Bool} {path path' : List Char} {i : Invocation}
    {arguments : List Clause} (h : f.withFunction bound path (some i) = .ok (path', arguments)) :
    ∃ name, f.operationName bound i.name = .ok name ∧
      ((f.version = .v3 ∧ i.arguments.mapM f.queryArgument = .ok arguments ∧
          path' = addSegment path name) ∨
        (f.version = .v4 ∧ ∃ inline, f.pathArguments 0 i.arguments = .ok (inline, arguments) ∧
          path' = addSegment path
            (name ++ Filter.parenthesized (List.intercalate [','] (inline.map Clause.chars))))) := by
  obtain ⟨⟨segment, clauses⟩, hi, h⟩ := Except.map_eq_ok.1 h
  obtain ⟨rfl, rfl⟩ := Prod.mk.inj h
  obtain ⟨name, hname, hi⟩ := Except.bind_eq_ok.1 hi
  refine ⟨name, hname, ?_⟩
  cases hv : f.version with
  | v3 =>
    simp only [hv] at hi
    obtain ⟨_, harguments, hi⟩ := Except.bind_eq_ok.1 hi
    obtain ⟨rfl, rfl⟩ := Prod.mk.inj (Except.ok.inj hi)
    exact .inl ⟨rfl, harguments, rfl⟩
  | v4 =>
    simp only [hv] at hi
    obtain ⟨⟨inline, _⟩, harguments, hi⟩ := Except.bind_eq_ok.1 hi
    obtain ⟨rfl, rfl⟩ := Prod.mk.inj (Except.ok.inj hi)
    exact .inr ⟨rfl, inline, harguments, rfl⟩

theorem queryArgument_eq_ok {argument : String × Value} {c : Clause}
    (h : f.queryArgument argument = .ok c) :
    ∃ text, f.literal argument.2 = .ok text ∧ c = ⟨argument.1.toList, f.escaped text⟩ := by
  obtain ⟨text, htext, h⟩ := Except.bind_eq_ok.1 h
  exact ⟨text, htext, (Except.ok.inj h).symm⟩

theorem expressionClause_eq_ok {collection : Option String} {option : String × Expr} {c : Clause}
    (h : f.expressionClause collection option = .ok c) :
    ∃ text, f.filter collection option.2 = .ok text ∧ c = ⟨option.1.toList, f.escaped text⟩ := by
  obtain ⟨text, htext, h⟩ := Except.bind_eq_ok.1 h
  exact ⟨text, htext, (Except.ok.inj h).symm⟩

theorem filterClause_some_eq_ok {collection : Option String} {e : Expr} {clauses : List Clause}
    (h : f.filterClause collection (some e) = .ok clauses) :
    ∃ text, f.filter collection e = .ok text ∧
      clauses = if text = [] then [] else [⟨"$filter".toList, f.escaped text⟩] := by
  obtain ⟨text, htext, h⟩ := Except.bind_eq_ok.1 h
  exact ⟨text, htext, (Except.ok.inj h).symm⟩

theorem clauses_eq_ok {collection : Option String} {c : Clauses} {clauses : List Clause}
    (h : f.clauses collection c = .ok clauses) :
    ∃ filter expressions select expand fields orderBy,
      f.filterClause collection c.filter = .ok filter ∧
      c.expressionOptions.mapM (f.expressionClause collection) = .ok expressions ∧
      c.select.mapM (f.selected collection) = .ok select ∧
      f.expandClause collection c.expand = .ok (expand, fields) ∧
      c.orderBy.mapM (f.ordered collection) = .ok orderBy ∧
      clauses = filter ++ f.searchClause c.search ++
        c.queryOptions.map optionClause ++ expressions ++
        numberClause "$skip" c.skip ++ numberClause "$top" c.top ++ expand ++
        listClause "$select" (select ++ fields) ++ listClause "$orderby" orderBy ++
        f.countClause c.count := by
  obtain ⟨filter, hfilter, h⟩ := Except.bind_eq_ok.1 h
  obtain ⟨expressions, hexpressions, h⟩ := Except.bind_eq_ok.1 h
  obtain ⟨select, hselect, h⟩ := Except.bind_eq_ok.1 h
  obtain ⟨⟨expand, fields⟩, hexpand, h⟩ := Except.bind_eq_ok.1 h
  obtain ⟨orderBy, horder, h⟩ := Except.bind_eq_ok.1 h
  exact ⟨filter, expressions, select, expand, fields, orderBy, hfilter, hexpressions, hselect,
    hexpand, horder, (Except.ok.inj h).symm⟩

theorem listOption_eq {α : Type} (name : String) (g : α → Except FormatError (List Char))
    (items : List α) :
    (if items = [] then .ok []
      else (items.mapM g).map fun texts ↦ [⟨name.toList, commaSeparated texts⟩]) =
      (items.mapM g).map (listClause name) := by
  cases items with
  | nil => rfl
  | cons item items =>
    rw [if_neg (List.cons_ne_nil _ _), List.mapM_cons]
    cases g item with
    | error => rfl
    | ok => cases items.mapM g <;> rfl

theorem expandOptions_eq (target : Option String) (o : ExpandOptions) :
    f.expandOptions target o = do
      let select ← (o.select.mapM (f.selected target)).map (listClause "$select")
      let filter ← f.filterOption target o.filter
      let orderBy ← (o.orderBy.mapM (f.ordered target)).map (listClause "$orderby")
      return select ++ filter ++ orderBy ++ numberClause "$top" o.top := by
  rw [← listOption_eq, ← listOption_eq]
  unfold expandOptions
  by_cases hs : o.select = [] <;> by_cases ho : o.orderBy = [] <;> cases o.filter <;>
    simp only [hs, ho, if_true, if_false] <;> rfl

theorem expandOptions_eq_ok {target : Option String} {o : ExpandOptions} {clauses : List Clause}
    (h : f.expandOptions target o = .ok clauses) :
    ∃ select filter orderBy, o.select.mapM (f.selected target) = .ok select ∧
      f.filterOption target o.filter = .ok filter ∧
      o.orderBy.mapM (f.ordered target) = .ok orderBy ∧
      clauses = listClause "$select" select ++ filter ++ listClause "$orderby" orderBy ++
        numberClause "$top" o.top := by
  rw [expandOptions_eq] at h
  obtain ⟨_, hs, h⟩ := Except.bind_eq_ok.1 h
  obtain ⟨filter, hfilter, h⟩ := Except.bind_eq_ok.1 h
  obtain ⟨_, ho, h⟩ := Except.bind_eq_ok.1 h
  obtain ⟨select, hselect, rfl⟩ := Except.map_eq_ok.1 hs
  obtain ⟨orderBy, horder, rfl⟩ := Except.map_eq_ok.1 ho
  exact ⟨select, filter, orderBy, hselect, hfilter, horder, (Except.ok.inj h).symm⟩

theorem nestedExpand_eq_ok {collection : Option String} {path : String} {options : ExpandOptions}
    {nested : List Expand} {text : List Char}
    (h : f.nestedExpand collection (.node path options nested) = .ok text) :
    ∃ segments target clauses below,
      f.navigationPath collection (pathSegments path) = .ok (segments, target) ∧
      f.expandOptions target options = .ok clauses ∧ f.nestedExpands target nested = .ok below ∧
      nestedSegments (clauses ++ listClause "$expand" below) segments = .ok text := by
  rw [nestedExpand] at h
  obtain ⟨⟨segments, target⟩, hpath, h⟩ := Except.bind_eq_ok.1 h
  obtain ⟨clauses, hclauses, h⟩ := Except.bind_eq_ok.1 h
  obtain ⟨below, hbelow, h⟩ := Except.bind_eq_ok.1 h
  exact ⟨segments, target, clauses, below, hpath, hclauses, hbelow, h⟩

theorem nestedExpands_eq_mapM (collection : Option String) (es : List Expand) :
    f.nestedExpands collection es = es.mapM (f.nestedExpand collection) := by
  induction es with
  | nil => rfl
  | cons e es ih => rw [nestedExpands, List.mapM_cons, ih]

theorem flatExpand_eq (collection : Option String) (above : List Char) (path : String)
    (options : ExpandOptions) (nested : List Expand) :
    f.flatExpand collection above (.node path options nested) = do
      let (segments, target) ← f.navigationPath collection (pathSegments path)
      let selected ← options.select.mapM (f.selected target)
      let below ← f.flatBelow target (flatPath above segments) nested
      return (below.1, selected.map (flatPath above segments ++ '/' :: ·) ++ below.2) := by
  rw [flatExpand]
  refine bind_congr fun (segments, target) ↦ bind_congr fun selected ↦ ?_
  cases nested with
  | nil => exact congrArg Except.ok (Prod.ext rfl (List.append_nil _).symm)
  | cons e others =>
    have hflat : (if above = [] then List.intercalate ['/'] segments
        else above ++ '/' :: List.intercalate ['/'] segments) = flatPath above segments := rfl
    rw [flatBelow, if_neg (List.cons_ne_nil _ _), flatExpands]
    dsimp only
    rw [hflat]
    cases f.flatExpand target (flatPath above segments) e with
    | error => rfl
    | ok first =>
      cases f.flatExpands target (flatPath above segments) others with
      | error => rfl
      | ok rest => exact congrArg Except.ok (Prod.ext rfl (List.append_assoc _ _ _))

theorem flatExpand_eq_ok {collection : Option String} {above : List Char} {path : String}
    {options : ExpandOptions} {nested : List Expand} {answer : List (List Char) × List (List Char)}
    (h : f.flatExpand collection above (.node path options nested) = .ok answer) :
    ∃ segments target selected below,
      f.navigationPath collection (pathSegments path) = .ok (segments, target) ∧
      options.select.mapM (f.selected target) = .ok selected ∧
      f.flatBelow target (flatPath above segments) nested = .ok below ∧
      answer = (below.1, selected.map (flatPath above segments ++ '/' :: ·) ++ below.2) := by
  rw [flatExpand_eq] at h
  obtain ⟨⟨segments, target⟩, hpath, h⟩ := Except.bind_eq_ok.1 h
  obtain ⟨selected, hselected, h⟩ := Except.bind_eq_ok.1 h
  obtain ⟨below, hbelow, h⟩ := Except.bind_eq_ok.1 h
  exact ⟨segments, target, selected, below, hpath, hselected, hbelow, (Except.ok.inj h).symm⟩

theorem address_eq_ok {command : Command} {a : Address} (h : f.address command = .ok a) :
    ∃ resource path path' arguments clauses, f.resource command = .ok resource ∧
      f.withFunction command.isBound resource.path command.clauses.function =
        .ok (path, arguments) ∧
      withName (f.operationName command.isBound) path command.clauses.action = .ok path' ∧
      f.clauses resource.collection command.clauses = .ok clauses ∧
      a = ⟨finalSegment command.clauses path', arguments ++ clauses⟩ := by
  have haddress : f.address command = do
      command.clauses.check
      let resource ← f.resource command
      let (path, arguments) ← f.withFunction command.isBound resource.path command.clauses.function
      let path ← withName (f.operationName command.isBound) path command.clauses.action
      let clauses ← f.clauses resource.collection command.clauses
      return ⟨finalSegment command.clauses path, arguments ++ clauses⟩ := by
    unfold address
    dsimp only
    cases command.clauses.function <;> cases command.clauses.action <;> rfl
  rw [haddress] at h
  obtain ⟨-, -, h⟩ := Except.bind_eq_ok.1 h
  obtain ⟨resource, hresource, h⟩ := Except.bind_eq_ok.1 h
  obtain ⟨⟨path, arguments⟩, hfunction, h⟩ := Except.bind_eq_ok.1 h
  obtain ⟨path', haction, h⟩ := Except.bind_eq_ok.1 h
  obtain ⟨clauses, hclauses, h⟩ := Except.bind_eq_ok.1 h
  exact ⟨resource, path, path', arguments, clauses, hresource, hfunction, haction, hclauses,
    (Except.ok.inj h).symm⟩

end Formatting
end OData
