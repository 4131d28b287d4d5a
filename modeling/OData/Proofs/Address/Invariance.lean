import OData.Proofs.Address.Filling

/-!
What the values of literals cannot change about an address. In the query literals are escaped; in the path
they stand as they are, so there the values themselves must be without marks.
-/

namespace OData

def Key.values : Key → List Value
  | single v => [v]
  | composite parts => parts.map (·.2)

def Clauses.keyValues (c : Clauses) : List Value :=
  c.key.toList.flatMap Key.values

def Command.keyValues : Command → List Value
  | service c => c.keyValues
  | collection _ c => c.keyValues
  | navigation parent _ c => parent.keyValues ++ c.keyValues

/-- The arguments of a function that stand in the path. -/
def Invocation.inlineValues (version : Version) (i : Invocation) : List Value :=
  match version with
  | .v3 => []
  | .v4 => (i.arguments.map (·.2)).filter (!·.isCollection)

def Clauses.inlineValues (version : Version) (c : Clauses) : List Value :=
  c.function.toList.flatMap (·.inlineValues version)

/-- The values whose literals stand in the path, where they are not escaped. -/
def Command.pathValues (version : Version) (command : Command) : List Value :=
  command.keyValues ++ command.clauses.inlineValues version

theorem Value.isCollection_eq (v : Value) : v.isCollection = (v.typeName = "Collection") := by
  cases v <;> simp [isCollection, typeName]

theorem Value.Alike.isCollection {v w : Value} (h : v.Alike w) : v.isCollection = w.isCollection := by
  rw [Bool.eq_iff_iff, isCollection_eq, isCollection_eq, h]

namespace Formatting

variable (f : Formatting)

/-- Values that can stand in a path as they are. -/
def PathLiteral (v : Value) : Prop :=
  ∀ text, f.literal v = .ok text → ∀ c ∈ ['/', '?', '#', '\r', '\n'], c ∉ text

variable {f} {collection : Option String}

instance (v : Value) : Decidable (f.PathLiteral v) :=
  match h : f.literal v with
  | .ok text =>
    decidable_of_iff (['/', '?', '#', '\r', '\n'].all (· ∉ text)) (by simp [PathLiteral, h])
  | .error _ => .isTrue (by simp [PathLiteral, h])

theorem sameSegments_literal {v w : Value} {text text' : List Char} (hv : f.PathLiteral v)
    (hw : f.PathLiteral w) (h : f.literal v = .ok text) (h' : f.literal w = .ok text') :
    SameSegments text text' where
  empty := by
    have hne := Literal.chars_ne_nil (Except.mapError_eq_ok.1 h)
    have hne' := Literal.chars_ne_nil (Except.mapError_eq_ok.1 h')
    simp [hne, hne']
  slashes := by
    rw [List.count_eq_zero.2 (hv text h '/' (by decide)),
      List.count_eq_zero.2 (hw text' h' '/' (by decide))]
  marks c hc := by
    have hmark := List.mem_cons_of_mem '/' hc
    simp [hv text h c hmark, hw text' h' c hmark]

theorem sameSegments_arguments {arguments arguments' : List (String × Value)} {used : Nat}
    {inline bound inline' bound' : List Clause}
    (ha : List.Forall₂ (SameName Value.Alike) arguments arguments')
    (hv : ∀ v ∈ (arguments.map (·.2)).filter (!·.isCollection), f.PathLiteral v)
    (hw : ∀ v ∈ (arguments'.map (·.2)).filter (!·.isCollection), f.PathLiteral v)
    (h : f.pathArguments used arguments = .ok (inline, bound))
    (h' : f.pathArguments used arguments' = .ok (inline', bound')) :
    List.Forall₂ (fun c d ↦ SameSegments c.chars d.chars) inline inline' ∧
      AlikeClauses bound bound' := by
  induction ha generalizing used inline bound inline' bound' with
  | nil =>
    obtain ⟨rfl, rfl⟩ := Prod.mk.inj (Except.ok.inj h)
    obtain ⟨rfl, rfl⟩ := Prod.mk.inj (Except.ok.inj h')
    exact ⟨.nil, .nil⟩
  | cons hp ha ih =>
    obtain ⟨text, inline₁, bound₁, htext, h⟩ := pathArguments_cons_eq_ok h
    obtain ⟨text', inline₂, bound₂, htext', h'⟩ := pathArguments_cons_eq_ok h'
    obtain ⟨hname, hvalue⟩ := hp
    have hcollection := hvalue.isCollection
    -- Values of one type are both collections or both not, so the mixed cases are void.
    rcases h with ⟨hl, hrest, rfl, rfl⟩ | ⟨hl, hrest, rfl, rfl⟩
    · rcases h' with ⟨hr, hrest', rfl, rfl⟩ | ⟨hr, -, -, -⟩
      · simp only [List.map_cons] at hv hw
        rw [List.filter_cons_of_neg (by simp [hl])] at hv
        rw [List.filter_cons_of_neg (by simp [hr])] at hw
        obtain ⟨hinline, hbound⟩ := ih hv hw hrest hrest'
        refine ⟨.cons ?_ hinline, .cons (.escaped ..) hbound⟩
        rw [hname]
        exact .refl _
      · rw [hcollection, hr] at hl
        contradiction
    · rcases h' with ⟨hr, -, -, -⟩ | ⟨hr, hrest', rfl, rfl⟩
      · rw [hcollection, hr] at hl
        contradiction
      · simp only [List.map_cons] at hv hw
        rw [List.filter_cons_of_pos (by simp [hl]), List.forall_mem_cons] at hv
        rw [List.filter_cons_of_pos (by simp [hr]), List.forall_mem_cons] at hw
        obtain ⟨hinline, hbound⟩ := ih hv.2 hw.2 hrest hrest'
        refine ⟨.cons ?_ hinline, hbound⟩
        rw [hname]
        exact (SameSegments.refl _).append
          ((SameSegments.refl ['=']).append (sameSegments_literal hv.1 hw.1 htext htext'))

theorem sameSegments_parenthesized {v w : List Char} (h : SameSegments v w) :
    SameSegments (Filter.parenthesized v) (Filter.parenthesized w) :=
  ((SameSegments.refl ['(']).append h).append (.refl [')'])

theorem sameSegments_chars {clauses clauses' : List Clause}
    (h : List.Forall₂ (fun c d ↦ SameSegments (Clause.chars c) d.chars) clauses clauses') :
    SameSegments (Filter.parenthesized (List.intercalate [','] (clauses.map Clause.chars)))
      (Filter.parenthesized (List.intercalate [','] (clauses'.map Clause.chars))) := by
  refine sameSegments_parenthesized (rel_intercalate .refl .append [','] ?_)
  rwa [List.forall₂_map_left_iff, List.forall₂_map_right_iff]

theorem sameSegments_key {key key' : Key} {text text' : List Char} (hk : key.Alike key')
    (hv : ∀ v ∈ key.values, f.PathLiteral v) (hw : ∀ v ∈ key'.values, f.PathLiteral v)
    (h : f.key collection key = .ok text) (h' : f.key collection key' = .ok text') :
    SameSegments text text' := by
  have hsingle {v w : Value} {text text' : List Char} (hv : f.PathLiteral v) (hw : f.PathLiteral w)
      (h : (f.literal v).map Filter.parenthesized = .ok text)
      (h' : (f.literal w).map Filter.parenthesized = .ok text') : SameSegments text text' := by
    obtain ⟨t, ht, rfl⟩ := Except.map_eq_ok.1 h
    obtain ⟨t', ht', rfl⟩ := Except.map_eq_ok.1 h'
    exact sameSegments_parenthesized (sameSegments_literal hv hw ht ht')
  cases hk with
  | single => exact hsingle (hv _ List.mem_cons_self) (hw _ List.mem_cons_self) h h'
  | composite hp =>
    match hp with
    | .nil =>
      obtain rfl := Except.ok.inj (h.symm.trans h')
      exact .refl text
    | .cons hp .nil => exact hsingle (hv _ List.mem_cons_self) (hw _ List.mem_cons_self) h h'
    | .cons hp (.cons hq hrest) =>
      obtain ⟨clauses, hclauses, h⟩ := Except.bind_eq_ok.1 h
      obtain ⟨clauses', hclauses', h'⟩ := Except.bind_eq_ok.1 h'
      obtain rfl := Except.ok.inj h
      obtain rfl := Except.ok.inj h'
      refine sameSegments_chars
        (Except.forall₂_of_mapM (.cons hp (.cons hq hrest)) ?_ hclauses hclauses')
      intro part hpart part' hpart' hsame c c' hc hc'
      obtain ⟨name, text, hname, htext, rfl⟩ := keyPart_eq_ok hc
      obtain ⟨name', text', hname', htext', rfl⟩ := keyPart_eq_ok hc'
      rw [hsame.1] at hname
      obtain rfl := Except.ok.inj (hname.symm.trans hname')
      have hliteral := sameSegments_literal (hv _ (List.mem_map_of_mem hpart))
        (hw _ (List.mem_map_of_mem hpart')) htext htext'
      exact (SameSegments.refl _).append ((SameSegments.refl ['=']).append hliteral)

theorem sameSegments_withKey {resource resource' : Resource} {key? key'? : Option Key}
    {path path' : List Char} (hk : Option.Rel Key.Alike key? key'?)
    (hv : ∀ v ∈ key?.toList.flatMap Key.values, f.PathLiteral v)
    (hw : ∀ v ∈ key'?.toList.flatMap Key.values, f.PathLiteral v)
    (hr : SameSegments resource.path resource'.path) (he : resource.collection = resource'.collection)
    (h : f.withKey resource key? = .ok path) (h' : f.withKey resource' key'? = .ok path') :
    SameSegments path path' := by
  cases hk with
  | none =>
    obtain rfl := Except.ok.inj h
    obtain rfl := Except.ok.inj h'
    exact hr
  | some hk =>
    obtain ⟨text, htext, rfl⟩ := Except.map_eq_ok.1 h
    obtain ⟨text', htext', rfl⟩ := Except.map_eq_ok.1 h'
    rw [he] at htext
    simp only [Option.toList_some, List.flatMap_singleton] at hv hw
    exact hr.append (sameSegments_key hk hv hw htext htext')

theorem sameSegments_withName {exact : String → Except FormatError (List Char)}
    {path path' path₁ path₂ : List Char} {name? : Option String} (hp : SameSegments path path')
    (h : withName exact path name? = .ok path₁) (h' : withName exact path' name? = .ok path₂) :
    SameSegments path₁ path₂ := by
  cases name? with
  | none =>
    obtain rfl := Except.ok.inj h
    obtain rfl := Except.ok.inj h'
    exact hp
  | some name =>
    obtain ⟨segment, hsegment, rfl⟩ := Except.map_eq_ok.1 h
    obtain ⟨segment', hsegment', rfl⟩ := Except.map_eq_ok.1 h'
    obtain rfl := Except.ok.inj (hsegment.symm.trans hsegment')
    exact hp.addSegment (.refl _)

theorem sameSegments_finalSegment {c d : Clauses} (hc : c.Alike d) {path path' : List Char}
    (hp : SameSegments path path') :
    SameSegments (finalSegment c path) (finalSegment d path') := by
  unfold finalSegment
  rw [hc.count, hc.media]
  split
  · exact hp.addSegment (.refl _)
  · split
    · exact hp.addSegment (.refl _)
    · exact hp

theorem sameSegments_refine {resource resource' r r' : Resource} {c d : Clauses} (hc : c.Alike d)
    (hv : ∀ v ∈ c.keyValues, f.PathLiteral v) (hw : ∀ v ∈ d.keyValues, f.PathLiteral v)
    (hr : SameSegments resource.path resource'.path) (he : resource.collection = resource'.collection)
    (h : f.refine resource c = .ok r) (h' : f.refine resource' d = .ok r') :
    SameSegments r.path r'.path ∧ r.collection = r'.collection := by
  obtain ⟨path, hkey, htype, hcollection⟩ := refine_eq_ok h
  obtain ⟨path', hkey', htype', hcollection'⟩ := refine_eq_ok h'
  rw [hc.derivedType] at htype
  have hpath := sameSegments_withKey hc.key hv hw hr he hkey hkey'
  exact ⟨sameSegments_withName hpath htype htype', by rw [hcollection, hcollection', he]⟩

theorem sameSegments_resource {c d : Command} (hc : c.Alike d) {r r' : Resource}
    (hv : ∀ v ∈ c.keyValues, f.PathLiteral v) (hw : ∀ v ∈ d.keyValues, f.PathLiteral v)
    (h : f.resource c = .ok r) (h' : f.resource d = .ok r') :
    SameSegments r.path r'.path ∧ r.collection = r'.collection := by
  induction hc generalizing r r' with
  | service hc => exact sameSegments_refine hc hv hw (.refl _) rfl h h'
  | collection hc =>
    obtain ⟨exact', hname, h⟩ := Except.bind_eq_ok.1 h
    obtain ⟨exact'', hname', h'⟩ := Except.bind_eq_ok.1 h'
    obtain rfl := Except.ok.inj (hname.symm.trans hname')
    exact sameSegments_refine hc hv hw (.refl _) rfl h h'
  | navigation hp hc ih =>
    simp only [Command.keyValues, List.forall_mem_append] at hv hw
    obtain ⟨parent, hparent, h⟩ := Except.bind_eq_ok.1 h
    obtain ⟨parent', hparent', h'⟩ := Except.bind_eq_ok.1 h'
    obtain ⟨hpath, hcollection⟩ := ih hv.1 hw.1 hparent hparent'
    rw [hcollection] at h
    cases hp' : parent'.collection with
    | none =>
      rw [hp'] at h
      contradiction
    | some collection =>
      rw [hp'] at h h'
      obtain ⟨link, hlink, h⟩ := Except.bind_eq_ok.1 h
      obtain ⟨link', hlink', h'⟩ := Except.bind_eq_ok.1 h'
      obtain rfl := Except.ok.inj (hlink.symm.trans hlink')
      obtain ⟨target, htarget, h⟩ := Except.bind_eq_ok.1 h
      obtain ⟨target', htarget', h'⟩ := Except.bind_eq_ok.1 h'
      obtain rfl := Except.ok.inj (htarget.symm.trans htarget')
      refine sameSegments_refine hc hv.2 hw.2 ?_ ?_ h h'
      · exact hpath.append (.refl _)
      · rfl

theorem sameSegments_withFunction {bound : Bool} {path path' path₁ path₂ : List Char}
    {i? j? : Option Invocation} {arguments arguments' : List Clause}
    (hi : Option.Rel Invocation.Alike i? j?)
    (hv : ∀ v ∈ i?.toList.flatMap (·.inlineValues f.version), f.PathLiteral v)
    (hw : ∀ v ∈ j?.toList.flatMap (·.inlineValues f.version), f.PathLiteral v)
    (hp : SameSegments path path') (h : f.withFunction bound path i? = .ok (path₁, arguments))
    (h' : f.withFunction bound path' j? = .ok (path₂, arguments')) :
    SameSegments path₁ path₂ ∧ AlikeClauses arguments arguments' := by
  cases hi with
  | none =>
    obtain ⟨rfl, rfl⟩ := Prod.mk.inj (Except.ok.inj h)
    obtain ⟨rfl, rfl⟩ := Prod.mk.inj (Except.ok.inj h')
    exact ⟨hp, .nil⟩
  | some hi =>
    obtain ⟨name, hname, hargs⟩ := withFunction_some_eq_ok h
    obtain ⟨name', hname', hargs'⟩ := withFunction_some_eq_ok h'
    rw [hi.name] at hname
    obtain rfl := Except.ok.inj (hname.symm.trans hname')
    simp only [Option.toList_some, List.flatMap_singleton, Invocation.inlineValues] at hv hw
    cases hversion : f.version with
    | v3 =>
      simp only [hversion, true_and, reduceCtorEq, false_and, or_false] at hargs hargs'
      obtain ⟨hargs, rfl⟩ := hargs
      obtain ⟨hargs', rfl⟩ := hargs'
      refine ⟨hp.addSegment (.refl _), Except.forall₂_of_mapM hi.arguments ?_ hargs hargs'⟩
      intro argument _ argument' _ hsame c c' hc hc'
      obtain ⟨text, -, rfl⟩ := queryArgument_eq_ok hc
      obtain ⟨text', -, rfl⟩ := queryArgument_eq_ok hc'
      rw [hsame.1]
      exact .escaped ..
    | v4 =>
      simp only [hversion, true_and, reduceCtorEq, false_and, false_or] at hargs hargs' hv hw
      obtain ⟨inline, hargs, rfl⟩ := hargs
      obtain ⟨inline', hargs', rfl⟩ := hargs'
      obtain ⟨hinline, hbound⟩ := sameSegments_arguments hi.arguments hv hw hargs hargs'
      exact ⟨hp.addSegment ((SameSegments.refl name).append (sameSegments_chars hinline)), hbound⟩

theorem sameShape_of_address {c d : Command} (hc : c.Alike d)
    (hv : ∀ v ∈ c.pathValues f.version, f.PathLiteral v)
    (hw : ∀ v ∈ d.pathValues f.version, f.PathLiteral v) {a b : Address}
    (h : f.address c = .ok a) (h' : f.address d = .ok b) (hp : '?' ∉ a.path ∧ '#' ∉ a.path) :
    SameShape a.chars b.chars := by
  simp only [Command.pathValues, List.forall_mem_append] at hv hw
  obtain ⟨r, path₁, path₂, arguments, clauses, hr, hf, ha, hclauses, rfl⟩ := address_eq_ok h
  obtain ⟨r', path₁', path₂', arguments', clauses', hr', hf', ha', hclauses', rfl⟩ :=
    address_eq_ok h'
  obtain ⟨hpath, hcollection⟩ := sameSegments_resource hc hv.1 hw.1 hr hr'
  rw [hc.isBound] at hf ha
  rw [hcollection] at hclauses
  rw [hc.clauses.action] at ha
  obtain ⟨hpath, harguments⟩ := sameSegments_withFunction hc.clauses.function hv.2 hw.2 hpath hf hf'
  have hpath := sameSegments_finalSegment hc.clauses (sameSegments_withName hpath ha ha')
  exact sameShape_chars hpath (harguments.append (alike_clauses hc.clauses hclauses hclauses')) hp

/-- Two commands that differ only in the values of literals have addresses of one shape, if no literal
in the path and no name there has a mark of an address. A number sign or a line break comes from a name
or a raw option only. -/
theorem sameShape_of_alike {c d : Command} (hc : c.Alike d)
    (hv : ∀ v ∈ c.pathValues f.version, f.PathLiteral v)
    (hw : ∀ v ∈ d.pathValues f.version, f.PathLiteral v) {a : Address} {s t : String}
    (ha : f.address c = .ok a) (hp : '?' ∉ a.path ∧ '#' ∉ a.path) (hs : f.uri c = .ok s)
    (ht : f.uri d = .ok t) :
    SameShape s.toList t.toList ∧ ∀ x ∈ ['#', '\r', '\n'], x ∉ a.path →
      (∀ r, f.resource c = .ok r → f.NamesAvoid x r.collection c.clauses) →
      x ∉ s.toList ∧ x ∉ t.toList := by
  obtain ⟨a', ha', rfl⟩ := Except.map_eq_ok.1 hs
  obtain ⟨b, hb, rfl⟩ := Except.map_eq_ok.1 ht
  obtain rfl := Except.ok.inj (ha.symm.trans ha')
  rw [String.toList_ofList, String.toList_ofList]
  have hshape := sameShape_of_address hc hv hw ha hb hp
  refine ⟨hshape, fun x hx hpath hn ↦ ?_⟩
  have hne : x ≠ '&' := by
    rintro rfl
    revert hx
    decide
  have hnot := not_mem_address (List.mem_cons_of_mem '&' hx) hne ha hpath hn
  exact ⟨hnot, mt (hshape.marks x hx).2 hnot⟩

/-- Categories of a product, by texts in a key, a filter, a search and an argument. -/
def related (key title terms id : String) : Command :=
  .navigation (.collection "products" { key := some (.single (.string key)) }) "category"
    { filter := some (.binary .eq (.reference "title") (.literal (.string title)))
      search := some terms
      function := some ⟨"rated", [("id", .string id)]⟩ }

theorem alike_related (key key' title title' id id' : String) {terms terms' : String}
    (h : terms = "" ↔ terms' = "") : (related key title terms id).Alike (related key' title' terms' id') :=
  .navigation (.collection ⟨.some (.single rfl), .none, .none, rfl, .nil, rfl, rfl, rfl, rfl, rfl, .none,
    rfl, rfl, rfl, .nil⟩)
    ⟨.none, .some (.binary (.reference _) (.literal rfl)), .some h, rfl, .nil, rfl, rfl, rfl, rfl, rfl,
      .some ⟨rfl, .cons ⟨rfl, rfl⟩ .nil⟩, rfl, rfl, rfl, .nil⟩

def plainAddress : Address :=
  ⟨"Products('tea')/Category/NS.Rated(id='x')".toList,
    [⟨"$filter".toList, "Title%20eq%20%27b%27".toList⟩, ⟨"$search".toList, ['c']⟩]⟩

def markedUri : String :=
  "Products('it''s')/Category/NS.Rated(id='&=')?" ++
    "$filter=Title%20eq%20%27%26%24top%3D1%23%27&$search=%2F%3F%0D%0A"

theorem sameShape_of_alike_related :
    store.address (related "tea" "b" "c" "x") = .ok plainAddress ∧
      store.uri (related "it's" "&$top=1#" "/?\r\n" "&=") = .ok markedUri ∧
      SameShape plainAddress.chars markedUri.toList ∧
      ∀ x ∈ ['#', '\r', '\n'], x ∉ plainAddress.chars ∧ x ∉ markedUri.toList := by
  have haddress : store.address (related "tea" "b" "c" "x") = .ok plainAddress := by
    decide +kernel
  have huri : store.uri (related "tea" "b" "c" "x") = .ok (String.ofList plainAddress.chars) :=
    congrArg (Except.map _) haddress
  have hmarked : store.uri (related "it's" "&$top=1#" "/?\r\n" "&=") = .ok markedUri := by
    decide +kernel
  have hvalues : ∀ v ∈ (related "tea" "b" "c" "x").pathValues store.version, store.PathLiteral v := by
    decide +kernel
  have hvalues' : ∀ v ∈ (related "it's" "&$top=1#" "/?\r\n" "&=").pathValues store.version,
      store.PathLiteral v := by
    decide +kernel
  obtain ⟨hshape, hmarks⟩ := sameShape_of_alike
    (alike_related "tea" "it's" "b" "&$top=1#" "x" "&=" (by decide)) hvalues hvalues' haddress
    (by decide) huri hmarked
  rw [String.toList_ofList] at hshape hmarks
  refine ⟨haddress, hmarked, hshape, fun x hx ↦ ?_⟩
  have hbreak := List.mem_cons_of_mem '&' hx
  refine hmarks x hx (not_mem_of_all hbreak (by decide)) fun r _ ↦ ?_
  refine ⟨nofun, nofun, fun i hi argument hargument ↦ ?_, nofun, nofun, nofun⟩
  obtain rfl := Option.mem_some.1 hi
  obtain rfl := List.mem_singleton.1 hargument
  exact not_mem_of_all hbreak (by decide)

/-- A name with a question mark puts what follows it into the query. -/
def misnamed (id : String) : Command :=
  .collection "products" { function := some ⟨"rated", [("id?", .string id)]⟩ }

def raw (value : String) : Command :=
  .collection "products" { queryOptions := [("custom", value)] }

/-- Without the conditions a key adds a segment, an empty search text drops an option, an argument behind
a question mark adds one, and a raw option starts a fragment. -/
theorem not_sameShape_of_marks :
    (¬ ∀ c d s t, c.Alike d → store.uri c = .ok s → store.uri d = .ok t →
      (uriSegments s.toList).length = (uriSegments t.toList).length) ∧
    (¬ ∀ terms terms' s t, store.uri (related "tea" "b" terms "x") = .ok s →
      store.uri (related "tea" "b" terms' "x") = .ok t →
      uriOptionNames s.toList = uriOptionNames t.toList) ∧
    (¬ ∀ id id' s t, store.uri (misnamed id) = .ok s → store.uri (misnamed id') = .ok t →
      uriOptionNames s.toList = uriOptionNames t.toList) ∧
    ¬ ∀ value s, store.uri (raw value) = .ok s → '#' ∉ s.toList := by
  refine ⟨fun h ↦ ?_, fun h ↦ ?_, fun h ↦ ?_, fun h ↦ ?_⟩
  · have hlength := h (related "a/b" "b" "" "x") (related "ab" "b" "" "x")
      "Products('a/b')/Category/NS.Rated(id='x')?$filter=Title%20eq%20%27b%27"
      "Products('ab')/Category/NS.Rated(id='x')?$filter=Title%20eq%20%27b%27"
      (alike_related _ _ _ _ _ _ Iff.rfl) (by decide +kernel) (by decide +kernel)
    revert hlength
    decide +kernel
  · have hnames := h "" "c"
      "Products('tea')/Category/NS.Rated(id='x')?$filter=Title%20eq%20%27b%27"
      "Products('tea')/Category/NS.Rated(id='x')?$filter=Title%20eq%20%27b%27&$search=c"
      (by decide +kernel) (by decide +kernel)
    revert hnames
    decide +kernel
  · have hnames := h "x" "x&y" "Products/NS.Rated(id?='x')" "Products/NS.Rated(id?='x&y')"
      (by decide +kernel) (by decide +kernel)
    revert hnames
    decide +kernel
  · have hnot := h "#" "Products?custom=#" (by decide +kernel)
    revert hnot
    decide +kernel

end Formatting
end OData
