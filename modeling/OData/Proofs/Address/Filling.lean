import OData.Proofs.Address.Shape
import OData.Proofs.Fields
import OData.Proofs.Filter.Operand
import OData.Proofs.Filter.Operation

/-!
Commands filled with other literals. Two commands that differ in nothing but the values of their literals
have addresses of the same shape: in the query every literal is escaped, and in the path none may have a
mark of its own.
-/

namespace OData

def Value.Alike (v w : Value) : Prop :=
  v.typeName = w.typeName

inductive Expr.Alike : Expr → Expr → Prop
  | reference (path : String) : Alike (.reference path) (.reference path)
  | literal {v w : Value} (h : v.Alike w) : Alike (.literal v) (.literal w)
  | call {name : String} {target target' : Expr} {arguments arguments' : List Expr}
    (ht : Alike target target') (ha : List.Forall₂ Alike arguments arguments') :
    Alike (.call name target arguments) (.call name target' arguments')
  | binary {op : BinaryOperator} {left left' right right' : Expr} (hl : Alike left left')
    (hr : Alike right right') : Alike (.binary op left right) (.binary op left' right')
  | not {operand operand' : Expr} (h : Alike operand operand') : Alike (.not operand) (.not operand')

inductive Key.Alike : Key → Key → Prop
  | single {v w : Value} (h : v.Alike w) : Alike (.single v) (.single w)
  | composite {parts parts' : List (String × Value)}
    (h : List.Forall₂ (SameName Value.Alike) parts parts') :
    Alike (.composite parts) (.composite parts')

structure ExpandOptions.Alike (o o' : ExpandOptions) : Prop where
  select : o.select = o'.select
  filter : Option.Rel Expr.Alike o.filter o'.filter
  orderBy : o.orderBy = o'.orderBy
  top : o.top = o'.top

inductive Expand.Alike : Expand → Expand → Prop
  | node {path : String} {options options' : ExpandOptions} {nested nested' : List Expand}
    (ho : options.Alike options') (hn : List.Forall₂ Alike nested nested') :
    Alike (.node path options nested) (.node path options' nested')

structure Invocation.Alike (i j : Invocation) : Prop where
  name : i.name = j.name
  arguments : List.Forall₂ (SameName Value.Alike) i.arguments j.arguments

/-- The same clauses but for the values of literals. An empty search text is no clause. -/
structure Clauses.Alike (c d : Clauses) : Prop where
  key : Option.Rel Key.Alike c.key d.key
  filter : Option.Rel Expr.Alike c.filter d.filter
  search : Option.Rel (fun s t ↦ s = "" ↔ t = "") c.search d.search
  select : c.select = d.select
  expand : List.Forall₂ Expand.Alike c.expand d.expand
  orderBy : c.orderBy = d.orderBy
  skip : c.skip = d.skip
  top : c.top = d.top
  count : c.count = d.count
  derivedType : c.derivedType = d.derivedType
  function : Option.Rel Invocation.Alike c.function d.function
  action : c.action = d.action
  media : c.media = d.media
  queryOptions : c.queryOptions = d.queryOptions
  expressionOptions : List.Forall₂ (SameName Expr.Alike) c.expressionOptions d.expressionOptions

inductive Command.Alike : Command → Command → Prop
  | service {c d : Clauses} (h : c.Alike d) : Alike (.service c) (.service d)
  | collection {name : String} {c d : Clauses} (h : c.Alike d) :
    Alike (.collection name c) (.collection name d)
  | navigation {parent parent' : Command} {name : String} {c d : Clauses}
    (hp : Alike parent parent') (h : c.Alike d) :
    Alike (.navigation parent name c) (.navigation parent' name d)

theorem Command.Alike.clauses {c d : Command} (h : c.Alike d) : c.clauses.Alike d.clauses := by
  cases h with
  | service h | collection h | navigation _ h => exact h

theorem Command.Alike.isBound {c d : Command} (h : c.Alike d) : c.isBound = d.isBound := by
  cases h <;> rfl

section

open Text

theorem paddedDecimal_ne_nil (width n : Nat) : paddedDecimal width n ≠ [] := by
  simp [paddedDecimal, decimal, Nat.toDigits_ne_nil]

theorem Number.Decimal.chars_ne_nil (d : Number.Decimal) : d.chars ≠ [] := by
  unfold Number.Decimal.chars
  by_cases h : d.scale = 0
  · simp [h, paddedDecimal_ne_nil]
  · simp [h]

theorem realChars_ne_nil (x : Number.Double) : Literal.realChars x ≠ [] := by
  unfold Literal.realChars
  cases x.datum with
  | nan => decide
  | infinite negative => cases negative <;> decide
  | finite negative significand exponent =>
    have h (d : Number.DecimalDigits) : d.positional ≠ [] ∧ d.scientific false ≠ [] := by
      constructor
      · unfold Number.DecimalDigits.positional
        split
        · simp
        · dsimp only
          split <;> simp
      · simp [Number.DecimalDigits.scientific]
    dsimp only
    split
    · simp
    · split
      · decide
      · split
        · exact (h _).2
        · exact (h _).1

theorem Literal.wrapped_ne_nil (word : String) (cs : List Char) : wrapped word cs ≠ [] := by
  simp [wrapped]

theorem Literal.chars_ne_nil {version : Version} {v : Value} {cs : List Char}
    (h : Literal.chars version v = .ok cs) : cs ≠ [] := by
  cases v with
  | null =>
    obtain rfl := Except.ok.inj h
    decide
  | boolean b =>
    obtain rfl := Except.ok.inj h
    cases b <;> decide
  | int32 n | int64 n =>
    obtain rfl := Except.ok.inj h
    simp [Text.signedDecimal_ne_nil]
  | decimal d =>
    obtain rfl := Except.ok.inj h
    simp [d.chars_ne_nil]
  | single x | double x =>
    obtain rfl := Except.ok.inj h
    simp [realChars_ne_nil]
  | string s =>
    obtain rfl := Except.ok.inj h
    exact List.cons_ne_nil _ _
  | guid g =>
    cases version <;> obtain rfl := Except.ok.inj h
    · exact wrapped_ne_nil _ _
    · simp [Guid.chars]
  | dateTime d =>
    cases version <;> obtain rfl := Except.ok.inj h
    · exact wrapped_ne_nil _ _
    · simp
  | dateTimeOffset d =>
    cases version <;> obtain rfl := Except.ok.inj h
    · exact wrapped_ne_nil _ _
    · simp [Calendar.OffsetDateTime.chars, Calendar.offsetChars]
  | date d =>
    cases version <;> obtain rfl := Except.ok.inj h
    · exact wrapped_ne_nil _ _
    · simp [Calendar.Date.chars]
  | timeOfDay d =>
    cases version <;> obtain rfl := Except.ok.inj h
    · exact wrapped_ne_nil _ _
    · simp [Calendar.Time.chars]
  | duration d =>
    cases version <;> obtain rfl := Except.ok.inj h <;> exact wrapped_ne_nil _ _
  | binary octets =>
    cases version <;> obtain rfl := Except.ok.inj h <;> exact wrapped_ne_nil _ _
  | collection items =>
    cases version with
    | v3 => contradiction
    | v4 =>
      obtain rfl := Except.ok.inj h
      exact List.cons_ne_nil _ _
  | record | range => contradiction

end

theorem Filter.chars_ne_nil {r : Resolver} {version : Version} {collection : Option String}
    {e : Expr} {cs : List Char} (he : ∀ path, e ≠ .reference path)
    (h : chars r version collection e = .ok cs) : cs ≠ [] := by
  cases e with
  | reference path => exact absurd rfl (he path)
  | literal v => exact Literal.chars_ne_nil (Except.mapError_eq_ok.1 h)
  | call name target arguments =>
    obtain ⟨form, text, texts, -, -, -, rfl⟩ := chars_call_eq_ok.1 h
    simp [parenthesized]
  | binary op left right => exact (operation_of_chars h).ne_nil
  | not operand =>
    obtain ⟨inner, -, rfl⟩ := chars_not_eq_ok.1 h
    simp [negationKeyword]

namespace Formatting

variable {f : Formatting} {collection : Option String}

/-- The text of a filter is empty only for a reference, and alike filters have the same references. -/
theorem filter_eq_nil_iff {e e' : Expr} {text text' : List Char} (he : e.Alike e')
    (h : f.filter collection e = .ok text) (h' : f.filter collection e' = .ok text') :
    text = [] ↔ text' = [] := by
  cases he with
  | reference path => rw [Except.ok.inj (h.symm.trans h')]
  | literal | call | binary | not =>
    have hne := Filter.chars_ne_nil (by simp) h
    have hne' := Filter.chars_ne_nil (by simp) h'
    simp [hne, hne']

/-- Clauses that can stand for each other. -/
def AlikeClauses (clauses clauses' : List Clause) : Prop :=
  List.Forall₂ (fun c d ↦ Interchangeable c.chars d.chars) clauses clauses'

theorem AlikeClauses.refl (clauses : List Clause) : AlikeClauses clauses clauses :=
  List.forall₂_same.2 fun c _ ↦ .refl c.chars

theorem AlikeClauses.append {cs ds cs' ds' : List Clause} (h : AlikeClauses cs ds)
    (h' : AlikeClauses cs' ds') : AlikeClauses (cs ++ cs') (ds ++ ds') :=
  List.rel_append h h'

theorem AlikeClauses.escaped (name : List Char) (mode : Text.EscapeMode) (v w : List Char) :
    AlikeClauses [⟨name, Text.escapeChars mode v⟩] [⟨name, Text.escapeChars mode w⟩] :=
  .cons (.escaped name mode v w) .nil

theorem alike_filterClause {e? e'? : Option Expr} {clauses clauses' : List Clause}
    (he : Option.Rel Expr.Alike e? e'?) (h : f.filterClause collection e? = .ok clauses)
    (h' : f.filterClause collection e'? = .ok clauses') : AlikeClauses clauses clauses' := by
  cases he with
  | none =>
    obtain rfl := Except.ok.inj (h.symm.trans h')
    exact .refl clauses
  | some he =>
    obtain ⟨text, htext, rfl⟩ := filterClause_some_eq_ok h
    obtain ⟨text', htext', rfl⟩ := filterClause_some_eq_ok h'
    have hempty := filter_eq_nil_iff he htext htext'
    by_cases hnil : text = []
    · rw [if_pos hnil, if_pos (hempty.1 hnil)]
      exact .nil
    · rw [if_neg hnil, if_neg (mt hempty.2 hnil)]
      exact .escaped ..

theorem alike_searchClause {terms? terms'? : Option String}
    (h : Option.Rel (fun s t ↦ s = "" ↔ t = "") terms? terms'?) :
    AlikeClauses (f.searchClause terms?) (f.searchClause terms'?) := by
  unfold searchClause
  cases f.version with
  | v3 => exact .nil
  | v4 =>
    cases h with
    | none => exact .nil
    | @some s t h =>
      by_cases hempty : s = ""
      · simp only [hempty, h.1 hempty, if_true]
        exact .nil
      · simp only [hempty, mt h.2 hempty, if_false]
        exact .escaped ..

theorem alike_expressionClauses {options options' : List (String × Expr)}
    {clauses clauses' : List Clause} (he : List.Forall₂ (SameName Expr.Alike) options options')
    (h : options.mapM (f.expressionClause collection) = .ok clauses)
    (h' : options'.mapM (f.expressionClause collection) = .ok clauses') :
    AlikeClauses clauses clauses' := by
  refine Except.forall₂_of_mapM he (fun option _ option' _ hname c c' hc hc' ↦ ?_) h h'
  obtain ⟨text, -, rfl⟩ := expressionClause_eq_ok hc
  obtain ⟨text', -, rfl⟩ := expressionClause_eq_ok hc'
  rw [hname.1]
  exact .escaped ..

theorem alike_filterOption {target : Option String} {e? e'? : Option Expr}
    {clauses clauses' : List Clause} (he : Option.Rel Expr.Alike e? e'?)
    (h : f.filterOption target e? = .ok clauses) (h' : f.filterOption target e'? = .ok clauses') :
    AlikeClauses clauses clauses' := by
  cases he with
  | none =>
    obtain rfl := Except.ok.inj (h.symm.trans h')
    exact .refl clauses
  | some he =>
    obtain ⟨text, -, rfl⟩ := Except.map_eq_ok.1 h
    obtain ⟨text', -, rfl⟩ := Except.map_eq_ok.1 h'
    exact .escaped ..

theorem alike_expandOptions {target : Option String} {o o' : ExpandOptions}
    {clauses clauses' : List Clause} (ho : o.Alike o') (h : f.expandOptions target o = .ok clauses)
    (h' : f.expandOptions target o' = .ok clauses') : AlikeClauses clauses clauses' := by
  obtain ⟨select, filter, orderBy, hs, hf, hb, rfl⟩ := expandOptions_eq_ok h
  obtain ⟨select', filter', orderBy', hs', hf', hb', rfl⟩ := expandOptions_eq_ok h'
  rw [ho.select] at hs
  rw [ho.orderBy] at hb
  obtain rfl := Except.ok.inj (hs.symm.trans hs')
  obtain rfl := Except.ok.inj (hb.symm.trans hb')
  rw [ho.top]
  exact (((AlikeClauses.refl _).append (alike_filterOption ho.filter hf hf')).append
    (.refl _)).append (.refl _)

theorem alike_listClause (name : String) {texts texts' : List (List Char)}
    (h : List.Forall₂ Interchangeable texts texts') :
    AlikeClauses (listClause name texts) (listClause name texts') := by
  have hempty : texts = [] ↔ texts' = [] := by
    rw [← List.length_eq_zero_iff, h.length_eq, List.length_eq_zero_iff]
  unfold listClause
  by_cases hnil : texts = []
  · rw [if_pos hnil, if_pos (hempty.1 hnil)]
    exact .nil
  · rw [if_neg hnil, if_neg (mt hempty.2 hnil)]
    exact .cons (.clause _ (rel_intercalate .refl .append [','] h)) .nil

theorem interchangeable_nestedSegments {options options' : List Clause}
    (ho : AlikeClauses options options') {segments : List (List Char)} {text text' : List Char}
    (h : nestedSegments options segments = .ok text)
    (h' : nestedSegments options' segments = .ok text') : Interchangeable text text' := by
  have hparenthesized {v w : List Char} (h : Interchangeable v w) :
      Interchangeable (Filter.parenthesized v) (Filter.parenthesized w) :=
    ((Interchangeable.refl ['(']).append h).append (.refl [')'])
  induction segments generalizing text text' with
  | nil => contradiction
  | cons segment rest ih =>
    cases rest with
    | nil =>
      obtain rfl := Except.ok.inj h
      obtain rfl := Except.ok.inj h'
      have hempty : options = [] ↔ options' = [] := by
        rw [← List.length_eq_zero_iff, ho.length_eq, List.length_eq_zero_iff]
      by_cases hnil : options = []
      · rw [if_pos hnil, if_pos (hempty.1 hnil)]
        exact .refl segment
      · rw [if_neg hnil, if_neg (mt hempty.2 hnil)]
        refine (Interchangeable.refl segment).append (hparenthesized ?_)
        refine rel_intercalate .refl .append [';'] ?_
        rwa [List.forall₂_map_left_iff, List.forall₂_map_right_iff]
    | cons next rest =>
      obtain ⟨inner, hinner, h⟩ := Except.bind_eq_ok.1 h
      obtain ⟨inner', hinner', h'⟩ := Except.bind_eq_ok.1 h'
      obtain rfl := Except.ok.inj h
      obtain rfl := Except.ok.inj h'
      exact (Interchangeable.refl segment).append (hparenthesized (.clause _ (ih hinner hinner')))

-- `Expand.Alike` nests through `List.Forall₂`, which has no induction of its own here; the two recurse
-- on the evidence together.
mutual

theorem interchangeable_nestedExpand {collection : Option String} {e e' : Expand}
    {text text' : List Char} (he : e.Alike e')
    (h : f.nestedExpand collection e = .ok text) (h' : f.nestedExpand collection e' = .ok text') :
    Interchangeable text text' := by
  match e, e', he with
  | .node path options nested, .node _ options' nested', .node ho hn =>
    obtain ⟨segments, target, clauses, below, hpath, hclauses, hbelow, h⟩ := nestedExpand_eq_ok h
    obtain ⟨segments', target', clauses', below', hpath', hclauses', hbelow', h'⟩ :=
      nestedExpand_eq_ok h'
    obtain ⟨rfl, rfl⟩ := Prod.mk.inj (Except.ok.inj (hpath.symm.trans hpath'))
    have hbelows := alike_listClause "$expand" (interchangeable_nestedExpands hn hbelow hbelow')
    exact interchangeable_nestedSegments
      ((alike_expandOptions ho hclauses hclauses').append hbelows) h h'

theorem interchangeable_nestedExpands {collection : Option String} {es es' : List Expand}
    {texts texts' : List (List Char)} (he : List.Forall₂ Expand.Alike es es')
    (h : f.nestedExpands collection es = .ok texts)
    (h' : f.nestedExpands collection es' = .ok texts') :
    List.Forall₂ Interchangeable texts texts' := by
  match es, es', he with
  | [], [], .nil =>
    obtain rfl := Except.ok.inj h
    obtain rfl := Except.ok.inj h'
    exact .nil
  | e :: es, e' :: es', .cons he hes =>
    obtain ⟨first, hfirst, h⟩ := Except.bind_eq_ok.1 h
    obtain ⟨first', hfirst', h'⟩ := Except.bind_eq_ok.1 h'
    obtain ⟨others, hothers, h⟩ := Except.bind_eq_ok.1 h
    obtain ⟨others', hothers', h'⟩ := Except.bind_eq_ok.1 h'
    obtain rfl := Except.ok.inj h
    obtain rfl := Except.ok.inj h'
    exact .cons (interchangeable_nestedExpand he hfirst hfirst')
      (interchangeable_nestedExpands hes hothers hothers')

end

mutual

theorem flatExpand_eq_of_alike {e e' : Expand} (he : e.Alike e') (collection : Option String)
    (above : List Char) : f.flatExpand collection above e = f.flatExpand collection above e' := by
  match e, e', he with
  | .node path options nested, .node _ options' nested', .node ho hn =>
    cases hn with
    | nil =>
      rw [flatExpand, flatExpand, ho.select]
    | cons he hes =>
      rw [flatExpand, flatExpand, ho.select]
      simp only [flatExpand_eq_of_alike he, flatExpands_eq_of_alike hes]

theorem flatExpands_eq_of_alike {es es' : List Expand} (he : List.Forall₂ Expand.Alike es es')
    (collection : Option String) (above : List Char) :
    f.flatExpands collection above es = f.flatExpands collection above es' := by
  match es, es', he with
  | [], [], .nil => rfl
  | e :: es, e' :: es', .cons he hes =>
    rw [flatExpands, flatExpands, flatExpand_eq_of_alike he, flatExpands_eq_of_alike hes]

end

theorem alike_expandClause {expands expands' : List Expand} {clauses clauses' : List Clause}
    {fields fields' : List (List Char)} (he : List.Forall₂ Expand.Alike expands expands')
    (h : f.expandClause collection expands = .ok (clauses, fields))
    (h' : f.expandClause collection expands' = .ok (clauses', fields')) :
    AlikeClauses clauses clauses' ∧ fields = fields' := by
  unfold expandClause at h h'
  cases he with
  | nil =>
    obtain ⟨rfl, rfl⟩ := Prod.mk.inj (Except.ok.inj h)
    obtain ⟨rfl, rfl⟩ := Prod.mk.inj (Except.ok.inj h')
    exact ⟨.nil, rfl⟩
  | cons he hes =>
    have hexpands := List.Forall₂.cons he hes
    rw [if_neg (by simp)] at h h'
    cases hv : f.version with
    | v4 =>
      simp only [hv] at h h'
      obtain ⟨items, hitems, h⟩ := Except.bind_eq_ok.1 h
      obtain ⟨items', hitems', h'⟩ := Except.bind_eq_ok.1 h'
      obtain ⟨rfl, rfl⟩ := Prod.mk.inj (Except.ok.inj h)
      obtain ⟨rfl, rfl⟩ := Prod.mk.inj (Except.ok.inj h')
      have htexts := interchangeable_nestedExpands hexpands hitems hitems'
      exact ⟨.cons (.clause _ (rel_intercalate .refl .append [','] htexts)) .nil, rfl⟩
    | v3 =>
      simp only [hv] at h h'
      rw [flatExpands_eq_of_alike hexpands] at h
      obtain ⟨rfl, rfl⟩ := Prod.mk.inj (Except.ok.inj (h.symm.trans h'))
      exact ⟨.refl clauses, rfl⟩

theorem alike_clauses {c d : Clauses} {clauses clauses' : List Clause} (hc : c.Alike d)
    (h : f.clauses collection c = .ok clauses) (h' : f.clauses collection d = .ok clauses') :
    AlikeClauses clauses clauses' := by
  obtain ⟨filter, expressions, select, expand, fields, orderBy, hfilter, hexpressions, hselect,
    hexpand, horder, rfl⟩ := clauses_eq_ok h
  obtain ⟨filter', expressions', select', expand', fields', orderBy', hfilter', hexpressions',
    hselect', hexpand', horder', rfl⟩ := clauses_eq_ok h'
  rw [hc.select] at hselect
  rw [hc.orderBy] at horder
  obtain rfl := Except.ok.inj (hselect.symm.trans hselect')
  obtain rfl := Except.ok.inj (horder.symm.trans horder')
  obtain ⟨hexpands, rfl⟩ := alike_expandClause hc.expand hexpand hexpand'
  have hhead := ((alike_filterClause hc.filter hfilter hfilter').append
    (alike_searchClause (f := f) hc.search)).append (.refl (c.queryOptions.map optionClause))
  have hmiddle := ((hhead.append (alike_expressionClauses hc.expressionOptions hexpressions
    hexpressions')).append (.refl (numberClause "$skip" c.skip))).append
    (.refl (numberClause "$top" c.top))
  rw [← hc.queryOptions, ← hc.skip, ← hc.top, ← hc.count]
  exact (((hmiddle.append hexpands).append (.refl _)).append (.refl _)).append (.refl _)

end Formatting

end OData
