import Mathlib.Data.List.Nodup
import OData.Proofs.Address.Key

/-!
Arguments of a function in the newer dialect. All of them stand in the path in their order, a collection
under a name of its own, which the query binds to it. Putting what is bound in the place of the names
gives back all arguments.
-/

namespace OData.Formatting

open OData.Filter (isIdentifier)

variable (f : Formatting)

/-- How arguments are passed in the path, with `used` names given out before. -/
inductive Passes : (used : Nat) → List (String × Value) → (inline bound : List Clause) → Prop
  | nil (used : Nat) : Passes used [] [] []
  | hoisted {used : Nat} {argument : String × Value} {rest : List (String × Value)}
    {inline bound : List Clause} {text : List Char} (hv : argument.2.isCollection)
    (ht : f.literal argument.2 = .ok text) (h : Passes (used + 1) rest inline bound) :
    Passes used (argument :: rest) (⟨argument.1.toList, parameterAlias (used + 1)⟩ :: inline)
      (⟨parameterAlias (used + 1), f.escaped text⟩ :: bound)
  | inlined {used : Nat} {argument : String × Value} {rest : List (String × Value)}
    {inline bound : List Clause} {text : List Char} (hv : argument.2.isCollection = false)
    (ht : f.literal argument.2 = .ok text) (h : Passes used rest inline bound) :
    Passes used (argument :: rest) (⟨argument.1.toList, text⟩ :: inline) bound

/-- An argument in the path with what the query binds to its value, if the value is a bound name. -/
def substituted? (bindings : List Clause) (entry : Clause) : Option Clause :=
  match bindings.find? (·.name = entry.value) with
  | some binding => (Text.unescape? binding.value).map fun text ↦ ⟨entry.name, text⟩
  | none => some entry

/-- How the arguments in the path and the bindings in the query say the arguments of a function. -/
structure HasAliases (arguments : List (String × Value)) (inline bound : List Clause) : Prop where
  length : inline.length = arguments.length
  /-- The collection with number `n` stands under the name with this number, anything else as it is. -/
  stands : ∀ (j : Nat) (argument : String × Value) (entry : Clause), arguments[j]? = some argument →
    inline[j]? = some entry → entry.name = argument.1.toList ∧
      if argument.2.isCollection then
        entry.value = parameterAlias ((arguments.take (j + 1)).countP (·.2.isCollection))
      else f.literal argument.2 = .ok entry.value
  /-- The names are bound in turn, each to the literal of its collection. -/
  names : bound.map Clause.name =
    (List.range' 1 (arguments.countP (·.2.isCollection))).map parameterAlias
  values : List.Forall₂ (fun argument binding ↦ f.EncodesLiteral binding.name argument.2 binding)
    (arguments.filter (·.2.isCollection)) bound
  /-- No name is bound twice, and each is used once. -/
  once : ∀ name ∈ bound.map Clause.name,
    (bound.map Clause.name).count name = 1 ∧ (inline.map Clause.value).count name = 1
  substituted : ∃ entries, inline.mapM (substituted? bound) = some entries ∧
    List.Forall₂ (fun argument entry ↦ entry.name = argument.1.toList ∧
      f.literal argument.2 = .ok entry.value) arguments entries

variable {f} {used n : Nat} {arguments : List (String × Value)} {inline bound : List Clause}

theorem passes_of_pathArguments (h : f.pathArguments used arguments = .ok (inline, bound)) :
    f.Passes used arguments inline bound := by
  induction arguments generalizing used inline bound with
  | nil =>
    obtain ⟨rfl, rfl⟩ := Prod.mk.inj (Except.ok.inj h)
    exact .nil used
  | cons argument rest ih =>
    obtain ⟨text, inline', bound', ht, h⟩ := pathArguments_cons_eq_ok h
    rcases h with ⟨hv, hrest, rfl, rfl⟩ | ⟨hv, hrest, rfl, rfl⟩
    · exact .hoisted hv ht (ih hrest)
    · exact .inlined hv ht (ih hrest)

theorem parameterAlias_injective : Function.Injective parameterAlias := by
  intro m n h
  have hdigits := congrArg Text.digitsValue (List.cons.inj (List.cons.inj h).2).2
  rwa [Text.digitsValue_decimal, Text.digitsValue_decimal] at hdigits

/-- No literal but those of collections has an at sign in front. -/
theorem ne_parameterAlias {v : Value} (hv : v.isCollection = false) {text : List Char}
    (ht : f.literal v = .ok text) (n : Nat) : text ≠ parameterAlias n := by
  rintro rfl
  have hplain := Literal.isPlain_chars hv (Except.mapError_eq_ok.1 ht)
  generalize hname : parameterAlias n = name at hplain
  have hat : Text.isWordChar '@' = false := rfl
  cases hplain with
  | word h =>
    rw [← hname] at h
    exact absurd (h _ List.mem_cons_self) (by simp [hat])
  | @quoted word h cs =>
    cases word with
    | nil => exact absurd (List.cons.inj hname).1 (by decide)
    | cons c word =>
      obtain rfl := (List.cons.inj hname).1
      exact absurd (h _ List.mem_cons_self) (by simp [hat])

namespace Passes

theorem isNamed (h : f.Passes used arguments inline bound)
    (hn : ∀ argument ∈ arguments, isIdentifier argument.1.toList) : ∀ c ∈ inline, c.IsNamed := by
  induction h with
  | nil => exact List.forall_mem_nil _
  | @hoisted used argument rest _ _ _ hv ht h ih =>
    obtain ⟨hname, hrest⟩ := List.forall_mem_cons.1 hn
    have halias : Text.Uncut ',' false (parameterAlias (used + 1)) := by
      refine Text.uncut_of_forall (List.forall_mem_cons.2 ⟨by decide, ?_⟩)
      refine List.forall_mem_cons.2 ⟨by decide, fun c hc ↦ ?_⟩
      have hdigit := Text.isDigit_of_mem_decimal hc
      constructor
      · rintro rfl
        contradiction
      · rintro rfl
        contradiction
    exact List.forall_mem_cons.2 ⟨⟨hname, halias⟩, ih hrest⟩
  | inlined hv ht h ih =>
    obtain ⟨hname, hrest⟩ := List.forall_mem_cons.1 hn
    have hplain := Literal.isPlain_chars hv (Except.mapError_eq_ok.1 ht)
    exact List.forall_mem_cons.2 ⟨⟨hname, hplain.uncut (by decide) (by decide)⟩, ih hrest⟩

theorem length_eq (h : f.Passes used arguments inline bound) : inline.length = arguments.length := by
  induction h with
  | nil => rfl
  | hoisted _ _ _ ih | inlined _ _ _ ih => exact congrArg Nat.succ ih

theorem inline_getElem (h : f.Passes used arguments inline bound) (j : Nat) (argument : String × Value)
    (entry : Clause) (ha : arguments[j]? = some argument) (he : inline[j]? = some entry) :
    entry.name = argument.1.toList ∧
      if argument.2.isCollection then
        entry.value = parameterAlias (used + (arguments.take (j + 1)).countP (·.2.isCollection))
      else f.literal argument.2 = .ok entry.value := by
  induction h generalizing j with
  | nil => contradiction
  | @hoisted used first rest _ _ _ hv ht h ih =>
    cases j with
    | zero =>
      obtain rfl := Option.some.inj ha
      obtain rfl := Option.some.inj he
      simp [hv]
    | succ j =>
      have hnext := ih j ha he
      rwa [List.take_succ_cons, List.countP_cons_of_pos (by exact hv), Nat.add_comm _ 1,
        ← Nat.add_assoc]
  | @inlined used first rest _ _ _ hv ht h ih =>
    cases j with
    | zero =>
      obtain rfl := Option.some.inj ha
      obtain rfl := Option.some.inj he
      simp [hv, ht]
    | succ j =>
      have hnext := ih j ha he
      rwa [List.take_succ_cons, List.countP_cons_of_neg (by simp [hv])]

theorem names_eq (h : f.Passes used arguments inline bound) : bound.map Clause.name =
    (List.range' (used + 1) (arguments.countP (·.2.isCollection))).map parameterAlias := by
  induction h with
  | nil => rfl
  | hoisted hv ht h ih =>
    rw [List.countP_cons_of_pos (by exact hv), List.range'_succ, List.map_cons, List.map_cons, ih]
  | inlined hv ht h ih => rw [List.countP_cons_of_neg (by simp [hv]), ih]

theorem values_eq (h : f.Passes used arguments inline bound) :
    List.Forall₂ (fun argument binding ↦ f.EncodesLiteral binding.name argument.2 binding)
      (arguments.filter (·.2.isCollection)) bound := by
  induction h with
  | nil => exact .nil
  | hoisted hv ht h ih =>
    rw [List.filter_cons_of_pos (by exact hv)]
    exact .cons ⟨_, ht, Clause.encodes_escapeChars ..⟩ ih
  | inlined hv ht h ih =>
    rw [List.filter_cons_of_neg (by simp [hv])]
    exact ih

/-- A name is used in the path as often as the query binds it. -/
theorem count_eq (h : f.Passes used arguments inline bound) (n : Nat) :
    (inline.map Clause.value).count (parameterAlias n) =
      (bound.map Clause.name).count (parameterAlias n) := by
  induction h with
  | nil => rfl
  | hoisted hv ht h ih => simp only [List.map_cons, List.count_cons, ih]
  | inlined hv ht h ih =>
    rw [List.map_cons, List.count_cons_of_ne (ne_parameterAlias hv ht n), ih]

theorem nodup_names (h : f.Passes used arguments inline bound) : (bound.map Clause.name).Nodup := by
  rw [h.names_eq]
  exact List.Nodup.map parameterAlias_injective (List.nodup_range' ..)

theorem exists_parameterAlias (h : f.Passes used arguments inline bound) :
    ∀ c ∈ bound, ∃ n, c.name = parameterAlias n := by
  intro c hc
  have hname := List.mem_map_of_mem (f := Clause.name) hc
  rw [h.names_eq] at hname
  obtain ⟨n, -, hn⟩ := List.mem_map.1 hname
  exact ⟨n, hn.symm⟩

/-- The induction is on what is left of the arguments, where `bindings` are those of them all. -/
theorem exists_substituted (h : f.Passes used arguments inline bound) {bindings : List Clause}
    (hfind : ∀ c ∈ bound, bindings.find? (·.name = c.name) = some c)
    (hnames : ∀ c ∈ bindings, ∃ n, c.name = parameterAlias n) :
    ∃ entries, inline.mapM (substituted? bindings) = some entries ∧
      List.Forall₂ (fun argument entry ↦ entry.name = argument.1.toList ∧
        f.literal argument.2 = .ok entry.value) arguments entries := by
  induction h with
  | nil => exact ⟨[], rfl, .nil⟩
  | @hoisted used argument rest inline bound text hv ht h ih =>
    obtain ⟨hfirst, hrest⟩ := List.forall_mem_cons.1 hfind
    obtain ⟨entries, hentries, hall⟩ := ih hrest
    have hentry : substituted? bindings ⟨argument.1.toList, parameterAlias (used + 1)⟩ =
        some ⟨argument.1.toList, text⟩ := by
      rw [substituted?, hfirst]
      exact congrArg (Option.map _) (Text.unescape?_escapeChars f.escapeMode text)
    refine ⟨⟨argument.1.toList, text⟩ :: entries, ?_, .cons ⟨rfl, ht⟩ hall⟩
    rw [List.mapM_cons, hentry, hentries]
    rfl
  | @inlined used argument rest inline bound text hv ht h ih =>
    obtain ⟨entries, hentries, hall⟩ := ih hfind
    have hentry : substituted? bindings ⟨argument.1.toList, text⟩ =
        some ⟨argument.1.toList, text⟩ := by
      have hnone : bindings.find? (·.name = text) = none := by
        refine List.find?_eq_none.2 fun c hc heq ↦ ?_
        obtain ⟨n, hn⟩ := hnames c hc
        exact ne_parameterAlias hv ht n ((of_decide_eq_true heq).symm.trans hn)
      rw [substituted?, hnone]
    refine ⟨⟨argument.1.toList, text⟩ :: entries, ?_, .cons ⟨rfl, ht⟩ hall⟩
    rw [List.mapM_cons, hentry, hentries]
    rfl

theorem find?_of_nodup {clauses : List Clause} (h : (clauses.map Clause.name).Nodup) :
    ∀ c ∈ clauses, clauses.find? (·.name = c.name) = some c := by
  induction clauses with
  | nil => exact List.forall_mem_nil _
  | cons first rest ih =>
    obtain ⟨hfirst, hrest⟩ := List.nodup_cons.1 h
    refine List.forall_mem_cons.2 ⟨List.find?_cons_of_pos (by simp), fun c hc ↦ ?_⟩
    have hne : first.name ≠ c.name := fun heq ↦ hfirst (heq ▸ List.mem_map_of_mem hc)
    rw [List.find?_cons_of_neg (by simpa using hne)]
    exact ih hrest c hc

theorem hasAliases (h : f.Passes 0 arguments inline bound) : f.HasAliases arguments inline bound where
  length := h.length_eq
  stands j argument entry ha he := by
    have hat := h.inline_getElem j argument entry ha he
    rwa [Nat.zero_add] at hat
  names := h.names_eq
  values := h.values_eq
  once name hname := by
    have hone := List.count_eq_one_of_mem h.nodup_names hname
    obtain ⟨c, hc, rfl⟩ := List.mem_map.1 hname
    obtain ⟨n, hn⟩ := h.exists_parameterAlias c hc
    rw [hn] at hone ⊢
    exact ⟨hone, (h.count_eq n).trans hone⟩
  substituted := h.exists_substituted (find?_of_nodup h.nodup_names) h.exists_parameterAlias

end Passes

/-- The options whose names a command gives. -/
def givenNames (c : Clauses) : List (List Char) :=
  (c.queryOptions.map Prod.fst ++ c.expressionOptions.map Prod.fst).map String.toList

/-- A clause has a name with a dollar sign in front, or one that the command gives. -/
theorem everyOption_name (collection : Option String) (c : Clauses) :
    f.EveryOption collection c fun clause ↦
      clause.name.head? = some '$' ∨ clause.name ∈ givenNames c := by
  have hown : ∀ name ∈ ownNames, name.toList.head? = some '$' := by decide
  exact {
    escaped name h text := .inl (hown name h)
    option option h := .inr (List.mem_map_of_mem (List.mem_append_left _ (List.mem_map_of_mem h)))
    expression option h text :=
      .inr (List.mem_map_of_mem (List.mem_append_right _ (List.mem_map_of_mem h)))
    number name h n := .inl (hown name h)
    listed name h items hi := .inl (hown name h)
    count clause h := by
      unfold countClause at h
      split at h
      · split at h
        · exact .inl (List.mem_singleton.1 h ▸ rfl)
        · exact .inl (List.mem_singleton.1 h ▸ rfl)
      · contradiction }

/-- The address of a function in the newer dialect has all arguments in its path, where collections are
under names of their own. Its query begins with the bindings of these names, and no other clause has such
a name unless the command gives it. -/
theorem aliases_of_uri {command : Command} {i : Invocation} {s : String} (hv : f.version = .v4)
    (hi : command.clauses.function = some i)
    (hn : ∀ argument ∈ i.arguments, isIdentifier argument.1.toList) (h : f.uri command = .ok s) :
    ∃ resource name inner bound others,
      f.resource command = .ok resource ∧ f.operationName command.isBound i.name = .ok name ∧
      s.toList = Address.chars
        ⟨finalSegment command.clauses (addSegment resource.path (name ++ Filter.parenthesized inner)),
          bound ++ others⟩ ∧
      f.HasAliases i.arguments (readNamed inner) bound ∧
      ∀ clause ∈ others, ∀ n, clause.name = parameterAlias n →
        clause.name ∈ givenNames command.clauses := by
  obtain ⟨a, ha, rfl⟩ := Except.map_eq_ok.1 h
  obtain ⟨_, hcheck, -⟩ := Except.bind_eq_ok.1 ha
  obtain ⟨r, path, path', bound, others, hr, hfunction, haction, hothers, rfl⟩ := address_eq_ok ha
  have hnone : command.clauses.action = none := by
    cases haction : command.clauses.action with
    | none => rfl
    | some name =>
      unfold Clauses.check at hcheck
      simp [hi, haction] at hcheck
      split at hcheck <;> contradiction
  rw [hnone] at haction
  obtain rfl := Except.ok.inj haction
  rw [hi] at hfunction
  obtain ⟨name, hname, hpath⟩ := withFunction_some_eq_ok hfunction
  rcases hpath with ⟨hv3, -, -⟩ | ⟨-, inline, harguments, rfl⟩
  · rw [hv] at hv3
    contradiction
  have hpasses := passes_of_pathArguments harguments
  refine ⟨r, name, List.intercalate [','] (inline.map Clause.chars), bound, others, hr, hname,
    String.toList_ofList, ?_, fun clause hclause n hn ↦ ?_⟩
  · rw [readNamed_intercalate (hpasses.isNamed hn)]
    exact hpasses.hasAliases
  · refine ((everyOption_name _ _).of_clauses hothers clause hclause).resolve_left fun hown ↦ ?_
    rw [hn] at hown
    exact absurd (Option.some.inj hown) (by decide)

/-- Collections around a string that looks like the arguments after it. -/
def tagged : Invocation :=
  ⟨"rated", [("ids", .collection [.int32 1, .int32 2]), ("title", .string "',tags=@p1"),
    ("tags", .collection [.string "x"])]⟩

theorem aliases_of_uri_tagged :
    store.uri (.collection "products" { function := some tagged, skip := some 1 }) =
        .ok ("Products/NS.Rated(ids=@p1,title=''',tags=@p1',tags=@p2)?" ++
          "@p1=%5B1%2C2%5D&@p2=%5B%22x%22%5D&$skip=1") ∧
      (∀ argument ∈ tagged.arguments, isIdentifier argument.1.toList) ∧
      ∃ inner bound, store.HasAliases tagged.arguments (readNamed inner) bound := by
  have huri : store.uri (.collection "products" { function := some tagged, skip := some 1 }) =
      .ok ("Products/NS.Rated(ids=@p1,title=''',tags=@p1',tags=@p2)?" ++
        "@p1=%5B1%2C2%5D&@p2=%5B%22x%22%5D&$skip=1") := by
    decide +kernel
  have hnames : ∀ argument ∈ tagged.arguments, isIdentifier argument.1.toList := by
    decide
  obtain ⟨_, _, inner, bound, _, -, -, -, haliases, -⟩ := aliases_of_uri rfl rfl hnames huri
  exact ⟨huri, hnames, inner, bound, haliases⟩

end OData.Formatting
