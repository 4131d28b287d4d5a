import OData.Format.Reference
import OData.Proofs.Answer
import OData.Proofs.Text.Occurrence
import OData.Schema.Basic

/-!
The parts of a resolved path. Each segment adds a name behind a slash, or a function of all that stands
before it. The text is an operand, a row of names within functions, just where no name follows a
function; a name that does is taken as it is written, like one behind a property.
-/

namespace OData

/-- What a segment adds to a path. -/
inductive PathPart
  | name (text : List Char)
  | function (name : String)
  deriving DecidableEq

namespace PathPart

def call (text : List Char) (function : String) : List Char :=
  function.toList ++ '(' :: text ++ [')']

/-- What is written of a path after another part. -/
def extend (segments : List (List Char)) : PathPart → List (List Char)
  | name text => segments ++ [text]
  | function f => [call (List.intercalate ['/'] segments) f]

/-- The text of a path that has these parts. -/
def written (parts : List PathPart) : List Char :=
  List.intercalate ['/'] (parts.foldl extend [])

def IsFunction : PathPart → Prop
  | name _ => False
  | function _ => True

/-- Nothing but functions follows a function. -/
def FunctionsLast (parts : List PathPart) : Prop :=
  parts.Pairwise fun part later ↦ part.IsFunction → later.IsFunction

/-- Names, and functions of them. -/
def ofOperand (names : List (List Char)) (functions : List String) : List PathPart :=
  names.map name ++ functions.map function

end PathPart

/-- Names within functions, the innermost function first. -/
def operandText (names : List (List Char)) (functions : List String) : List Char :=
  functions.foldl PathPart.call (List.intercalate ['/'] names)

def IsSegmentFunction (v : Version) (f : String) : Prop :=
  ∃ segment form, lookupFunction v segment 0 = some form ∧ form.name = f

/-- A text that is not empty and has none of the marks that hold an operand together. -/
def IsPathName (text : List Char) : Prop :=
  text ≠ [] ∧ '/' ∉ text ∧ '(' ∉ text ∧ ')' ∉ text

/-- The text of at least one name within any number of functions. -/
def IsOperand (v : Version) (text : List Char) : Prop :=
  ∃ names functions, names ≠ [] ∧ (∀ name ∈ names, IsPathName name) ∧
    (∀ f ∈ functions, IsSegmentFunction v f) ∧ text = operandText names functions

/-! ### Parts -/

namespace PathPart

variable {parts : List PathPart} {names : List (List Char)} {functions : List String}

theorem foldl_extend_names (segments : List (List Char)) :
    (names.map name).foldl extend segments = segments ++ names := by
  induction names generalizing segments with
  | nil => rw [List.map_nil, List.foldl_nil, List.append_nil]
  | cons text names ih =>
    rw [List.map_cons, List.foldl_cons, ih, extend, List.append_assoc, List.singleton_append]

theorem intercalate_foldl_functions (segments : List (List Char)) :
    List.intercalate ['/'] ((functions.map function).foldl extend segments) =
      functions.foldl call (List.intercalate ['/'] segments) := by
  induction functions generalizing segments with
  | nil => rfl
  | cons f functions ih =>
    rw [List.map_cons, List.foldl_cons, ih, extend, List.intercalate_singleton, List.foldl_cons]

theorem written_ofOperand : written (ofOperand names functions) = operandText names functions := by
  rw [written, ofOperand, List.foldl_append, foldl_extend_names, intercalate_foldl_functions,
    operandText, List.nil_append]

/-- Parts are names with functions behind them, or a name follows a function. -/
theorem eq_ofOperand_or (parts : List PathPart) :
    (∃ names functions, parts = ofOperand names functions) ∨
      ∃ before f text after, parts = before ++ function f :: name text :: after := by
  induction parts with
  | nil => exact .inl ⟨[], [], rfl⟩
  | cons part rest ih =>
    rcases ih with ⟨names, functions, rfl⟩ | ⟨before, f, text, after, rfl⟩
    · cases part with
      | name text => exact .inl ⟨text :: names, functions, rfl⟩
      | function f =>
        cases names with
        | nil => exact .inl ⟨[], f :: functions, rfl⟩
        | cons text names => exact .inr ⟨[], f, text, _, rfl⟩
    · exact .inr ⟨part :: before, f, text, after, rfl⟩

theorem functionsLast_iff : FunctionsLast parts ↔
    ∃ names functions, parts = ofOperand names functions := by
  constructor
  · intro h
    rcases eq_ofOperand_or parts with hparts | ⟨before, f, text, after, rfl⟩
    · exact hparts
    · have hlater := (List.pairwise_append.1 h).2.1
      exact ((List.pairwise_cons.1 hlater).1 _ List.mem_cons_self trivial).elim
  · rintro ⟨names, functions, rfl⟩
    refine List.pairwise_append.2 ⟨?_, ?_, ?_⟩
    · exact List.pairwise_map.2 (List.pairwise_of_forall fun _ _ h ↦ h.elim)
    · exact List.pairwise_map.2 (List.pairwise_of_forall fun _ _ _ ↦ trivial)
    · intro part hpart later hlater h
      obtain ⟨text, -, rfl⟩ := List.mem_map.1 hpart
      exact h.elim

/-- What is written of a path stays in the text. -/
theorem infix_foldl_extend (parts : List PathPart) (segments : List (List Char)) :
    List.intercalate ['/'] segments <:+: List.intercalate ['/'] (parts.foldl extend segments) := by
  induction parts generalizing segments with
  | nil => exact List.infix_rfl
  | cons part parts ih =>
    refine List.IsInfix.trans ?_ (ih (part.extend segments))
    cases part with
    | name text =>
      by_cases hsegments : segments = []
      · rw [hsegments, List.intercalate_nil]
        exact List.nil_infix
      · rw [extend, Text.intercalate_append hsegments (List.cons_ne_nil _ _)]
        exact (List.prefix_append _ _).isInfix
    | function f =>
      rw [extend, List.intercalate_singleton, call]
      exact ⟨f.toList ++ ['('], [')'], by simp⟩

/-- A name behind a function leaves its mark. -/
theorem infix_written (h : ¬ FunctionsLast parts) : [')', '/'] <:+: written parts := by
  rcases eq_ofOperand_or parts with hparts | ⟨before, f, text, after, rfl⟩
  · exact absurd (functionsLast_iff.2 hparts) h
  · rw [written, List.foldl_append, List.foldl_cons, List.foldl_cons]
    refine List.IsInfix.trans ?_ (infix_foldl_extend after _)
    rw [extend, extend, List.singleton_append, List.intercalate_cons_cons,
      List.intercalate_singleton]
    exact ⟨f.toList ++ '(' :: List.intercalate ['/'] (before.foldl extend []), text, by simp [call]⟩

end PathPart

/-! ### Operands -/

theorem IsSegmentFunction.not_mem {v : Version} {f : String} (h : IsSegmentFunction v f) :
    ')' ∉ f.toList := by
  have htable : ∀ entry ∈ FunctionEntry.table, ∀ form ∈ entry.form? v,
      form.name.toList.all (· ≠ ')') := by
    cases v <;> decide
  obtain ⟨segment, form, hform, rfl⟩ := h
  obtain ⟨entry, hentry, hform⟩ := Option.bind_eq_some_iff.1 hform
  have hname := htable entry (List.mem_of_find?_eq_some hentry) form hform
  intro hmem
  have hne : decide (')' ≠ ')') = true := List.all_eq_true.1 hname _ hmem
  exact of_decide_eq_true hne rfl

theorem IsOperand.ne_nil {v : Version} {text : List Char} (h : IsOperand v text) : text ≠ [] := by
  obtain ⟨names, functions, hne, hnames, -, rfl⟩ := h
  have hbase : List.intercalate ['/'] names ≠ [] := by
    obtain ⟨name, names, rfl⟩ := List.exists_cons_of_ne_nil hne
    obtain ⟨rest, hrest⟩ := Text.exists_intercalate_cons '/' name names
    rw [hrest]
    exact List.append_ne_nil_of_left_ne_nil (hnames name List.mem_cons_self).1 rest
  clear hne hnames
  rw [operandText]
  generalize List.intercalate ['/'] names = text at hbase
  induction functions generalizing text with
  | nil => exact hbase
  | cons f functions ih => exact ih _ (by simp [PathPart.call])

theorem IsOperand.not_infix {v : Version} {text : List Char} (h : IsOperand v text) :
    ¬ [')', '/'] <:+: text := by
  obtain ⟨names, functions, -, hnames, hfunctions, rfl⟩ := h
  have hbase : ¬ [')', '/'] <:+: List.intercalate ['/'] names := by
    intro hmark
    have hmem : ')' ∈ List.intercalate ['/'] names := hmark.subset (List.mem_cons_self ..)
    rcases Text.mem_of_mem_intercalate hmem with hc | ⟨name, hname, hc⟩
    · contradiction
    · exact (hnames name hname).2.2.2 hc
  clear hnames
  rw [operandText]
  generalize List.intercalate ['/'] names = text at hbase
  induction functions generalizing text with
  | nil => exact hbase
  | cons f functions ih =>
    obtain ⟨hf, hfunctions⟩ := List.forall_mem_cons.1 hfunctions
    refine ih hfunctions _ fun hmark ↦ ?_
    have hcall : PathPart.call text f = f.toList ++ '(' :: (text ++ [')']) := by
      simp [PathPart.call]
    rw [hcall, Text.infix_append_cons (by decide)] at hmark
    rcases hmark with hmark | hmark
    · exact hf.not_mem (hmark.subset (List.mem_cons_self ..))
    · have hmark : [')'] ++ ['/'] <:+: text ++ [')'] := hmark
      exact hbase (Text.infix_of_infix_append (by decide) hmark)

/-! ### Steps -/

namespace ResolvedPath

open PathPart

section

variable (r : Resolver) (v : Version) (path : String)

/-- A segment is no property where a path leads to. -/
def NoProperty (p : ResolvedPath) (segment : String) : Prop :=
  p.field = none → ∀ collection, p.collection = some collection →
    ∀ exact, r.field collection segment ≠ .ok exact ∧ r.navigation collection segment ≠ .ok exact

/-- What a segment adds to a path: a field, else a navigation, else a function of what is there; or itself
behind a field and where no collection is known. -/
inductive Adds (segment : String) (p : ResolvedPath) : PathPart → Prop
  | field {collection exact : String} (hfield : p.field = none)
      (hcollection : p.collection = some collection) (h : r.field collection segment = .ok exact) :
      Adds segment p (.name exact.toList)
  | navigation {collection exact : String} (hfield : p.field = none)
      (hcollection : p.collection = some collection)
      (hnofield : ∀ name, r.field collection segment ≠ .ok name)
      (h : r.navigation collection segment = .ok exact) : Adds segment p (.name exact.toList)
  | function {form : FunctionForm} (hproperty : NoProperty r p segment) (hsegments : p.segments ≠ [])
      (h : lookupFunction v segment 0 = some form) : Adds segment p (.function form.name)
  | written (hfree : p.field.isSome ∨ p.collection = none)
      (hfunction : p.segments = [] ∨ lookupFunction v segment 0 = none) :
      Adds segment p (.name segment.toList)

/-- Segments with the part that each adds, from a path to another. -/
inductive Reads : ResolvedPath → List (List Char) → List PathPart → ResolvedPath → Prop
  | nil (p : ResolvedPath) : Reads p [] [] p
  | cons {p next last : ResolvedPath} {segment : List Char} {segments : List (List Char)}
      {part : PathPart} {parts : List PathPart} (hadds : Adds r v (String.ofList segment) p part)
      (hstep : step r v path (String.ofList segment) p = .ok next)
      (hwritten : next.segments = part.extend p.segments) (rest : Reads next segments parts last) :
      Reads p (segment :: segments) (part :: parts) last

/-- A segment behind a path is nothing there: no property and no function, or a navigation that leads
nowhere. -/
inductive Refuses (segment : String) (p : ResolvedPath) : FormatError → Prop
  | unresolved (hknown : p.field = none ∧ p.collection.isSome) (hproperty : NoProperty r p segment)
      (hfunction : p.segments = [] ∨ lookupFunction v segment 0 = none) :
      Refuses segment p (.unresolvedReference segment path)
  | target {collection exact : String} {e : NameNotFound} (hfield : p.field = none)
      (hcollection : p.collection = some collection)
      (hnavigation : r.navigation collection segment = .ok exact)
      (htarget : r.target collection exact = .error e) : Refuses segment p (.nameNotFound e)

/-- What a segment comes to: a longer path, or an error. -/
inductive Meets (segment : String) (p : ResolvedPath) : Except FormatError ResolvedPath → Prop
  | adds {q : ResolvedPath} {part : PathPart} (hadds : Adds r v segment p part)
      (hwritten : q.segments = part.extend p.segments) : Meets segment p (.ok q)
  | refuses {e : FormatError} (h : Refuses r v path segment p e) : Meets segment p (.error e)

end

variable {r : Resolver} {v : Version} {path : String} {p q : ResolvedPath} {segment : String}
  {segments : List (List Char)} {parts : List PathPart} {e : FormatError}

theorem stepFunction?_eq_none : stepFunction? v segment p = none ↔
    p.segments = [] ∨ lookupFunction v segment 0 = none := by
  rw [stepFunction?]
  split
  · rename_i hsegments
    exact ⟨fun _ ↦ .inl hsegments, fun _ ↦ rfl⟩
  · rename_i hsegments
    rw [Option.map_eq_none_iff, or_iff_right hsegments]

theorem meets_stepOther (hproperty : NoProperty r p segment) :
    Meets r v path segment p (stepOther v path segment p) := by
  rw [stepOther]
  split
  · rename_i hfunction
    rw [stepFunction?] at hfunction
    split at hfunction
    · contradiction
    · rename_i hsegments
      obtain ⟨form, hform, rfl⟩ := Option.map_eq_some_iff.1 hfunction
      exact .adds (.function hproperty hsegments hform) rfl
  · rename_i hfunction
    have hfunction := stepFunction?_eq_none.1 hfunction
    split
    · rename_i hfree
      rw [Bool.or_eq_true, Option.isNone_iff_eq_none] at hfree
      exact .adds (.written hfree hfunction) rfl
    · rename_i hfree
      rw [Bool.not_eq_true, Bool.or_eq_false_iff, Option.isSome_eq_false_iff,
        Option.isNone_eq_false_iff, Option.isNone_iff_eq_none] at hfree
      exact .refuses (.unresolved hfree hproperty hfunction)

theorem meets_step (r : Resolver) (v : Version) (path segment : String) (p : ResolvedPath) :
    Meets r v path segment p (step r v path segment p) := by
  rw [step]
  split
  · rename_i collection hfield hcollection
    split
    · rename_i exact hexact
      exact .adds (.field hfield hcollection hexact) rfl
    · rename_i hnofield
      split
      · rename_i exact hnavigation
        cases htarget : r.target collection exact with
        | error e => exact .refuses (.target hfield hcollection hnavigation htarget)
        | ok target =>
          refine .adds (.navigation hfield hcollection (fun name h ↦ ?_) hnavigation) rfl
          rw [hnofield] at h
          contradiction
      · rename_i hnonavigation
        refine meets_stepOther fun _ other hother exact ↦ ?_
        obtain rfl := Option.some.inj (hcollection.symm.trans hother)
        rw [hnofield, hnonavigation]
        exact ⟨fun h ↦ by contradiction, fun h ↦ by contradiction⟩
  · rename_i hknown
    exact meets_stepOther fun hfield collection hcollection ↦
      (hknown collection hfield hcollection).elim

theorem reads_of_steps (h : steps r v path segments p = .ok q) :
    ∃ parts, Reads r v path p segments parts q := by
  induction segments generalizing p with
  | nil =>
    obtain rfl := Except.ok.inj h
    exact ⟨[], .nil p⟩
  | cons segment segments ih =>
    obtain ⟨next, hnext, h⟩ := Except.bind_eq_ok.1 h
    obtain ⟨parts, hparts⟩ := ih h
    have hmeets := meets_step r v path (String.ofList segment) p
    rw [hnext] at hmeets
    cases hmeets with
    | adds hadds hwritten => exact ⟨_ :: parts, .cons hadds hnext hwritten hparts⟩

theorem refuses_of_steps (h : steps r v path segments p = .error e) :
    ∃ before segment after q, segments = before ++ segment :: after ∧
      steps r v path before p = .ok q ∧ Refuses r v path (String.ofList segment) q e := by
  induction segments generalizing p with
  | nil => contradiction
  | cons segment segments ih =>
    rw [steps] at h
    have hmeets := meets_step r v path (String.ofList segment) p
    cases hnext : step r v path (String.ofList segment) p with
    | error e' =>
      rw [hnext] at h hmeets
      obtain rfl := Except.error.inj h
      cases hmeets with
      | refuses hrefuses => exact ⟨[], segment, segments, p, rfl, rfl, hrefuses⟩
    | ok next =>
      rw [hnext] at h
      obtain ⟨before, other, after, q, rfl, hq, hrefuses⟩ := ih h
      exact ⟨segment :: before, other, after, q, rfl, Except.bind_eq_ok.2 ⟨next, hnext, hq⟩,
        hrefuses⟩

namespace Reads

theorem written_eq (h : Reads r v path p segments parts q) :
    q.segments = parts.foldl extend p.segments := by
  induction h with
  | nil p => rfl
  | cons _ _ hwritten _ ih => rw [ih, hwritten, List.foldl_cons]

theorem length_eq (h : Reads r v path p segments parts q) : segments.length = parts.length := by
  induction h with
  | nil p => rfl
  | cons _ _ _ _ ih => rw [List.length_cons, List.length_cons, ih]

theorem exists_adds (h : Reads r v path p segments parts q) {part : PathPart} (hpart : part ∈ parts) :
    ∃ segment ∈ segments, ∃ before, Adds r v (String.ofList segment) before part := by
  induction h with
  | nil p => contradiction
  | cons hadds _ _ _ ih =>
    rcases List.mem_cons.1 hpart with rfl | hpart
    · exact ⟨_, List.mem_cons_self, _, hadds⟩
    · obtain ⟨segment, hsegment, hadds⟩ := ih hpart
      exact ⟨segment, List.mem_cons_of_mem _ hsegment, hadds⟩

/-- A path does not begin with a function. -/
theorem names_ne_nil {start : ResolvedPath} {names : List (List Char)} {functions : List String}
    (h : Reads r v path start segments (ofOperand names functions) q) (hstart : start.segments = [])
    (hsegments : segments ≠ []) : names ≠ [] := by
  rintro rfl
  cases functions with
  | nil => exact hsegments (List.length_eq_zero_iff.1 h.length_eq)
  | cons f functions =>
    cases h with
    | cons hadds _ _ _ =>
      cases hadds with
      | function _ hbefore _ => exact hbefore hstart

end Reads

end ResolvedPath

/-! ### Resolved paths -/

/-- A resolver that never answers with an empty name. -/
def Resolver.NamesAll (r : Resolver) : Prop :=
  ∀ collection name, r.field collection name ≠ .ok "" ∧ r.navigation collection name ≠ .ok ""

open PathPart ResolvedPath

theorem ResolvedPath.Adds.ne_nil {r : Resolver} {v : Version} {segment : String} {p : ResolvedPath}
    {text : List Char} (h : Adds r v segment p (.name text)) (hr : r.NamesAll)
    (hsegment : segment ≠ "") : text ≠ [] := by
  cases h with
  | field _ _ h =>
    intro hnil
    rw [String.toList_eq_nil_iff.1 hnil] at h
    exact (hr _ _).1 h
  | navigation _ _ _ h =>
    intro hnil
    rw [String.toList_eq_nil_iff.1 hnil] at h
    exact (hr _ _).2 h
  | written => exact fun hnil ↦ hsegment (String.toList_eq_nil_iff.1 hnil)

theorem ne_empty_of_mem_pathSegments {path : String} {segment : List Char}
    (h : segment ∈ pathSegments path) : String.ofList segment ≠ "" := by
  have hne : segment ≠ [] := of_decide_eq_true (List.mem_filter.1 h).2
  intro hempty
  exact hne (String.ofList_eq_empty_iff.1 hempty)

/-- What a path resolves to has one part for each segment. If there is one, and no name follows a
function, the text is an operand, and for names without slashes and parentheses it is one just then.
What does not resolve has a segment that is nothing where it stands, which the error names. -/
theorem resolvePath_parts (r : Resolver) (v : Version) (collection : Option String)
    (path : String) :
    (∀ p, resolvePath r v collection path = .ok p → ∃ parts,
      Reads r v path (.start collection) (pathSegments path) parts p ∧ p.chars = written parts ∧
      (pathSegments path ≠ [] → FunctionsLast parts → ∃ names functions,
        parts = ofOperand names functions ∧ names ≠ [] ∧ (r.NamesAll → [] ∉ names) ∧
          p.chars = operandText names functions) ∧
      ((∀ text, .name text ∈ parts → IsPathName text) →
        (IsOperand v p.chars ↔ pathSegments path ≠ [] ∧ FunctionsLast parts))) ∧
    ∀ e, resolvePath r v collection path = .error e → ∃ before segment after q,
      pathSegments path = before ++ segment :: after ∧
        steps r v path before (.start collection) = .ok q ∧
        Refuses r v path (String.ofList segment) q e := by
  refine ⟨fun p hp ↦ ?_, fun e he ↦ refuses_of_steps he⟩
  obtain ⟨parts, hreads⟩ := reads_of_steps hp
  have hwritten : p.chars = written parts :=
    congrArg (List.intercalate ['/']) hreads.written_eq
  have hoperand : pathSegments path ≠ [] → FunctionsLast parts → ∃ names functions,
      parts = ofOperand names functions ∧ names ≠ [] ∧ (r.NamesAll → [] ∉ names) ∧
        p.chars = operandText names functions := by
    intro hsegments hlast
    obtain ⟨names, functions, rfl⟩ := functionsLast_iff.1 hlast
    refine ⟨names, functions, rfl, hreads.names_ne_nil rfl hsegments, fun hr hempty ↦ ?_,
      hwritten.trans written_ofOperand⟩
    obtain ⟨segment, hsegment, before, hadds⟩ := hreads.exists_adds
      (List.mem_append_left _ (List.mem_map_of_mem hempty))
    exact hadds.ne_nil hr (ne_empty_of_mem_pathSegments hsegment) rfl
  refine ⟨parts, hreads, hwritten, hoperand, fun hplain ↦ ⟨fun h ↦ ⟨?_, ?_⟩, fun h ↦ ?_⟩⟩
  · intro hsegments
    have hparts : parts = [] := by
      rw [← List.length_eq_zero_iff, ← hreads.length_eq, hsegments, List.length_nil]
    rw [hwritten, hparts] at h
    exact h.ne_nil rfl
  · by_contra hlast
    rw [hwritten] at h
    exact h.not_infix (infix_written hlast)
  · obtain ⟨names, functions, rfl, hnames, -, htext⟩ := hoperand h.1 h.2
    refine ⟨names, functions, hnames, fun name hname ↦ ?_, fun f hf ↦ ?_, htext⟩
    · exact hplain name (List.mem_append_left _ (List.mem_map_of_mem hname))
    · obtain ⟨segment, -, before, hadds⟩ := hreads.exists_adds
        (List.mem_append_right _ (List.mem_map_of_mem hf))
      cases hadds with
      | function _ _ h => exact ⟨_, _, h, rfl⟩

/-- Orders with a date. -/
def datedOrders : Resolver :=
  Schema.resolver ⟨"NS", [⟨"Orders", [("OrderDate", .other)], []⟩], []⟩

theorem resolvePath_parts_year :
    resolvePath datedOrders .v4 (some "Orders") "OrderDate.Year" =
        .ok ⟨some "Orders", ["year(OrderDate)".toList], some ("Orders", "OrderDate"), true⟩ ∧
      ∃ names functions, names ≠ [] ∧ "year(OrderDate)".toList = operandText names functions := by
  have hp : resolvePath datedOrders .v4 (some "Orders") "OrderDate.Year" =
      .ok ⟨some "Orders", ["year(OrderDate)".toList], some ("Orders", "OrderDate"), true⟩ := by
    rfl
  refine ⟨hp, ?_⟩
  obtain ⟨parts, -, hwritten, hoperand, -⟩ :=
    (resolvePath_parts datedOrders .v4 (some "Orders") "OrderDate.Year").1 _ hp
  have hlast : FunctionsLast parts := by
    by_contra hlast
    have hmark := infix_written hlast
    rw [← hwritten] at hmark
    exact absurd hmark (by decide)
  obtain ⟨names, functions, -, hnames, -, htext⟩ := hoperand (by decide) hlast
  exact ⟨names, functions, hnames, htext⟩

/-- A name behind a function is taken as it is written, and a path without segments is resolved. -/
theorem resolvePath_not_operand :
    (∃ p, resolvePath datedOrders .v4 (some "Orders") "OrderDate.Year.Foo" = .ok p ∧
      p.chars = "year(OrderDate)/Foo".toList ∧ ¬ IsOperand .v4 p.chars) ∧
      ∃ p, resolvePath datedOrders .v4 (some "Orders") "" = .ok p ∧ ¬ IsOperand .v4 p.chars := by
  refine ⟨⟨⟨some "Orders", ["year(OrderDate)".toList, "Foo".toList], some ("Orders", "OrderDate"),
    true⟩, by rfl, by rfl, fun h ↦ h.not_infix ?_⟩, .start (some "Orders"), by rfl,
    fun h ↦ h.ne_nil rfl⟩
  exact ⟨"year(OrderDate".toList, "Foo".toList, by rfl⟩

end OData
