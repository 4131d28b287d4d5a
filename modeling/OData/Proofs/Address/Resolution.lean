import OData.Proofs.Address.Flattening
import OData.Proofs.Reference.Operand
import OData.Proofs.Text.Occurrence

/-!
Names in either dialect. The dialects differ in the functions that a path may end with, and these leave a
parenthesis; what resolves to identifiers in the one resolves to the same in the other.
-/

namespace OData

namespace ResolvedPath

variable {r : Resolver} {v w : Version} {path segment : String} {p q : ResolvedPath}

/-- A function stands around the path or the beginning of it. -/
def IsCall (p : ResolvedPath) : Prop :=
  ∃ text ∈ p.segments, '(' ∈ text

/-- Further segments stand as they are written. -/
def IsFree (p : ResolvedPath) : Prop :=
  p.field.isSome || p.collection.isNone

theorem IsCall.mem_chars (h : p.IsCall) : '(' ∈ p.chars := by
  obtain ⟨text, htext, hmem⟩ := h
  exact (Text.infix_intercalate ['/'] htext).subset hmem

theorem isCall_wrap (p : ResolvedPath) (function : String) : (p.wrap function).IsCall :=
  ⟨_, List.mem_singleton_self _,
    List.mem_append_left _ (List.mem_append_right _ List.mem_cons_self)⟩

theorem stepFunction?_eq_some (h : stepFunction? v segment p = some q) :
    q.IsCall ∧ (p.IsFree → q.IsFree) := by
  rw [stepFunction?] at h
  split at h
  · contradiction
  · obtain ⟨form, -, rfl⟩ := Option.map_eq_some_iff.1 h
    exact ⟨isCall_wrap p form.name, id⟩

theorem stepOther_eq_ok (h : stepOther v path segment p = .ok q) :
    stepFunction? v segment p = some q ∨ p.IsFree ∧ q = p.push segment.toList := by
  rw [stepOther] at h
  split at h
  · rename_i heq
    exact .inl (heq.trans (congrArg some (Except.ok.inj h)))
  · split at h
    · rename_i hfree
      exact .inr ⟨hfree, (Except.ok.inj h).symm⟩
    · contradiction

theorem exists_stepOther (v : Version) (path segment : String) (h : p.IsFree) :
    ∃ q, stepOther v path segment p = .ok q ∧ q.IsFree := by
  rw [stepOther]
  cases hfunction : stepFunction? v segment p with
  | some q => exact ⟨q, rfl, (stepFunction?_eq_some hfunction).2 h⟩
  | none => exact ⟨_, if_pos h, h⟩

theorem step_eq_stepOther (h : p.IsFree) : step r v path segment p = stepOther v path segment p := by
  rw [step]
  split
  · rename_i hfield hcollection
    rw [IsFree, hfield, hcollection] at h
    contradiction
  · rfl

/-- A step adds a segment, or it makes a call. -/
theorem step_eq_ok (h : step r v path segment p = .ok q) :
    q.IsCall ∨ ∃ text, q.segments = p.segments ++ [text] := by
  have hmeets := meets_step r v path segment p
  rw [h] at hmeets
  cases hmeets with
  | @adds _ part _ hwritten =>
    cases part with
    | name text => exact .inr ⟨text, hwritten⟩
    | function f =>
      refine .inl ⟨PathPart.call (List.intercalate ['/'] p.segments) f, ?_, ?_⟩
      · rw [hwritten]
        exact List.mem_singleton_self _
      · exact List.mem_append_left _ (List.mem_append_right _ List.mem_cons_self)

theorem IsCall.step (hp : p.IsCall) (h : step r v path segment p = .ok q) : q.IsCall := by
  rcases step_eq_ok h with hcall | ⟨text, hsegments⟩
  · exact hcall
  · obtain ⟨other, hother, hmem⟩ := hp
    exact ⟨other, hsegments ▸ List.mem_append_left _ hother, hmem⟩

theorem IsCall.steps {segments : List (List Char)} (hp : p.IsCall)
    (h : steps r v path segments p = .ok q) : q.IsCall := by
  induction segments generalizing p with
  | nil => exact Except.ok.inj h ▸ hp
  | cons segment segments ih =>
    obtain ⟨next, hnext, h⟩ := Except.bind_eq_ok.1 h
    exact ih (hp.step hnext) h

theorem exists_steps (r : Resolver) (v : Version) (path : String) (segments : List (List Char))
    (h : p.IsFree) :
    ∃ q, steps r v path segments p = .ok q := by
  induction segments generalizing p with
  | nil => exact ⟨p, rfl⟩
  | cons segment segments ih =>
    obtain ⟨next, hnext, hfree⟩ := exists_stepOther v path (String.ofList segment) h
    obtain ⟨q, hq⟩ := ih hfree
    exact ⟨q, Except.bind_eq_ok.2 ⟨next, (step_eq_stepOther h).trans hnext, hq⟩⟩

theorem stepOther_version (w : Version) (h : stepOther v path segment p = .ok q)
    (hq : ¬ q.IsCall) : stepOther w path segment p = .ok q ∨
      ∃ q', stepOther w path segment p = .ok q' ∧ q'.IsCall ∧ q'.IsFree := by
  rcases stepOther_eq_ok h with hfunction | ⟨hfree, rfl⟩
  · exact absurd (stepFunction?_eq_some hfunction).1 hq
  · rw [stepOther]
    cases hfunction : stepFunction? w segment p with
    | some q' =>
      obtain ⟨hcall, hfree'⟩ := stepFunction?_eq_some hfunction
      exact .inr ⟨q', rfl, hcall, hfree' hfree⟩
    | none => exact .inl (if_pos hfree)

/-- A step that makes no call is the same in the other dialect, unless that one makes a call of it. -/
theorem step_version (w : Version) (h : step r v path segment p = .ok q) (hq : ¬ q.IsCall) :
    step r w path segment p = .ok q ∨
      ∃ q', step r w path segment p = .ok q' ∧ q'.IsCall ∧ q'.IsFree := by
  rw [step] at h ⊢
  split at h
  · split at h
    · exact .inl h
    · split at h
      · exact .inl h
      · exact stepOther_version w h hq
  · exact stepOther_version w h hq

/-- What resolves without a call in one dialect resolves to the same in the other, or to a call. -/
theorem steps_version (w : Version) {segments : List (List Char)}
    (h : steps r v path segments p = .ok q) (hq : ¬ q.IsCall) :
    steps r w path segments p = .ok q ∨ ∃ q', steps r w path segments p = .ok q' ∧ q'.IsCall := by
  induction segments generalizing p with
  | nil => exact .inl h
  | cons segment segments ih =>
    obtain ⟨next, hnext, h⟩ := Except.bind_eq_ok.1 h
    have hplain : ¬ next.IsCall := fun hcall ↦ hq (hcall.steps h)
    rcases step_version w hnext hplain with hsame | ⟨other, hother, hcall, hfree⟩
    · rcases ih h with hrest | ⟨q', hrest, hcall⟩
      · exact .inl (Except.bind_eq_ok.2 ⟨next, hsame, hrest⟩)
      · exact .inr ⟨q', Except.bind_eq_ok.2 ⟨next, hsame, hrest⟩, hcall⟩
    · -- The rest of the segments is taken as it stands, and leaves the call around the path.
      obtain ⟨q', hrest⟩ := exists_steps r w path segments hfree
      exact .inr ⟨q', Except.bind_eq_ok.2 ⟨other, hother, hrest⟩, hcall.steps hrest⟩

end ResolvedPath

namespace Formatting

open Expansion

variable {f : Formatting} {collection target : Option String} {name : String} {es : List Expand}
  {v w : Version} {forest : List Expansion} {fields : List (List Char)}

theorem SelectsField.not_isCall (h : f.SelectsField target name) {p : ResolvedPath}
    (hstar : name ≠ "*") (hp : resolvePath f.resolver v target name = .ok p) : ¬ p.IsCall := by
  intro hcall
  have hresolve : (f.inVersion v).selected target name = .ok p.chars := by
    rw [selected, if_neg hstar]
    exact Except.map_eq_ok.2 ⟨p, hp, rfl⟩
  exact (h v p.chars hresolve).not_mem (by decide) (by decide) hcall.mem_chars

theorem SelectsField.selected_version (h : f.SelectsField target name) (w : Version)
    {text : List Char} (hv : (f.inVersion v).selected target name = .ok text) :
    (f.inVersion w).selected target name = .ok text := by
  by_cases hstar : name = "*"
  · rw [selected, if_pos hstar] at hv ⊢
    exact hv
  · rw [selected, if_neg hstar] at hv
    obtain ⟨p, hp, rfl⟩ := Except.map_eq_ok.1 hv
    rw [selected, if_neg hstar]
    rcases ResolvedPath.steps_version w hp (h.not_isCall hstar hp) with hsame | ⟨q, hq, hcall⟩
    · exact Except.map_eq_ok.2 ⟨p, hsame, rfl⟩
    · exact absurd hcall (h.not_isCall hstar hq)

theorem mapM_selected_version {names : List String} (h : ∀ name ∈ names, f.SelectsField target name)
    (w : Version) (hv : names.mapM ((f.inVersion v).selected target) = .ok fields) :
    names.mapM ((f.inVersion w).selected target) = .ok fields :=
  Except.mapM_eq_ok_of_forall (fun name hname _ hfield ↦ (h name hname).selected_version w hfield) hv

theorem navigationPath_inVersion (v : Version) (collection : Option String)
    (names : List (List Char)) :
    (f.inVersion v).navigationPath collection names = f.navigationPath collection names := by
  induction names generalizing collection with
  | nil => rfl
  | cons name names ih =>
    cases collection with
    | none => rw [navigationPath, navigationPath, ih]
    | some collection =>
      rw [navigationPath, navigationPath]
      simp only [ih]
      rfl

/-- What is expanded where nothing but fields is asked for. -/
theorem expansion_of_select_eq_ok {path : String} {options : ExpandOptions} {x : Expansion}
    (hfilter : options.filter = none) (horder : options.orderBy = []) (htop : options.top = none) :
    (f.inVersion v).expansion collection (.node path options es) = .ok x ↔
      ∃ segments target fields below,
        f.navigationPath collection (pathSegments path) = .ok (segments, target) ∧
        options.select.mapM ((f.inVersion v).selected target) = .ok fields ∧
        (f.inVersion v).expansions target es = .ok below ∧
        Expansion.chain { select := fields } below segments = .ok x := by
  constructor
  · intro h
    obtain ⟨segments, target, exact, below, hnavigation, hexact, hbelow, hchain⟩ := expansion_eq_ok h
    rw [navigationPath_inVersion] at hnavigation
    rw [exactOptions_of_select hfilter horder htop] at hexact
    obtain ⟨fields, hfields, rfl⟩ := Except.map_eq_ok.1 hexact
    exact ⟨segments, target, fields, below, hnavigation, hfields, hbelow, hchain⟩
  · rintro ⟨segments, target, fields, below, hnavigation, hfields, hbelow, hchain⟩
    rw [expansion, navigationPath_inVersion, hnavigation]
    show (do
      let exact ← (f.inVersion v).exactOptions target options
      let below ← (f.inVersion v).expansions target es
      Expansion.chain exact below segments) = .ok x
    rw [exactOptions_of_select hfilter horder htop, hfields, hbelow]
    exact hchain

theorem SelectsFields.expansion_version {e : Expand} (h : f.SelectsFields collection e)
    (w : Version) {x : Expansion} (hv : (f.inVersion v).expansion collection e = .ok x) :
    (f.inVersion w).expansion collection e = .ok x := by
  induction h generalizing x with
  | @node collection path options nested _ hfilter horder htop _ hselect _ ih =>
    obtain ⟨segments, target, fields, below, hnavigation, hfields, hbelow, hchain⟩ :=
      (expansion_of_select_eq_ok hfilter horder htop).1 hv
    refine (expansion_of_select_eq_ok hfilter horder htop).2
      ⟨segments, target, fields, below, hnavigation, ?_, ?_, hchain⟩
    · exact mapM_selected_version (hselect segments target hnavigation) w hfields
    · rw [expansions_eq_mapM] at hbelow ⊢
      exact Except.mapM_eq_ok_of_forall
        (fun e he x hx ↦ ih segments target hnavigation e he hx) hbelow

theorem expansions_version (h : ∀ e ∈ es, f.SelectsFields collection e) (w : Version)
    (hv : (f.inVersion v).expansions collection es = .ok forest) :
    (f.inVersion w).expansions collection es = .ok forest := by
  rw [expansions_eq_mapM] at hv ⊢
  exact Except.mapM_eq_ok_of_forall (fun e he _ hx ↦ (h e he).expansion_version w hx) hv

end Formatting

end OData
