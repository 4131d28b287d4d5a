import OData.Proofs.Filter.RoundTrip

/-!
Places in expressions. Of an operation that stands inside another expression only the rank matters for
what is written around it.
-/

namespace OData

namespace Expr

inductive IsAtom : Expr → Prop
  | reference (path : String) : IsAtom (reference path)
  | literal (v : Value) : IsAtom (literal v)

/-- An expression with one place left open. -/
inductive Context
  | hole
  | target (name : String) (k : Context) (arguments : List Expr)
  | argument (name : String) (target : Expr) (before : List Expr) (k : Context) (after : List Expr)
  | left (op : BinaryOperator) (k : Context) (right : Expr)
  | right (op : BinaryOperator) (left : Expr) (k : Context)
  | operand (k : Context)

namespace Context

def fill (d : Expr) : Context → Expr
  | hole => d
  | target name k arguments => call name (k.fill d) arguments
  | argument name e before k after => call name e (before ++ k.fill d :: after)
  | left op k r => binary op (k.fill d) r
  | right op l k => binary op l (k.fill d)
  | operand k => not (k.fill d)

variable {d d' : Expr} {rank : Nat}

theorem rank?_fill (k : Context) (h : d.rank? = d'.rank?) : (k.fill d).rank? = (k.fill d').rank? := by
  cases k with
  | hole => exact h
  | target | argument | left | right | operand => rfl

theorem fill_ne_atom (k : Context) (h : d.rank? = some rank) {atom : Expr} (ha : IsAtom atom) :
    k.fill d ≠ atom := by
  rintro rfl
  cases k with
  | hole =>
    rw [fill] at ha
    cases ha <;> contradiction
  | target | argument | left | right | operand => contradiction

end Context

/-- Every part of an expression has a property, the expression itself among them. -/
def Everywhere (P : Expr → Prop) (e : Expr) : Prop :=
  ∀ (k : Context) (d : Expr), e = k.fill d → P d

variable {P Q : Expr → Prop}

theorem Everywhere.mono {e : Expr} (h : Everywhere P e) (hpq : ∀ d, P d → Q d) : Everywhere Q e :=
  fun k d hd ↦ hpq d (h k d hd)

theorem everywhere_atom {atom : Expr} (ha : IsAtom atom) : Everywhere P atom ↔ P atom := by
  constructor
  · intro h
    exact h .hole _ rfl
  · intro h k d hd
    cases k with
    | hole =>
      obtain rfl : _ = d := hd
      exact h
    | target | argument | left | right | operand =>
      rw [hd] at ha
      cases ha

@[simp]
theorem everywhere_reference {path : String} :
    Everywhere P (reference path) ↔ P (reference path) :=
  everywhere_atom (.reference path)

@[simp]
theorem everywhere_literal {v : Value} : Everywhere P (literal v) ↔ P (literal v) :=
  everywhere_atom (.literal v)

@[simp]
theorem everywhere_call {name : String} {target : Expr} {arguments : List Expr} :
    Everywhere P (call name target arguments) ↔
      P (call name target arguments) ∧ Everywhere P target ∧ ∀ e ∈ arguments, Everywhere P e := by
  constructor
  · intro h
    refine ⟨h .hole _ rfl, fun k d hd ↦ h (.target name k arguments) d (hd ▸ rfl),
      fun e he k d hd ↦ ?_⟩
    obtain ⟨before, after, rfl⟩ := List.append_of_mem he
    exact h (.argument name target before k after) d (hd ▸ rfl)
  · rintro ⟨h, ht, ha⟩ k d hd
    cases k with
    | hole =>
      obtain rfl : _ = d := hd
      exact h
    | target name' k arguments' => exact ht k d (call.inj hd).2.1
    | argument name' target' before k after =>
      obtain ⟨-, -, rfl⟩ := call.inj hd
      exact ha _ (by simp) k d rfl
    | left | right | operand => contradiction

@[simp]
theorem everywhere_binary {op : BinaryOperator} {l r : Expr} :
    Everywhere P (binary op l r) ↔ P (binary op l r) ∧ Everywhere P l ∧ Everywhere P r := by
  constructor
  · intro h
    exact ⟨h .hole _ rfl, fun k d hd ↦ h (.left op k r) d (hd ▸ rfl),
      fun k d hd ↦ h (.right op l k) d (hd ▸ rfl)⟩
  · rintro ⟨h, hl, hr⟩ k d hd
    cases k with
    | hole =>
      obtain rfl : _ = d := hd
      exact h
    | left op' k r' => exact hl k d (binary.inj hd).2.1
    | right op' l' k => exact hr k d (binary.inj hd).2.2
    | target | argument | operand => contradiction

@[simp]
theorem everywhere_not {operand : Expr} :
    Everywhere P (not operand) ↔ P (not operand) ∧ Everywhere P operand := by
  constructor
  · intro h
    exact ⟨h .hole _ rfl, fun k d hd ↦ h (.operand k) d (hd ▸ rfl)⟩
  · rintro ⟨h, ho⟩ k d hd
    cases k with
    | hole =>
      obtain rfl : _ = d := hd
      exact h
    | operand k => exact ho k d (not.inj hd)
    | target | argument | left | right => contradiction

end Expr

namespace Filter

/-- A text with gaps, at least one, that all take the same text. -/
inductive Gapped : (List Char → List Char) → Prop
  | gap : Gapped fun own ↦ own
  | before {f : List Char → List Char} (cs : List Char) (h : Gapped f) : Gapped fun own ↦ cs ++ f own
  | after {f : List Char → List Char} (h : Gapped f) (cs : List Char) : Gapped fun own ↦ f own ++ cs
  | both {f g : List Char → List Char} (hf : Gapped f) (hg : Gapped g) :
    Gapped fun own ↦ f own ++ g own

namespace Gapped

variable {f : List Char → List Char}

theorem parenthesized (h : Gapped f) : Gapped fun own ↦ Filter.parenthesized (f own) :=
  (h.before ['(']).after [')']

theorem joinedLeft (h : Gapped f) (keyword : String) (right : List Char) :
    Gapped fun own ↦ Filter.joined (f own) keyword right :=
  (h.after (' ' :: keyword.toList)).after (' ' :: right)

theorem joinedRight (h : Gapped f) (left : List Char) (keyword : String) :
    Gapped fun own ↦ Filter.joined left keyword (f own) :=
  (h.before [' ']).before (left ++ ' ' :: keyword.toList)

theorem joined (hf : Gapped f) (keyword : String) {g : List Char → List Char} (hg : Gapped g) :
    Gapped fun own ↦ Filter.joined (f own) keyword (g own) :=
  (hf.after (' ' :: keyword.toList)).both (hg.before [' '])

theorem grouped (h : Gapped f) (rank : Nat) (e : Expr) :
    Gapped fun own ↦ Filter.grouped rank e (f own) := by
  unfold Filter.grouped
  split
  · split
    · exact h.parenthesized
    · exact h
  · exact h

theorem intercalate (h : Gapped f) (sep : List Char) (before after : List (List Char)) :
    Gapped fun own ↦ List.intercalate sep (before ++ f own :: after) := by
  induction before with
  | nil =>
    cases after with
    | nil => simpa only [List.nil_append, List.intercalate_singleton] using h
    | cons cs after =>
      simp only [List.nil_append, List.intercalate_cons_cons]
      exact (h.after sep).after _
  | cons cs before ih =>
    have hcons (own : List Char) : List.intercalate sep (cs :: before ++ f own :: after) =
        cs ++ sep ++ List.intercalate sep (before ++ f own :: after) := by
      cases before <;> simp [List.intercalate_cons_cons]
    simp only [hcons]
    exact ih.before _

theorem placedTarget (h : Gapped f) (arguments : List (List Char)) (place : TargetPlace) :
    Gapped fun own ↦ List.intercalate [','] (placed (f own) arguments place) := by
  cases place with
  | first => exact h.intercalate [','] [] arguments
  | last => exact h.intercalate [','] arguments []
  | only => exact h.intercalate [','] [] []

theorem placedArgument (h : Gapped f) (target : List Char) (before after : List (List Char))
    {place : TargetPlace} (hplace : place ≠ .only) :
    Gapped fun own ↦ List.intercalate [','] (placed target (before ++ f own :: after) place) := by
  cases place with
  | first => exact h.intercalate [','] (target :: before) after
  | last => simpa only [placed, List.append_assoc, List.cons_append] using
      h.intercalate [','] before (after ++ [target])
  | only => contradiction

end Gapped

variable {r : Resolver} {version : Version} {collection : Option String}

theorem grouped_rank {e e' : Expr} (h : e.rank? = e'.rank?) (rank : Nat) :
    grouped rank e = grouped rank e' := by
  funext cs
  rw [grouped, grouped, h]

theorem range?_of_ne_literal {op : BinaryOperator} {right : Expr} (h : ∀ v, right ≠ .literal v) :
    range? op right = none := by
  unfold range?
  split
  · exact absurd rfl (h _)
  · rfl

/-- Functions that take only their target have no argument that could be lost. -/
theorem eq_zero_of_only {name : String} {arity : Nat} {form : FunctionForm}
    (h : lookupFunction version name arity = some form) (ht : form.target = .only) : arity = 0 := by
  obtain ⟨entry, hmem, hform, rfl, -⟩ := exists_entry_of_lookupFunction h
  have htable : ∀ entry ∈ FunctionEntry.table, ∀ form ∈ entry.v3.toList ++ entry.v4.toList,
      form.target = .only → entry.arity = 0 := by decide
  refine htable entry hmem form ?_ ht
  cases version <;> simp_all [FunctionEntry.form?]

/-- What is written around a place, whatever operation of some rank stands there. -/
def Surrounds (r : Resolver) (version : Version) (collection : Option String) (rank : Nat)
    (k : Expr.Context) (f : List Char → List Char) : Prop :=
  ∀ d, d.rank? = some rank →
    chars r version collection (k.fill d) = (chars r version collection d).map f

namespace Surrounds

open OData.Expr

variable {d : Expr} {rank : Nat} {k : Context} {f : List Char → List Char}

theorem hole : Surrounds r version collection rank .hole fun own ↦ own := by
  intro d _
  rw [Context.fill]
  cases chars r version collection d <;> rfl

theorem target (hf : Surrounds r version collection rank k f) {name : String} {form : FunctionForm}
    {arguments : List Expr} {texts : List (List Char)}
    (hform : lookupFunction version name arguments.length = some form)
    (htexts : charsAll r version collection arguments = .ok texts) :
    Surrounds r version collection rank (.target name k arguments) fun own ↦
      form.name.toList ++
        parenthesized (List.intercalate [','] (placed (f own) texts form.target)) := by
  intro d hd
  rw [Context.fill, chars, hform, htexts]
  dsimp only
  rw [hf d hd]
  cases chars r version collection d <;> rfl

theorem argument (hf : Surrounds r version collection rank k f) {name : String} {form : FunctionForm}
    {t : Expr} {before after : List Expr} {text : List Char} {first last : List (List Char)}
    (hform : lookupFunction version name (before.length + (after.length + 1)) = some form)
    (htext : chars r version collection t = .ok text)
    (hfirst : before.mapM (chars r version collection) = .ok first)
    (hlast : after.mapM (chars r version collection) = .ok last) :
    Surrounds r version collection rank (.argument name t before k after) fun own ↦
      form.name.toList ++
        parenthesized (List.intercalate [','] (placed text (first ++ f own :: last) form.target)) := by
  intro d hd
  rw [Context.fill, chars, List.length_append, List.length_cons, hform, charsAll_eq_mapM,
    List.mapM_append, List.mapM_cons, htext, hfirst, hlast, hf d hd]
  cases chars r version collection d <;> rfl

theorem subject (hf : Surrounds r version collection rank k f) (hd : d.rank? = some rank)
    {low high : Value} {low' high' : List Char} (hlow : literal version low = .ok low')
    (hhigh : literal version high = .ok high') :
    Surrounds r version collection rank (.left .eq k (.literal (.range low high))) fun own ↦
      parenthesized
        (joined (joined (grouped BinaryOperator.ge.rank (k.fill d) (f own)) "ge" low') "and"
          (joined (grouped BinaryOperator.ge.rank (k.fill d) (f own)) "le" high')) := by
  intro d' hd'
  have hrange : range? .eq (.literal (.range low high)) = some (low, high) := rfl
  rw [Context.fill, chars, hrange]
  dsimp only
  rw [hf d' hd', hlow, hhigh, grouped_rank (k.rank?_fill (hd'.trans hd.symm))]
  cases chars r version collection d' <;> rfl

theorem left (hf : Surrounds r version collection rank k f) (hd : d.rank? = some rank)
    {op : BinaryOperator} {right : Expr} {right' : List Char} (hrange : range? op right = none)
    (hright : chars r version collection right = .ok right') :
    Surrounds r version collection rank (.left op k right) fun own ↦
      joined (grouped op.rank (k.fill d) (f own)) op.keyword (grouped op.rank right right') := by
  intro d' hd'
  have htest : presenceTest? r version collection op (k.fill d') right = .ok none := by
    refine presenceTest?_of_not_null ?_
    rintro ⟨-, ⟨path, hpath⟩, -⟩
    exact k.fill_ne_atom hd' (.reference path) hpath
  rw [Context.fill, chars_binary hrange htest, hf d' hd', hright,
    grouped_rank (k.rank?_fill (hd'.trans hd.symm))]
  cases chars r version collection d' <;> rfl

theorem right (hf : Surrounds r version collection rank k f) (hd : d.rank? = some rank)
    {op : BinaryOperator} {left : Expr} {left' : List Char}
    (hleft : chars r version collection left = .ok left') :
    Surrounds r version collection rank (.right op left k) fun own ↦
      joined (grouped op.rank left left') op.keyword (grouped op.rank (k.fill d) (f own)) := by
  intro d' hd'
  have htest : presenceTest? r version collection op left (k.fill d') = .ok none := by
    refine presenceTest?_of_not_null ?_
    rintro ⟨-, -, hnull⟩
    exact k.fill_ne_atom hd' (.literal _) hnull
  have hrange : range? op (k.fill d') = none :=
    range?_of_ne_literal fun v ↦ k.fill_ne_atom hd' (.literal v)
  rw [Context.fill, chars_binary hrange htest, hleft, hf d' hd',
    grouped_rank (k.rank?_fill (hd'.trans hd.symm))]
  cases chars r version collection d' <;> rfl

theorem operand (hf : Surrounds r version collection rank k f) (hd : d.rank? = some rank) :
    Surrounds r version collection rank (.operand k) fun own ↦
      negationKeyword.toList ++
        if (k.fill d).rank?.any (negationRank < ·) then parenthesized (f own) else ' ' :: f own := by
  intro d' hd'
  rw [Context.fill, chars, hf d' hd', k.rank?_fill (hd'.trans hd.symm)]
  cases chars r version collection d' <;> rfl

end Surrounds

open OData.Expr in
/-- The text of an operation stands in the text of the whole, and around it stands what would stand
around any other operation of the same rank. -/
theorem exists_surrounds {d : Expr} {rank : Nat} (hd : d.rank? = some rank) (k : Context)
    {cs : List Char} (h : chars r version collection (k.fill d) = .ok cs) :
    ∃ f, Gapped f ∧ Surrounds r version collection rank k f := by
  induction k generalizing cs with
  | hole => exact ⟨_, .gap, .hole⟩
  | target name k arguments ih =>
    obtain ⟨form, text, texts, hform, htext, htexts, -⟩ := chars_call_eq_ok.1 h
    obtain ⟨f, hf, hk⟩ := ih htext
    exact ⟨_, (hf.placedTarget texts form.target).parenthesized.before _, hk.target hform htexts⟩
  | argument name t before k after ih =>
    obtain ⟨form, text, texts, hform, htext, htexts, -⟩ := chars_call_eq_ok.1 h
    rw [List.length_append, List.length_cons] at hform
    rw [charsAll_eq_mapM, List.mapM_append, List.mapM_cons] at htexts
    obtain ⟨first, hfirst, htexts⟩ := Except.bind_eq_ok.1 htexts
    obtain ⟨rest, hrest, -⟩ := Except.bind_eq_ok.1 htexts
    obtain ⟨inner, hinner, hrest⟩ := Except.bind_eq_ok.1 hrest
    obtain ⟨last, hlast, -⟩ := Except.bind_eq_ok.1 hrest
    obtain ⟨f, hf, hk⟩ := ih hinner
    have honly : form.target ≠ .only := fun ht ↦ by simpa using eq_zero_of_only hform ht
    exact ⟨_, (hf.placedArgument text first last honly).parenthesized.before _,
      hk.argument hform htext hfirst hlast⟩
  | left op k right ih =>
    have hform := operation_of_chars h
    generalize hl : k.fill d = e at hform
    cases hform with
    | range he hlow hhigh =>
      obtain ⟨f, hf, hk⟩ := ih (hl ▸ he)
      have hsubject := hf.grouped BinaryOperator.ge.rank (k.fill d)
      exact ⟨_, ((hsubject.joinedLeft "ge" _).joined "and"
        (hsubject.joinedLeft "le" _)).parenthesized, hk.subject hd hlow hhigh⟩
    | presence => exact absurd hl (k.fill_ne_atom hd (.reference _))
    | joined hrange htest hleft hright =>
      obtain ⟨f, hf, hk⟩ := ih (hl ▸ hleft)
      exact ⟨_, (hf.grouped op.rank (k.fill d)).joinedLeft _ _, hk.left hd hrange hright⟩
  | right op left k ih =>
    have hform := operation_of_chars h
    generalize hr : k.fill d = e at hform
    cases hform with
    | range | presence => exact absurd hr (k.fill_ne_atom hd (.literal _))
    | joined hrange htest hleft hright =>
      obtain ⟨f, hf, hk⟩ := ih (hr ▸ hright)
      exact ⟨_, (hf.grouped op.rank (k.fill d)).joinedRight _ _, hk.right hd hleft⟩
  | operand k ih =>
    obtain ⟨inner, hinner, -⟩ := chars_not_eq_ok.1 h
    obtain ⟨f, hf, hk⟩ := ih hinner
    refine ⟨_, ?_, hk.operand hd⟩
    split
    · exact hf.parenthesized.before _
    · exact (hf.before [' ']).before _

end Filter
end OData
