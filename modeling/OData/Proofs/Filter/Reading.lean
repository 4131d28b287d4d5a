import Mathlib.Data.List.Forall2
import OData.Proofs.Filter.Operand
import OData.Proofs.Filter.Reader

/-!
How the parts of filter texts are read: operands, negations, parentheses, the two sides of an operator
and the arguments of a call.
-/

namespace OData.Filter

variable {version : Version}

/-- A text is read as one operand, whatever stands around it. -/
def ReadsOperand (version : Version) (cs : List Char) (e : Expr) : Prop :=
  ∀ rest, Follows rest → ∀ f outer,
    readChars version (cs ++ rest) (.operand f outer) = readChars version rest (f.complete e outer)

/-- A text is read as a chain of operands, if no negation stands in front of it. -/
def ReadsChain (version : Version) (cs : List Char) (c : Chain) : Prop :=
  ∀ rest, Follows rest → ∀ f outer, f.negations = 0 →
    readChars version (cs ++ rest) (.operand f outer) =
      readChars version rest (.operator (f.append c) f.function outer)

theorem readChars_token {cs rest : List Char} {token : Token}
    (h : scan version cs = (scan version rest).map (token :: ·)) (s : ReadState) :
    readChars version cs s = (readToken version token s).bind (readChars version rest) := by
  rw [readChars, h]
  cases hs : scan version rest with
  | none => cases readToken version token s <;> simp [readChars, hs]
  | some tokens => cases ht : readToken version token s <;> simp [readChars, readTokens, hs, ht]

theorem readChars_of_scan {cs rest : List Char} {token : Token} {s s' : ReadState}
    (h : scan version cs = (scan version rest).map (token :: ·))
    (hs : readToken version token s = some s') :
    readChars version cs s = readChars version rest s' := by
  rw [readChars_token h, hs, Option.bind_some]

theorem readChars_blank (cs : List Char) (s : ReadState) :
    readChars version (' ' :: cs) s = readChars version cs s := by
  rw [readChars, scan_blank, readChars]

theorem ReadsOperand.of_spells {cs : List Char} {e : Expr} (h : Spells version cs (.operand e)) :
    ReadsOperand version cs e :=
  fun rest hr _ _ ↦ readChars_of_scan (h rest hr) rfl

theorem ReadsOperand.chain {cs : List Char} {e : Expr} (h : ReadsOperand version cs e) :
    ReadsChain version cs (.single e) := by
  intro rest hr f outer hn
  rw [h rest hr, Frame.complete, hn]
  rfl

/-- Behind an opening parenthesis or a comma nothing stands before a chain. -/
theorem ReadsChain.inner {cs rest : List Char} {c : Chain} (h : ReadsChain version cs c)
    (hr : Follows rest) (function : Option (String × List Expr)) (outer : List Frame) :
    readChars version (cs ++ rest) (.operand { function } outer) =
      readChars version rest (.operator c function outer) :=
  h rest hr { function } outer rfl

theorem ReadsChain.parenthesized {cs : List Char} {c : Chain} (h : ReadsChain version cs c) :
    ReadsOperand version (parenthesized cs) c.tree := by
  intro rest hr f outer
  have he : Filter.parenthesized cs ++ rest = '(' :: (cs ++ ')' :: rest) := by
    simp [Filter.parenthesized]
  rw [he, readChars_of_scan (scan_mark _ rfl) rfl, h.inner (follows_closing rest)]
  exact readChars_of_scan (scan_mark _ rfl) rfl

theorem ReadsOperand.not {cs : List Char} {e : Expr} (h : ReadsOperand version cs e) :
    ReadsOperand version (negationKeyword.toList ++ ' ' :: cs) (.not e) := by
  intro rest hr f outer
  rw [List.append_assoc, readChars_of_scan (scan_negation (by simp [isDelimiter])) rfl,
    List.cons_append, readChars_blank, h rest hr]
  rfl

theorem ReadsChain.not {cs : List Char} {c : Chain} (h : ReadsChain version cs c) :
    ReadsOperand version (negationKeyword.toList ++ Filter.parenthesized cs) (.not c.tree) := by
  intro rest hr f outer
  rw [List.append_assoc,
    readChars_of_scan (scan_negation (by simp [Filter.parenthesized, isDelimiter])) rfl,
    h.parenthesized rest hr]
  rfl

theorem Frame.append_join {f : Frame} (c d : Chain) (op : BinaryOperator) :
    (f.append c).join op d = f.append (c.join op d) := by
  unfold Frame.append
  cases f.before with
  | none => rfl
  | some p => exact Chain.join_assoc _ _ _ _ _

theorem ReadsChain.join {left right : List Char} {c d : Chain} (hl : ReadsChain version left c)
    (hr : ReadsChain version right d) (op : BinaryOperator) :
    ReadsChain version (joined left op.keyword right) (c.join op d) := by
  intro rest hrest f outer hn
  have he : joined left op.keyword right ++ rest =
      left ++ ' ' :: (op.keyword.toList ++ ' ' :: (right ++ rest)) := by
    simp [joined]
  rw [he, hl _ (follows_blank _) f outer hn, readChars_blank,
    readChars_of_scan (scan_operator op _) rfl, hr rest hrest _ _ rfl, ← Frame.append_join]
  rfl

/-- A text is read as an expression that stands alone. -/
def ReadsWhole (version : Version) (cs : List Char) (e : Expr) : Prop :=
  ∃ c, ReadsChain version cs c ∧ c.tree = e

theorem readChars_arguments {texts : List (List Char)} {es : List Expr}
    (h : List.Forall₂ (ReadsWhole version) texts es) (hne : texts ≠ []) (name : String)
    (done : List Expr) (rest : List Char) (f : Frame) (outer : List Frame) :
    readChars version (List.intercalate [','] texts ++ ')' :: rest)
      (.operand { function := some (name, done) } (f :: outer)) =
      (call? version name (done ++ es)).bind fun e ↦ readChars version rest (f.complete e outer) := by
  induction h generalizing done with
  | nil => contradiction
  | @cons text e texts es he h ih =>
    obtain ⟨c, hc, rfl⟩ := he
    cases texts with
    | nil =>
      cases h
      rw [List.intercalate_singleton, hc.inner (follows_closing rest),
        readChars_token (scan_mark _ rfl), readToken]
      cases call? version name (done ++ [c.tree]) <;> rfl
    | cons text' texts =>
      have ht : [','].intercalate (text :: text' :: texts) ++ ')' :: rest =
          text ++ ',' :: ([','].intercalate (text' :: texts) ++ ')' :: rest) := by
        simp [List.intercalate_cons_cons]
      rw [ht, hc.inner (follows_comma _), readChars_of_scan (scan_mark _ rfl) rfl,
        ih (by simp) (done ++ [c.tree])]
      simp

section

variable {entry : FunctionEntry} {form : FunctionForm}

theorem find?_form (he : entry ∈ FunctionEntry.table) (hf : entry.form? version = some form) :
    (FunctionEntry.table.find? fun other ↦
      other.arity = entry.arity && (other.form? version).any (·.name = form.name)) = some entry := by
  have h : ∀ entry ∈ FunctionEntry.table, ∀ form ∈ entry.form? version,
      (FunctionEntry.table.find? fun other ↦
        other.arity = entry.arity && (other.form? version).any (·.name = form.name)) =
          some entry := by
    cases version <;> decide
  exact h entry he form hf

theorem arity_of_only (he : entry ∈ FunctionEntry.table) (hf : entry.form? version = some form)
    (ho : form.target = .only) : entry.arity = 0 := by
  have h : ∀ entry ∈ FunctionEntry.table, ∀ form ∈ entry.form? version,
      form.target = .only → entry.arity = 0 := by
    cases version <;> decide
  exact h entry he form hf ho

theorem scan_form (he : entry ∈ FunctionEntry.table) (hf : entry.form? version = some form)
    (rest : List Char) :
    scan version (form.name.toList ++ '(' :: rest) =
      (scan version rest).map (.call form.name :: ·) := by
  have h : ∀ entry ∈ FunctionEntry.table, ∀ form ∈ entry.form? version, form.name.toList ≠ [] ∧
      form.name.toList.all (!isDelimiter ·) ∧
        (Token.ofKeyword? form.name.toList).isNone := by
    cases version <;> decide
  obtain ⟨hne, hw, hk⟩ := h entry he form hf
  exact scan_call hne hw (Option.isNone_iff_eq_none.1 hk)

theorem length_placed {α : Type} (target : α) {arguments : List α} {place : TargetPlace}
    (h : place = .only → arguments = []) :
    (placed target arguments place).length = arguments.length + 1 := by
  cases place with
  | first => rfl
  | last => simp [placed]
  | only => simp [placed, h rfl]

theorem unplaced?_placed (target : Expr) {arguments : List Expr} {place : TargetPlace}
    (h : place = .only → arguments = []) :
    unplaced? place (placed target arguments place) = some (target, arguments) := by
  cases place with
  | first => rfl
  | last => simp [placed, unplaced?]
  | only => simp [placed, unplaced?, h rfl]

/-- The table is one to one: a call is known by the name and the number of the arguments that a
dialect writes for it. -/
theorem call?_placed (he : entry ∈ FunctionEntry.table) (hf : entry.form? version = some form)
    (target : Expr) {arguments : List Expr} (ha : entry.arity = arguments.length) :
    call? version form.name (placed target arguments form.target) =
      some (.call entry.name target arguments) := by
  have hplace : form.target = .only → arguments = [] := fun ho ↦
    List.eq_nil_of_length_eq_zero (ha ▸ arity_of_only he hf ho)
  have hfind := find?_form he hf
  simp only [call?, length_placed target hplace, Nat.add_right_cancel_iff, ← ha]
  rw [hfind, Option.bind_eq_bind, Option.bind_some, hf, Option.bind_eq_bind, Option.bind_some,
    unplaced?_placed target hplace]
  rfl

end

/-- The text of a call is read as the call, if the texts of its arguments are. -/
theorem readsOperand_call {entry : FunctionEntry} {form : FunctionForm}
    (he : entry ∈ FunctionEntry.table) (hf : entry.form? version = some form) {text : List Char}
    {texts : List (List Char)} {target : Expr} {arguments : List Expr}
    (ht : ReadsWhole version text target)
    (hts : List.Forall₂ (ReadsWhole version) texts arguments)
    (ha : entry.arity = arguments.length) :
    ReadsOperand version
      (form.name.toList ++ parenthesized (List.intercalate [','] (placed text texts form.target)))
      (.call entry.name target arguments) := by
  intro rest hr f outer
  have hplaced : List.Forall₂ (ReadsWhole version) (placed text texts form.target)
      (placed target arguments form.target) := by
    cases form.target with
    | first => exact .cons ht hts
    | last => exact List.rel_append hts (.cons ht .nil)
    | only => exact .cons ht .nil
  have hne : placed text texts form.target ≠ [] := by
    cases form.target <;> simp [placed]
  have hcs : form.name.toList ++
        Filter.parenthesized (List.intercalate [','] (placed text texts form.target)) ++ rest =
      form.name.toList ++
        '(' :: (List.intercalate [','] (placed text texts form.target) ++ ')' :: rest) := by
    simp [Filter.parenthesized]
  rw [hcs, readChars_of_scan (scan_form he hf _) rfl, readChars_arguments hplaced hne,
    List.nil_append, call?_placed he hf target ha, Option.bind_some]

end OData.Filter
