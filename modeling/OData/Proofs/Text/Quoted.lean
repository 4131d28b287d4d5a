import OData.Proofs.Text.Nested
import OData.Value.Literal

/-!
Texts with quotes in them, cut at the marks that stand outside of the quotes. Two quotes in a row leave
the quotes and enter them again, so what follows them is inside still.
-/

namespace OData.Text

/-- The pieces between the marks outside of quotes. -/
def unquotedPieces (mark : Char) : (quoted : Bool) → List Char → List (List Char)
  | _, [] => [[]]
  | quoted, c :: cs =>
    if c = mark ∧ quoted = false then [] :: unquotedPieces mark quoted cs
    else glue [c] (unquotedPieces mark (if c = '\'' then !quoted else quoted) cs)

/-- The text is not cut, and as many quotes are open behind it as in front of it. -/
def Uncut (mark : Char) (quoted : Bool) (cs : List Char) : Prop :=
  ∀ rest, unquotedPieces mark quoted (cs ++ rest) = glue cs (unquotedPieces mark quoted rest)

variable {mark c : Char} {quoted : Bool} {cs xs ys : List Char} {texts : List (List Char)}

theorem unquotedPieces_ne_nil (mark : Char) (quoted : Bool) (cs : List Char) :
    unquotedPieces mark quoted cs ≠ [] := by
  cases cs with
  | nil => exact List.cons_ne_nil _ _
  | cons c cs =>
    rw [unquotedPieces]
    split
    · exact List.cons_ne_nil _ _
    · cases unquotedPieces mark (if c = '\'' then !quoted else quoted) cs <;>
        exact List.cons_ne_nil _ _

theorem uncut_nil (mark : Char) (quoted : Bool) : Uncut mark quoted [] := by
  intro rest
  obtain ⟨piece, others, heq⟩ := List.exists_cons_of_ne_nil (unquotedPieces_ne_nil mark quoted rest)
  rw [List.nil_append, heq]
  rfl

theorem Uncut.append (hx : Uncut mark quoted xs) (hy : Uncut mark quoted ys) :
    Uncut mark quoted (xs ++ ys) := by
  intro rest
  rw [List.append_assoc, hx, hy, glue_append]

theorem uncut_singleton (hc : c ≠ '\'') (hm : c = mark → quoted = true) : Uncut mark quoted [c] := by
  intro rest
  have hmark : ¬ (c = mark ∧ quoted = false) := fun ⟨heq, hfalse⟩ ↦ by simp [hm heq] at hfalse
  rw [List.singleton_append, unquotedPieces, if_neg hmark, if_neg hc]

theorem uncut_of_forall (h : ∀ c ∈ cs, c ≠ '\'' ∧ c ≠ mark) : Uncut mark quoted cs := by
  induction cs with
  | nil => exact uncut_nil mark quoted
  | cons c cs ih =>
    obtain ⟨⟨hc, hm⟩, hrest⟩ := List.forall_mem_cons.1 h
    exact (uncut_singleton hc fun heq ↦ absurd heq hm).append (ih hrest)

/-- A quote is entered and left. -/
theorem unquotedPieces_quote (hm : mark ≠ '\'') (quoted : Bool) (rest : List Char) :
    unquotedPieces mark quoted ('\'' :: rest) = glue ['\''] (unquotedPieces mark (!quoted) rest) := by
  rw [unquotedPieces, if_neg (fun h ↦ hm h.1.symm), if_pos rfl]

theorem uncut_doubleQuotes (hm : mark ≠ '\'') (cs : List Char) :
    Uncut mark true (Literal.doubleQuotes cs) := by
  induction cs with
  | nil => exact uncut_nil mark true
  | cons c cs ih =>
    have hc : Uncut mark true (if c = '\'' then ['\'', '\''] else [c]) := by
      split
      · intro rest
        rw [List.cons_append, unquotedPieces_quote hm, List.singleton_append, unquotedPieces_quote hm,
          ← glue_append]
        rfl
      · rename_i hc
        exact uncut_singleton hc fun _ ↦ rfl
    exact hc.append ih

theorem uncut_quoteChars (hm : mark ≠ '\'') (cs : List Char) :
    Uncut mark false (Literal.quoteChars cs) := by
  intro rest
  rw [Literal.quoteChars, List.cons_append, List.cons_append, List.append_assoc,
    unquotedPieces_quote hm]
  have hinside := uncut_doubleQuotes hm cs (['\''] ++ rest)
  rw [Bool.not_false, hinside, List.singleton_append, unquotedPieces_quote hm, ← glue_append,
    ← glue_append]
  rfl

theorem unquotedPieces_intercalate (hne : texts ≠ []) (h : ∀ cs ∈ texts, Uncut mark false cs) :
    unquotedPieces mark false (List.intercalate [mark] texts) = texts :=
  cut_intercalate rfl (fun rest ↦ by rw [unquotedPieces, if_pos ⟨rfl, rfl⟩]) hne h

end OData.Text
