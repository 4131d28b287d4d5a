import OData.Proofs.Filter.Operand

/-!
Strings between quotes. What a scanner of strings takes from the head of a text is what quoting writes,
to the character: no quote inside of the string ends it early, and the closing one does not run on into
what follows, unless a quote follows.
-/

namespace OData.Filter

/-- The string between quotes at the head of a text, and what follows its closing quote. -/
def readQuoted? : List Char → Option (List Char × List Char)
  | '\'' :: cs => readString cs
  | _ => none

variable {cs s rest : List Char}

/-- A quote that closes a string is not followed by another. The other quotes come in pairs. -/
theorem eq_doubleQuotes_of_readString (h : readString cs = some (s, rest)) :
    cs = Literal.doubleQuotes s ++ '\'' :: rest ∧ rest.head? ≠ some '\'' := by
  fun_induction readString cs generalizing s with
  | case1 => contradiction
  | case2 cs ih =>
    obtain ⟨⟨t, following⟩, hread, heq⟩ := Option.map_eq_some_iff.1 h
    obtain ⟨rfl, rfl⟩ := Prod.mk.inj heq
    obtain ⟨rfl, hrest⟩ := ih hread
    exact ⟨rfl, hrest⟩
  | case3 cs hpair =>
    -- the closing quote: what follows it would have made a pair of it otherwise
    obtain ⟨rfl, rfl⟩ := Prod.mk.inj (Option.some.inj h)
    refine ⟨rfl, fun hquote ↦ ?_⟩
    obtain ⟨following, hcs⟩ := List.head?_eq_some_iff.1 hquote
    exact hpair following hcs
  | case4 c cs _ hquote ih =>
    obtain ⟨⟨t, following⟩, hread, heq⟩ := Option.map_eq_some_iff.1 h
    obtain ⟨rfl, rfl⟩ := Prod.mk.inj heq
    obtain ⟨rfl, hrest⟩ := ih hread
    rw [doubleQuotes_cons, if_neg hquote]
    exact ⟨rfl, hrest⟩

theorem readString_eq_some_iff : readString cs = some (s, rest) ↔
    cs = Literal.doubleQuotes s ++ '\'' :: rest ∧ rest.head? ≠ some '\'' := by
  constructor
  · exact eq_doubleQuotes_of_readString
  · rintro ⟨rfl, h⟩
    exact readString_doubleQuotes s h

theorem readQuoted?_eq_some_iff : readQuoted? cs = some (s, rest) ↔
    cs = Literal.quoteChars s ++ rest ∧ rest.head? ≠ some '\'' := by
  rw [quoteChars_append]
  constructor
  · intro h
    unfold readQuoted? at h
    split at h
    · rw [List.cons_inj_right]
      exact readString_eq_some_iff.1 h
    · contradiction
  · rintro ⟨rfl, hrest⟩
    exact readString_eq_some_iff.2 ⟨rfl, hrest⟩

/-- A quoted string cannot be broken out of. A scanner takes it from the head of a text, gives the string
back and leaves the rest, just where no further quote follows; so the literal of a string is one token of
a filter, whatever the string holds. -/
theorem quote_confined (s : String) (text rest : List Char) :
    (readQuoted? text = some (s.toList, rest) ↔
        text = (Literal.quote s).toList ++ rest ∧ rest.head? ≠ some '\'') ∧
      ∀ version, Literal.text version (.string s) = .ok (Literal.quote s) ∧
        (rest.head? ≠ some '\'' → scan version ((Literal.quote s).toList ++ rest) =
          (scan version rest).map (.operand (.literal (.string s)) :: ·)) := by
  rw [Literal.quote, String.toList_ofList]
  refine ⟨readQuoted?_eq_some_iff, fun version ↦ ⟨?_, scan_quoteChars s⟩⟩
  cases version <;> rfl

/-- A string that would go on as a filter of its own, with quotes at both of its ends. -/
theorem quote_confined_condition : " or true".toList.head? ≠ some '\'' ∧
    readQuoted? ((Literal.quote "' or 'a' eq 'a'").toList ++ " or true".toList) =
      some ("' or 'a' eq 'a'".toList, " or true".toList) ∧
    scan .v4 ((Literal.quote "' or 'a' eq 'a'").toList ++ " or true".toList) =
      (scan .v4 " or true".toList).map (.operand (.literal (.string "' or 'a' eq 'a'")) :: ·) := by
  have hrest : " or true".toList.head? ≠ some '\'' := by decide
  obtain ⟨hread, hscan⟩ := quote_confined "' or 'a' eq 'a'"
    ((Literal.quote "' or 'a' eq 'a'").toList ++ " or true".toList) " or true".toList
  exact ⟨hrest, hread.2 ⟨rfl, hrest⟩, (hscan .v4).2 hrest⟩

end OData.Filter
