import OData.Format.Filter
import OData.Proofs.Answer

/-!
How expressions are written, by one equivalence or one inversion for each form. Of the operations, only
an equality with a range and, in the older dialect, a comparison of a string property with null are
written otherwise than with a keyword between the operands.
-/

namespace OData.Filter

/-- Whether a resolved path ends on a string property, with no function around it. -/
def isStringPath (r : Resolver) (p : ResolvedPath) : Bool :=
  match p.field with
  | some (owner, name) => !p.wrapped && r.isStringField owner name
  | none => false

/-- The tests for presence that stand for the comparisons of a property with null. -/
def presence? (path : List Char) : BinaryOperator → Option (List Char)
  | .eq => some ("not(".toList ++ path ++ " ge '')".toList)
  | .ne => some ("(".toList ++ path ++ " ge '')".toList)
  | _ => none

variable {r : Resolver} {version : Version} {collection : Option String} {op : BinaryOperator}
  {left right operand target : Expr} {arguments : List Expr} {path name : String} {v : Value}
  {p : ResolvedPath} {cs test : List Char}

theorem chars_reference : chars r version collection (.reference path) =
    (resolvePath r version collection path).map ResolvedPath.chars := by
  rw [chars]

theorem chars_literal : chars r version collection (.literal v) = literal version v := by
  rw [chars]

theorem charsAll_eq_mapM (es : List Expr) :
    charsAll r version collection es = es.mapM (chars r version collection) := by
  induction es with
  | nil => rfl
  | cons e es ih => rw [charsAll, List.mapM_cons, ih]

theorem chars_call_eq_ok : chars r version collection (.call name target arguments) = .ok cs ↔
    ∃ form text texts, lookupFunction version name arguments.length = some form ∧
      chars r version collection target = .ok text ∧
      charsAll r version collection arguments = .ok texts ∧
      form.name.toList ++ parenthesized (List.intercalate [','] (placed text texts form.target)) =
        cs := by
  rw [chars]
  constructor
  · intro h
    cases hform : lookupFunction version name arguments.length with
    | none =>
      rw [hform] at h
      cases h
    | some form =>
      rw [hform] at h
      obtain ⟨text, htext, h⟩ := Except.bind_eq_ok.1 h
      obtain ⟨texts, htexts, h⟩ := Except.bind_eq_ok.1 h
      exact ⟨form, text, texts, rfl, htext, htexts, Except.ok.inj h⟩
  · rintro ⟨form, text, texts, hform, htext, htexts, rfl⟩
    rw [hform]
    exact Except.bind_eq_ok.2 ⟨text, htext, Except.bind_eq_ok.2 ⟨texts, htexts, rfl⟩⟩

theorem chars_not_eq_ok : chars r version collection (.not operand) = .ok cs ↔
    ∃ inner, chars r version collection operand = .ok inner ∧
      (negationKeyword.toList ++
        if (operand.rank?.any fun rank ↦ negationRank < rank) then parenthesized inner
        else ' ' :: inner) = cs := by
  rw [chars]
  constructor
  · intro h
    obtain ⟨inner, hinner, h⟩ := Except.bind_eq_ok.1 h
    exact ⟨inner, hinner, Except.ok.inj h⟩
  · rintro ⟨inner, hinner, rfl⟩
    exact Except.bind_eq_ok.2 ⟨inner, hinner, rfl⟩

theorem presence?_eq : presence? cs .eq =
    some (negationKeyword.toList ++ parenthesized (joined cs "ge" (Literal.quoteChars []))) := by
  simp [presence?, negationKeyword, parenthesized, joined, Literal.quoteChars, Literal.doubleQuotes]

theorem presence?_ne :
    presence? cs .ne = some (parenthesized (joined cs "ge" (Literal.quoteChars []))) := by
  simp [presence?, parenthesized, joined, Literal.quoteChars, Literal.doubleQuotes]

theorem presence?_of_ne (heq : op ≠ .eq) (hne : op ≠ .ne) : presence? cs op = none := by
  unfold presence?
  split <;> first | contradiction | rfl

theorem eq_or_ne_of_presence? (h : presence? cs op = some test) : op = .eq ∨ op = .ne := by
  cases op
  case eq => exact .inl rfl
  case ne => exact .inr rfl
  all_goals contradiction

theorem presence?_ne_nil (h : presence? cs op = some test) : test ≠ [] := by
  rcases eq_or_ne_of_presence? h with rfl | rfl
  · rw [presence?_eq] at h
    obtain rfl := Option.some.inj h
    simp [parenthesized]
  · rw [presence?_ne] at h
    obtain rfl := Option.some.inj h
    simp [parenthesized]

theorem range?_of_ne (h : op ≠ .eq) : range? op right = none := by
  unfold range?
  split
  · contradiction
  · rfl

theorem presenceTest?_null (r : Resolver) (collection : Option String) (op : BinaryOperator)
    (path : String) :
    presenceTest? r .v3 collection op (.reference path) (.literal .null) =
      (resolvePath r .v3 collection path).map fun p ↦
        if isStringPath r p then presence? p.chars op else none := by
  rw [presenceTest?]
  cases resolvePath r .v3 collection path with
  | error e => rfl
  | ok p =>
    refine congrArg Except.ok ?_
    show _ = if isStringPath r p then presence? p.chars op else none
    unfold isStringPath
    cases p.field with
    | none => rfl
    | some field =>
      dsimp only
      by_cases hs : (!p.wrapped && r.isStringField field.1 field.2) = true
      · rw [if_pos hs, hs]
        cases op
        case eq => exact presence?_eq.symm
        case ne => exact presence?_ne.symm
        all_goals rfl
      · rw [if_neg hs, eq_false_of_ne_true hs]

theorem presenceTest?_eq_some (hp : resolvePath r .v3 collection path = .ok p)
    (hs : isStringPath r p = true) (ht : presence? p.chars op = some test) :
    presenceTest? r .v3 collection op (.reference path) (.literal .null) = .ok (some test) := by
  rw [presenceTest?_null, hp]
  exact congrArg Except.ok ((if_pos hs).trans ht)

/-- Nothing else is written as a test for presence. -/
theorem presenceTest?_of_not_null
    (h : ¬ (version = .v3 ∧ (∃ path, left = .reference path) ∧ right = .literal .null)) :
    presenceTest? r version collection op left right = .ok none := by
  unfold presenceTest?
  split
  · exact absurd ⟨rfl, ⟨_, rfl⟩, rfl⟩ h
  · rfl

/-- What is written for an operation. -/
inductive Operation (r : Resolver) (version : Version) (collection : Option String) :
    BinaryOperator → Expr → Expr → List Char → Prop
  | range {e : Expr} {low high : Value} {subject low' high' : List Char}
    (he : chars r version collection e = .ok subject) (hl : literal version low = .ok low')
    (hh : literal version high = .ok high') :
    Operation r version collection .eq e (.literal (.range low high))
      (parenthesized (joined (joined (grouped BinaryOperator.ge.rank e subject) "ge" low') "and"
        (joined (grouped BinaryOperator.ge.rank e subject) "le" high')))
  | presence {op : BinaryOperator} {path : String} {p : ResolvedPath} {test : List Char}
    (hv : version = .v3) (hp : resolvePath r .v3 collection path = .ok p)
    (hs : isStringPath r p = true) (ht : presence? p.chars op = some test) :
    Operation r version collection op (.reference path) (.literal .null) test
  | joined {op : BinaryOperator} {left right : Expr} {left' right' : List Char}
    (hrange : range? op right = none)
    (htest : presenceTest? r version collection op left right = .ok none)
    (hl : chars r version collection left = .ok left')
    (hr : chars r version collection right = .ok right') :
    Operation r version collection op left right
      (Filter.joined (grouped op.rank left left') op.keyword (grouped op.rank right right'))

theorem Operation.ne_nil (h : Operation r version collection op left right cs) : cs ≠ [] := by
  cases h with
  | range => simp [parenthesized]
  | presence hv hp hs ht => exact presence?_ne_nil ht
  | joined => simp [Filter.joined]

theorem operation_of_chars (h : chars r version collection (.binary op left right) = .ok cs) :
    Operation r version collection op left right cs := by
  rw [chars] at h
  cases hrange : range? op right with
  | some bounds =>
    obtain ⟨low, high⟩ := bounds
    rw [hrange] at h
    obtain ⟨subject, he, h⟩ := Except.bind_eq_ok.1 h
    obtain ⟨low', hl, h⟩ := Except.bind_eq_ok.1 h
    obtain ⟨high', hh, h⟩ := Except.bind_eq_ok.1 h
    obtain rfl := Except.ok.inj h
    unfold range? at hrange
    split at hrange
    · obtain ⟨rfl, rfl⟩ := Prod.mk.inj (Option.some.inj hrange)
      exact .range he hl hh
    · contradiction
  | none =>
    rw [hrange] at h
    obtain ⟨test?, htest, h⟩ := Except.bind_eq_ok.1 h
    cases test? with
    | some test =>
      obtain rfl := Except.ok.inj h
      by_cases hnull : version = .v3 ∧ (∃ path, left = .reference path) ∧ right = .literal .null
      · obtain ⟨rfl, ⟨path, rfl⟩, rfl⟩ := hnull
        rw [presenceTest?_null] at htest
        obtain ⟨p, hp, htest⟩ := Except.map_eq_ok.1 htest
        obtain ⟨hs, htest⟩ := Option.ite_none_right_eq_some.1 htest
        exact .presence rfl hp hs htest
      · rw [presenceTest?_of_not_null hnull] at htest
        cases htest
    | none =>
      obtain ⟨left', hl, h⟩ := Except.bind_eq_ok.1 h
      obtain ⟨right', hr, h⟩ := Except.bind_eq_ok.1 h
      obtain rfl := Except.ok.inj h
      exact .joined hrange htest hl hr

/-- Where there is neither a range nor a presence test, the keyword stands between the operands. -/
theorem chars_binary (hrange : range? op right = none)
    (htest : presenceTest? r version collection op left right = .ok none) :
    chars r version collection (.binary op left right) = do
      let left' ← chars r version collection left
      let right' ← chars r version collection right
      return joined (grouped op.rank left left') op.keyword (grouped op.rank right right') := by
  rw [chars, hrange]
  dsimp only
  rw [htest]
  rfl

/-- The operators that are neither `eq` nor `ne` have no other form than the keyword between the
operands. -/
theorem chars_binary_of_ne (heq : op ≠ .eq) (hne : op ≠ .ne) :
    chars r version collection (.binary op left right) = do
      let left' ← chars r version collection left
      let right' ← chars r version collection right
      return joined (grouped op.rank left left') op.keyword (grouped op.rank right right') := by
  by_cases hnull : version = .v3 ∧ (∃ path, left = .reference path) ∧ right = .literal .null
  · obtain ⟨rfl, ⟨path, rfl⟩, rfl⟩ := hnull
    rw [chars.eq_4, range?_of_ne heq]
    dsimp only
    rw [presenceTest?_null, chars_reference]
    -- where the path cannot be resolved, looking for a presence test fails as writing it does
    cases resolvePath r .v3 collection path with
    | error e => rfl
    | ok p =>
      rw [Except.map, presence?_of_ne heq hne, ite_self]
      rfl
  · exact chars_binary (range?_of_ne heq) (presenceTest?_of_not_null hnull)

theorem chars_range (r : Resolver) (version : Version) (collection : Option String) (e : Expr)
    (low high : Value) :
    chars r version collection (.binary .eq e (.literal (.range low high))) =
      (chars r version collection
        (.binary .and (.binary .ge e (.literal low)) (.binary .le e (.literal high)))).map
          parenthesized := by
  have hbound {op : BinaryOperator} (heq : op ≠ .eq) (hne : op ≠ .ne) (v : Value) :
      chars r version collection (.binary op e (.literal v)) = do
        let subject ← chars r version collection e
        let bound ← literal version v
        return joined (grouped op.rank e subject) op.keyword bound := by
    rw [chars_binary_of_ne heq hne, chars_literal]
    rfl
  have hrange : range? .eq (.literal (.range low high)) = some (low, high) := rfl
  rw [chars_binary_of_ne (show BinaryOperator.and ≠ .eq by decide) (by decide),
    hbound (show BinaryOperator.ge ≠ .eq by decide) (by decide),
    hbound (show BinaryOperator.le ≠ .eq by decide) (by decide), chars, hrange]
  dsimp only
  -- both fail where the subject or the first bad bound does
  cases chars r version collection e with
  | error => rfl
  | ok subject =>
    cases literal version low with
    | error => rfl
    | ok low => cases literal version high <;> rfl

/-- An equality with a range is written as the conjunction of its bounds in parentheses, and fails as that
does. -/
theorem text_range (r : Resolver) (version : Version) (collection : Option String) (e : Expr)
    (low high : Value) :
    text r version collection (.binary .eq e (.literal (.range low high))) =
      (text r version collection
        (.binary .and (.binary .ge e (.literal low)) (.binary .le e (.literal high)))).map
          fun s ↦ "(" ++ s ++ ")" := by
  rw [text, text, chars_range]
  cases chars r version collection
      (.binary .and (.binary .ge e (.literal low)) (.binary .le e (.literal high))) with
  | error => rfl
  | ok cs =>
    refine congrArg Except.ok (String.toList_injective ?_)
    simp [parenthesized]

end OData.Filter
