import OData.Proofs.Filter.Phrase

/-!
Comparisons of string properties with null in the older dialect. One with null behind is written as a
test for presence, wherever it stands in an expression, and one with null in front as it is. Without the
latter the text says no comparison of a string property with null at all.
-/

namespace OData.Filter

open OData.Expr

variable {r : Resolver} {collection : Option String}

/-- An equality or inequality with null in front. -/
def NullFirst (e : Expr) : Prop :=
  ∃ op right, (op = .eq ∨ op = .ne) ∧ e = .binary op (.literal .null) right

/-- An equality or inequality of a string property and null. -/
inductive ComparesWithNull (r : Resolver) (collection : Option String) : Expr → Prop
  | last {op : BinaryOperator} {path : String} (hop : op = .eq ∨ op = .ne)
    (h : IsStringProperty r .v3 collection path) :
    ComparesWithNull r collection (.binary op (.reference path) (.literal .null))
  | first {op : BinaryOperator} {path : String} (hop : op = .eq ∨ op = .ne)
    (h : IsStringProperty r .v3 collection path) :
    ComparesWithNull r collection (.binary op (.literal .null) (.reference path))

/-- Neither of both. -/
def NullFree (r : Resolver) (collection : Option String) (e : Expr) : Prop :=
  ¬ NullFirst e ∧ ¬ ComparesWithNull r collection e

theorem nullFree_of_not_binary {e : Expr} (h : ∀ op left right, e ≠ .binary op left right) :
    NullFree r collection e := by
  constructor
  · rintro ⟨op, right, -, rfl⟩
    exact h _ _ _ rfl
  · rintro (_ | _) <;> exact h _ _ _ rfl

theorem nullFree_binary_iff {op : BinaryOperator} {left right : Expr} :
    NullFree r collection (.binary op left right) ↔ (op = .eq ∨ op = .ne →
      left ≠ .literal .null ∧ ∀ path, left = .reference path → right = .literal .null →
        ¬ IsStringProperty r .v3 collection path) := by
  constructor
  · rintro ⟨hfirst, hcompares⟩ hop
    refine ⟨?_, ?_⟩
    · rintro rfl
      exact hfirst ⟨op, right, hop, rfl⟩
    · rintro path rfl rfl hs
      exact hcompares (.last hop hs)
  · intro h
    constructor
    · rintro ⟨op', right', hop, heq⟩
      obtain ⟨rfl, rfl, rfl⟩ := binary.inj heq
      exact (h hop).1 rfl
    · intro hcompares
      cases hcompares with
      | last hop hs => exact (h hop).2 _ rfl rfl hs
      | first hop hs => exact (h hop).1 rfl

theorem nullFree_of_rank {op : BinaryOperator} {left : Expr} {rank : Nat} (h : left.rank? = some rank)
    (right : Expr) : NullFree r collection (.binary op left right) := by
  refine nullFree_binary_iff.2 fun _ ↦ ⟨?_, ?_⟩
  · rintro rfl
    contradiction
  · rintro path rfl
    contradiction

theorem leftAssociated_eq_atom {e atom : Expr} (ha : IsAtom atom) (h : e.leftAssociated = atom) :
    e = atom := by
  cases e with
  | reference | literal => exact h
  | binary op left right =>
    rw [leftAssociated] at h
    have hrank := rank?_graft left.leftAssociated op right.leftAssociated
    rw [h] at hrank
    cases ha <;> contradiction
  | call | not =>
    subst h
    contradiction

theorem equality_of_rank {op op' : BinaryOperator} (h : op'.rank = op.rank)
    (hop : op = .eq ∨ op = .ne) : op' = .eq ∨ op' = .ne := by
  rcases hop with rfl | rfl <;> cases op' <;> first | contradiction | simp

/-- Grafting puts a new operand in front of the leftmost one of a run of operators. Both operators are
equalities then, and the leftmost operand is not null, since no null stands in front. -/
theorem everywhere_graft {x : Expr} {op : BinaryOperator} (hx : Everywhere (NullFree r collection) x)
    (e : Expr) (he : Everywhere (NullFree r collection) e)
    (h : NullFree r collection (.binary op x e)) :
    Everywhere (NullFree r collection) (x.graft op e) := by
  match e with
  | .binary op' a b =>
    obtain ⟨hab, ha, hb⟩ := everywhere_binary.1 he
    by_cases hrank : op'.rank = op.rank
    · have hxa : NullFree r collection (.binary op x a) := by
        refine nullFree_binary_iff.2 fun hop ↦ ⟨(nullFree_binary_iff.1 h hop).1, ?_⟩
        rintro path - rfl -
        exact (nullFree_binary_iff.1 hab (equality_of_rank hrank hop)).1 rfl
      rw [graft, if_pos hrank, everywhere_binary]
      exact ⟨nullFree_of_rank (rank?_graft x op a) b, everywhere_graft hx a ha hxa, hb⟩
    · rw [graft, if_neg hrank, everywhere_binary]
      exact ⟨h, hx, he⟩
  | .reference _ | .literal _ | .call _ _ _ | .not _ =>
    exact everywhere_binary.2 ⟨h, hx, he⟩

mutual

theorem everywhere_leftAssociated (e : Expr) (h : Everywhere (NullFree r collection) e) :
    Everywhere (NullFree r collection) e.leftAssociated := by
  match e with
  | .reference path => exact h
  | .literal v => exact h
  | .call name target arguments =>
    obtain ⟨-, ht, ha⟩ := everywhere_call.1 h
    rw [leftAssociated, everywhere_call]
    exact ⟨nullFree_of_not_binary nofun, everywhere_leftAssociated target ht,
      everywhere_leftAssociatedAll arguments ha⟩
  | .binary op left right =>
    obtain ⟨hop, hl, hr⟩ := everywhere_binary.1 h
    have hl' := everywhere_leftAssociated left hl
    have hr' := everywhere_leftAssociated right hr
    refine everywhere_graft hl' _ hr' (nullFree_binary_iff.2 fun heq ↦ ⟨fun hnull ↦ ?_, ?_⟩)
    · exact (nullFree_binary_iff.1 hop heq).1 (leftAssociated_eq_atom (.literal _) hnull)
    · intro path hpath hnull
      exact (nullFree_binary_iff.1 hop heq).2 path (leftAssociated_eq_atom (.reference _) hpath)
        (leftAssociated_eq_atom (.literal _) hnull)
  | .not operand =>
    obtain ⟨-, ho⟩ := everywhere_not.1 h
    rw [leftAssociated, everywhere_not]
    exact ⟨nullFree_of_not_binary nofun, everywhere_leftAssociated operand ho⟩

theorem everywhere_leftAssociatedAll (es : List Expr)
    (h : ∀ e ∈ es, Everywhere (NullFree r collection) e) :
    ∀ e ∈ leftAssociatedAll es, Everywhere (NullFree r collection) e := by
  match es with
  | [] => exact h
  | e :: rest =>
    obtain ⟨he, hrest⟩ := List.forall_mem_cons.1 h
    rw [leftAssociatedAll]
    exact List.forall_mem_cons.2
      ⟨everywhere_leftAssociated e he, everywhere_leftAssociatedAll rest hrest⟩

end

theorem everywhere_bracketed {phrase : Expr} (h : Everywhere (NullFree r collection) phrase)
    (rank : Nat) (e : Expr) : Everywhere (NullFree r collection) (bracketed rank e phrase) := by
  have hgroup : Everywhere (NullFree r collection) phrase.group := by
    rw [group, everywhere_call]
    exact ⟨nullFree_of_not_binary nofun, h, List.forall_mem_nil _⟩
  unfold bracketed
  split
  · split
    · exact hgroup
    · exact h
  · exact h

theorem phrase_eq_atom {e atom : Expr} (ha : IsAtom atom) (h : phrase r .v3 collection e = atom) :
    e = atom := by
  cases e with
  | reference | literal => exact h
  | binary op left right =>
    rw [phrase] at h
    split at h
    · subst h
      contradiction
    · dsimp only at h
      split at h <;> subst h <;> contradiction
    · subst h
      contradiction
  | call | not =>
    subst h
    contradiction

/-- What is not in parentheses stands as it is. -/
theorem bracketed_eq_atom {rank : Nat} {e phrase atom : Expr} (ha : IsAtom atom)
    (h : bracketed rank e phrase = atom) : phrase = atom := by
  unfold bracketed at h
  split at h
  · split at h
    · subst h
      contradiction
    · exact h
  · exact h

theorem exists_presenceTest {op : BinaryOperator} {path : String} (hop : op = .eq ∨ op = .ne)
    (h : IsStringProperty r .v3 collection path) :
    ∃ test,
      presenceTest? r .v3 collection op (.reference path) (.literal .null) = .ok (some test) := by
  obtain ⟨p, hp, hs⟩ := isStringProperty_iff.1 h
  rcases hop with rfl | rfl
  · exact ⟨_, presenceTest?_eq_some hp hs presence?_eq⟩
  · exact ⟨_, presenceTest?_eq_some hp hs presence?_ne⟩

theorem nullFree_of_ne {op : BinaryOperator} (heq : op ≠ .eq) (hne : op ≠ .ne) (left right : Expr) :
    NullFree r collection (.binary op left right) :=
  nullFree_binary_iff.2 fun hop ↦ absurd hop (not_or_intro heq hne)

/-- One step of `everywhere_phrase`. -/
theorem everywhere_phrase_binary {op : BinaryOperator} {left right : Expr}
    (h : ¬ NullFirst (.binary op left right))
    (hl : Everywhere (NullFree r collection) (phrase r .v3 collection left))
    (hr : Everywhere (NullFree r collection) (phrase r .v3 collection right)) :
    Everywhere (NullFree r collection) (phrase r .v3 collection (.binary op left right)) := by
  have hgroup {e : Expr} (he : Everywhere (NullFree r collection) e) :
      Everywhere (NullFree r collection) e.group :=
    everywhere_call.2 ⟨nullFree_of_not_binary (by simp), he, List.forall_mem_nil _⟩
  have hliteral (v : Value) : Everywhere (NullFree r collection) (.literal v) :=
    everywhere_literal.2 (nullFree_of_not_binary (by simp))
  rw [phrase]
  split
  · have hsubject := everywhere_bracketed hl BinaryOperator.ge.rank left
    refine hgroup (everywhere_binary.2 ⟨nullFree_of_ne (by decide) (by decide) _ _, ?_, ?_⟩)
    · exact everywhere_binary.2 ⟨nullFree_of_ne (by decide) (by decide) _ _, hsubject, hliteral _⟩
    · exact everywhere_binary.2 ⟨nullFree_of_ne (by decide) (by decide) _ _, hsubject, hliteral _⟩
  · rename_i test htest
    by_cases hnull : (Version.v3 = .v3 ∧ (∃ path, left = .reference path) ∧ right = .literal .null)
    · obtain ⟨-, ⟨path, rfl⟩, -⟩ := hnull
      have hge : NullFree r collection (.binary .ge (.reference path) (.literal (.string ""))) :=
        nullFree_of_ne (by decide) (by decide) _ _
      have hpresent := hgroup (everywhere_binary.2 ⟨hge, hl, hliteral (.string "")⟩)
      dsimp only
      split
      · exact everywhere_not.2 ⟨nullFree_of_not_binary (by simp), hpresent⟩
      · exact hpresent
    · rw [presenceTest?_of_not_null hnull] at htest
      cases htest
  · rename_i htest
    refine everywhere_binary.2 ⟨nullFree_binary_iff.2 fun hop ↦ ⟨fun hnull ↦ ?_, ?_⟩,
      everywhere_bracketed hl op.rank left, everywhere_bracketed hr op.rank right⟩
    · obtain rfl := phrase_eq_atom (.literal _) (bracketed_eq_atom (.literal _) hnull)
      exact h ⟨op, right, hop, rfl⟩
    · intro path hpath hnull hs
      obtain rfl := phrase_eq_atom (.reference _) (bracketed_eq_atom (.reference _) hpath)
      obtain rfl := phrase_eq_atom (.literal _) (bracketed_eq_atom (.literal _) hnull)
      obtain ⟨test, hpresent⟩ := exists_presenceTest hop hs
      exact htest _ hpresent

mutual

theorem everywhere_phrase (e : Expr) (h : Everywhere (¬ NullFirst ·) e) :
    Everywhere (NullFree r collection) (phrase r .v3 collection e) := by
  match e with
  | .reference path => exact everywhere_reference.2 (nullFree_of_not_binary nofun)
  | .literal v => exact everywhere_literal.2 (nullFree_of_not_binary nofun)
  | .call name target arguments =>
    obtain ⟨-, ht, ha⟩ := everywhere_call.1 h
    rw [phrase, everywhere_call]
    exact ⟨nullFree_of_not_binary nofun, everywhere_phrase target ht,
      everywhere_phraseAll arguments ha⟩
  | .binary op left right =>
    obtain ⟨hop, hl, hr⟩ := everywhere_binary.1 h
    exact everywhere_phrase_binary hop (everywhere_phrase left hl) (everywhere_phrase right hr)
  | .not operand =>
    obtain ⟨-, ho⟩ := everywhere_not.1 h
    rw [phrase, everywhere_not]
    exact ⟨nullFree_of_not_binary nofun,
      everywhere_bracketed (everywhere_phrase operand ho) negationRank operand⟩

theorem everywhere_phraseAll (es : List Expr) (h : ∀ e ∈ es, Everywhere (¬ NullFirst ·) e) :
    ∀ e ∈ phraseAll r .v3 collection es, Everywhere (NullFree r collection) e := by
  match es with
  | [] => nofun
  | e :: rest =>
    obtain ⟨he, hrest⟩ := List.forall_mem_cons.1 h
    rw [phraseAll]
    exact List.forall_mem_cons.2 ⟨everywhere_phrase e he, everywhere_phraseAll rest hrest⟩

end

/-- A test for presence is what is written for a comparison with null behind a string property. -/
theorem chars_presence {op : BinaryOperator} {path : String} {p : ResolvedPath} {test : List Char}
    (hp : resolvePath r .v3 collection path = .ok p) (hs : isStringPath r p = true)
    (ht : presence? p.chars op = some test) :
    chars r .v3 collection (.binary op (.reference path) (.literal .null)) = .ok test := by
  have hrange : range? op (.literal .null) = none := by cases op <;> rfl
  rw [chars, hrange]
  dsimp only
  rw [presenceTest?_eq_some hp hs ht]
  rfl

/-- A comparison with null in front is written with the keyword. -/
theorem chars_null_first {op : BinaryOperator} {path : String} {p : ResolvedPath}
    (hp : resolvePath r .v3 collection path = .ok p) :
    chars r .v3 collection (.binary op (.literal .null) (.reference path)) =
      .ok (joined "null".toList op.keyword p.chars) := by
  have hrange : range? op (.reference path) = none := by cases op <;> rfl
  rw [chars_binary hrange (presenceTest?_of_not_null nofun), chars_reference, hp]
  rfl

/-- In a filter of the older dialect every comparison with null behind a string property stands as a test
for presence, and every one with null in front as it is; around either stands what would stand around any
other operation of the same rank. The text says the phrase of the filter, and where no null is in front,
nothing in it compares a string property with null. -/
theorem comparisons_with_null {e : Expr} {s : String} (h : text r .v3 collection e = .ok s) :
    (∀ (k : Context) (op : BinaryOperator) (path : String) (p : ResolvedPath), op = .eq ∨ op = .ne →
      resolvePath r .v3 collection path = .ok p → isStringPath r p = true →
      (e = k.fill (.binary op (.reference path) (.literal .null)) →
        ∃ f test, Gapped f ∧ Surrounds r .v3 collection op.rank k f ∧
          presence? p.chars op = some test ∧ s.toList = f test) ∧
      (e = k.fill (.binary op (.literal .null) (.reference path)) →
        ∃ f, Gapped f ∧ Surrounds r .v3 collection op.rank k f ∧
          s.toList = f (joined "null".toList op.keyword p.chars))) ∧
    Says r .v3 collection s.toList (phrase r .v3 collection e).chain ∧
    (Everywhere (¬ NullFirst ·) e →
      Everywhere (¬ ComparesWithNull r collection ·) (phrase r .v3 collection e).chain.tree) := by
  obtain ⟨cs, hcs, rfl⟩ := Except.map_eq_ok.1 h
  rw [String.toList_ofList]
  refine ⟨fun k op path p hop hp hs ↦ ⟨?_, ?_⟩, (says_phrase e hcs).chain, fun hfirst ↦ ?_⟩
  · rintro rfl
    obtain ⟨test, ht⟩ : ∃ test, presence? p.chars op = some test := by
      rcases hop with rfl | rfl
      · exact ⟨_, rfl⟩
      · exact ⟨_, rfl⟩
    obtain ⟨f, hf, hk⟩ := exists_surrounds rfl k hcs
    have hfill := hk (.binary op (.reference path) (.literal .null)) rfl
    rw [hcs, chars_presence hp hs ht] at hfill
    exact ⟨f, test, hf, hk, ht, Except.ok.inj hfill⟩
  · rintro rfl
    obtain ⟨f, hf, hk⟩ := exists_surrounds rfl k hcs
    have hfill := hk (.binary op (.literal .null) (.reference path)) rfl
    rw [hcs, chars_null_first hp] at hfill
    exact ⟨f, hf, hk, Except.ok.inj hfill⟩
  · rw [Chain.tree_chain]
    exact (everywhere_leftAssociated _ (everywhere_phrase e hfirst)).mono fun _ hd ↦ hd.2

/-- Under a negation and beside a comparison that has a function around its property. -/
def unnamed : Expr :=
  .not (.binary .and (.binary .eq (.reference "name") (.literal .null))
    (.binary .ne (.toLower (.reference "Name")) (.literal .null)))

theorem comparisons_with_null_unnamed :
    text products .v3 (some "Products") unnamed =
        .ok "not(not(Name ge '') and tolower(Name) ne null)" ∧
      Says products .v3 (some "Products") "not(not(Name ge '') and tolower(Name) ne null)".toList
        (phrase products .v3 (some "Products") unnamed).chain ∧
      Everywhere (¬ ComparesWithNull products (some "Products") ·)
        (phrase products .v3 (some "Products") unnamed).chain.tree := by
  have htext : text products .v3 (some "Products") unnamed =
      .ok "not(not(Name ge '') and tolower(Name) ne null)" := by decide
  obtain ⟨-, hsays, htree⟩ := comparisons_with_null htext
  exact ⟨htext, hsays, htree (by simp [unnamed, toLower, NullFirst])⟩

/-- With null in front a string property is compared with null, and where such a comparison follows an
equality, its null is taken by the equality. -/
theorem not_presence_of_null_first :
    ComparesWithNull products (some "Products") (.binary .eq (.literal .null) (.reference "Name")) ∧
      text products .v3 (some "Products") (.binary .eq (.literal .null) (.reference "Name")) =
        .ok "null eq Name" ∧
      text products .v3 (some "Products")
          (.binary .eq (.reference "Name") (.binary .eq (.literal .null) (.reference "Price"))) =
        .ok "Name eq null eq Price" ∧
      ¬ ∀ (op : BinaryOperator) (path : String) (p : ResolvedPath), op = .eq ∨ op = .ne →
        resolvePath products .v3 (some "Products") path = .ok p → isStringPath products p = true →
        ∀ s, text products .v3 (some "Products") (.binary op (.literal .null) (.reference path)) =
          .ok s → presence? p.chars op = some s.toList := by
  have hname : resolvePath products .v3 (some "Products") "Name" =
      .ok ⟨some "Products", ["Name".toList], some ("Products", "Name"), false⟩ := rfl
  have htext : text products .v3 (some "Products")
      (.binary .eq (.literal .null) (.reference "Name")) = .ok "null eq Name" := by decide
  refine ⟨.first (.inl rfl) (isStringProperty_iff.2 ⟨_, hname, by decide⟩), htext, by decide,
    fun hall ↦ ?_⟩
  exact absurd (hall .eq "Name" _ (.inl rfl) hname (by decide) _ htext) (by decide)

end OData.Filter
