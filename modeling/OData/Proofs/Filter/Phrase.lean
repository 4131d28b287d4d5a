import OData.Proofs.Filter.Context

/-!
What the text of a filter says, by the grammar of filters alone: operands with operators between them,
where parentheses make one operand of what they enclose. The text of an expression says the phrase of the
expression, which has every pair of parentheses in place, and ranges and tests for presence written out.
-/

namespace OData

/-- An expression in parentheses, as the call of a function without a name. -/
def Expr.group (e : Expr) : Expr := .call "" e []

namespace Filter

variable (r : Resolver) (version : Version) (collection : Option String)

/-- An operand as its parent has it: in parentheses, where its operator binds looser. -/
def bracketed (parentRank : Nat) (e phrase : Expr) : Expr :=
  match e.rank? with
  | some rank => if parentRank < rank then phrase.group else phrase
  | none => phrase

mutual

/-- An expression as its text has it. -/
def phrase : Expr → Expr
  | .reference path => .reference path
  | .literal v => .literal v
  | .call name target arguments => .call name (phrase target) (phraseAll arguments)
  | .binary op left right =>
    match range? op right, presenceTest? r version collection op left right with
    | some (low, high), _ =>
      let subject := bracketed BinaryOperator.ge.rank left (phrase left)
      .group (.binary .and (.binary .ge subject (.literal low)) (.binary .le subject (.literal high)))
    | none, .ok (some _) =>
      let present := Expr.group (.binary .ge left (.literal (.string "")))
      if op = .eq then .not present else present
    | none, _ =>
      .binary op (bracketed op.rank left (phrase left)) (bracketed op.rank right (phrase right))
  | .not operand => .not (bracketed negationRank operand (phrase operand))

def phraseAll : List Expr → List Expr
  | [] => []
  | e :: rest => phrase e :: phraseAll rest

end

mutual

/-- A text is one operand. -/
inductive SaysOperand : List Char → Expr → Prop
  | path {path : String} {p : ResolvedPath} (h : resolvePath r version collection path = .ok p) :
    SaysOperand p.chars (.reference path)
  | literal {v : Value} {cs : List Char} (h : Filter.literal version v = .ok cs) :
    SaysOperand cs (.literal v)
  | group {cs : List Char} {c : Chain} (h : Says cs c) :
    SaysOperand (parenthesized cs) (.group c.tree)
  | call {name : String} {form : FunctionForm} {cs : List Char} {c : Chain}
    {texts : List (List Char)} {arguments : List Expr}
    (hf : lookupFunction version name texts.length = some form) (ht : Says cs c)
    (ha : SaysAll texts arguments) :
    SaysOperand
      (form.name.toList ++ parenthesized (List.intercalate [','] (placed cs texts form.target)))
      (.call name c.tree arguments)
  | not {cs : List Char} {e : Expr} (h : SaysOperand cs e) :
    SaysOperand (negationKeyword.toList ++ ' ' :: cs) (.not e)
  | notGroup {cs : List Char} {c : Chain} (h : Says cs c) :
    SaysOperand (negationKeyword.toList ++ parenthesized cs) (.not (.group c.tree))

/-- A text is a chain of operands with operators between them. -/
inductive Says : List Char → Chain → Prop
  | single {cs : List Char} {e : Expr} (h : SaysOperand cs e) : Says cs (.single e)
  | join {cs cs' : List Char} {c c' : Chain} (h : Says cs c) (op : BinaryOperator)
    (h' : Says cs' c') : Says (joined cs op.keyword cs') (c.join op c')

/-- Each of some texts is a chain, that the ranks of the operators make an expression of. -/
inductive SaysAll : List (List Char) → List Expr → Prop
  | nil : SaysAll [] []
  | cons {cs : List Char} {c : Chain} {texts : List (List Char)} {es : List Expr} (h : Says cs c)
    (hs : SaysAll texts es) : SaysAll (cs :: texts) (c.tree :: es)

end

variable {r version collection}

/-- A text says an expression, and where that is no operation of two operands, as one operand. -/
structure SaysExpr (r : Resolver) (version : Version) (collection : Option String) (cs : List Char)
    (e : Expr) : Prop where
  chain : Says r version collection cs e.chain
  operand : (∀ op left right, e ≠ .binary op left right) →
    SaysOperand r version collection cs e.leftAssociated

namespace SaysExpr

variable {cs left right : List Char} {e l r' : Expr}

theorem of_operand (h : SaysOperand r version collection cs e.leftAssociated)
    (hc : e.chain = .single e.leftAssociated) : SaysExpr r version collection cs e :=
  ⟨hc ▸ .single h, fun _ ↦ h⟩

theorem literal {v : Value} (h : Filter.literal version v = .ok cs) :
    SaysExpr r version collection cs (.literal v) :=
  .of_operand (.literal h) rfl

theorem reference {path : String} {p : ResolvedPath}
    (h : resolvePath r version collection path = .ok p) :
    SaysExpr r version collection p.chars (.reference path) :=
  .of_operand (.path h) rfl

theorem group (h : SaysExpr r version collection cs e) :
    SaysExpr r version collection (parenthesized cs) e.group := by
  refine .of_operand ?_ rfl
  show SaysOperand r version collection _ (.group e.leftAssociated)
  rw [← Chain.tree_chain]
  exact .group h.chain

theorem notGroup (h : SaysExpr r version collection cs e) :
    SaysExpr r version collection (negationKeyword.toList ++ parenthesized cs) (.not e.group) := by
  refine .of_operand ?_ rfl
  show SaysOperand r version collection _ (.not (.group e.leftAssociated))
  rw [← Chain.tree_chain]
  exact .notGroup h.chain

theorem bracketed (h : SaysExpr r version collection cs e) (rank : Nat) (l : Expr) :
    SaysExpr r version collection (grouped rank l cs) (bracketed rank l e) := by
  rw [grouped, Filter.bracketed]
  cases l.rank? with
  | none => exact h
  | some rank' =>
    dsimp only
    split
    · exact h.group
    · exact h

theorem binary (hl : SaysExpr r version collection left l) (op : BinaryOperator)
    (hr : SaysExpr r version collection right r') (hlrank : ∀ rank ∈ l.rank?, rank ≤ op.rank)
    (hrrank : ∀ rank ∈ r'.rank?, rank ≤ op.rank) :
    SaysExpr r version collection (joined left op.keyword right) (.binary op l r') := by
  refine ⟨?_, fun hne ↦ absurd rfl (hne _ _ _)⟩
  rw [Expr.chain, Chain.chainBelow_of_le op.rank_le, chainBelow_eq_chain hlrank,
    chainBelow_eq_chain hrrank]
  exact .join hl.chain op hr.chain

end SaysExpr

/-- What is written for an operation binds as tight as the operation, or tighter. -/
theorem rank?_phrase (e : Expr) :
    ∀ rank ∈ (phrase r version collection e).rank?, ∃ rank' ∈ e.rank?, rank ≤ rank' := by
  cases e with
  | reference | literal | call => nofun
  | binary op left right =>
    rw [phrase]
    split
    · nofun
    · dsimp only
      split
      · rintro _ ⟨⟩
        exact ⟨op.rank, rfl, Nat.le_of_lt op.two_le_rank⟩
      · nofun
    · intro rank h
      exact ⟨rank, h, Nat.le_refl _⟩
  | not operand =>
    intro rank h
    exact ⟨rank, h, Nat.le_refl _⟩

/-- Under an operator nothing stands open that binds looser. -/
theorem rank?_bracketed (r : Resolver) (version : Version) (collection : Option String) (rank : Nat)
    (e : Expr) :
    ∀ rank' ∈ (bracketed rank e (phrase r version collection e)).rank?, rank' ≤ rank := by
  intro rank' h
  unfold bracketed at h
  split at h
  · rename_i own he
    split at h
    · contradiction
    · obtain ⟨bound, he', hle⟩ := rank?_phrase e rank' h
      obtain rfl := Option.some.inj (he.symm.trans he')
      omega
  · rename_i he
    obtain ⟨own, he', -⟩ := rank?_phrase e rank' h
    rw [he] at he'
    contradiction

theorem says_operation {op : BinaryOperator} {left right : Expr} {cs : List Char}
    (ihl : ∀ cs, chars r version collection left = .ok cs →
      SaysExpr r version collection cs (phrase r version collection left))
    (ihr : ∀ cs, chars r version collection right = .ok cs →
      SaysExpr r version collection cs (phrase r version collection right))
    (h : Operation r version collection op left right cs) :
    SaysExpr r version collection cs (phrase r version collection (.binary op left right)) := by
  cases h with
  | range he hlow hhigh =>
    have hsubject := (ihl _ he).bracketed BinaryOperator.ge.rank left
    have hrank := rank?_bracketed r version collection BinaryOperator.ge.rank left
    have hge := hsubject.binary .ge (.literal hlow) hrank nofun
    have hle := hsubject.binary .le (.literal hhigh) hrank nofun
    refine (hge.binary .and hle ?_ ?_).group
    · rintro _ ⟨⟩
      decide
    · rintro _ ⟨⟩
      decide
  | @presence _ path p _ hv hp hs ht =>
    subst hv
    have hpresent := (SaysExpr.reference hp).binary .ge (.literal (v := .string "") rfl) nofun nofun
    have hrange : range? op (.literal .null) = none := by cases op <;> rfl
    rw [phrase, hrange, presenceTest?_eq_some hp hs ht]
    dsimp only
    split
    · subst op
      obtain rfl := Option.some.inj (presence?_eq.symm.trans ht)
      exact hpresent.notGroup
    · rename_i heq
      by_cases hne : op = .ne
      · subst hne
        obtain rfl := Option.some.inj (presence?_ne.symm.trans ht)
        exact hpresent.group
      · rw [presence?_of_ne heq hne] at ht
        contradiction
  | joined hrange htest hl hr =>
    rw [phrase, hrange, htest]
    exact ((ihl _ hl).bracketed op.rank left).binary op ((ihr _ hr).bracketed op.rank right)
      (rank?_bracketed r version collection op.rank left)
      (rank?_bracketed r version collection op.rank right)

theorem SaysExpr.not {operand : Expr} {inner : List Char}
    (h : SaysExpr r version collection inner (phrase r version collection operand)) :
    SaysExpr r version collection
      (negationKeyword.toList ++
        if (operand.rank?.any fun rank ↦ negationRank < rank) then parenthesized inner
        else ' ' :: inner)
      (phrase r version collection (.not operand)) := by
  rw [phrase]
  by_cases hloose : operand.rank?.any fun rank ↦ negationRank < rank
  · obtain ⟨rank, hrank, hlt⟩ := (Option.any_eq_true _ _).1 hloose
    rw [if_pos hloose, Filter.bracketed, hrank]
    dsimp only
    rw [if_pos (of_decide_eq_true hlt)]
    exact h.notGroup
  · have hb : Filter.bracketed negationRank operand (phrase r version collection operand) =
        phrase r version collection operand := by
      unfold Filter.bracketed
      split
      · rename_i hrank
        refine if_neg fun hlt ↦ hloose ?_
        rw [hrank]
        exact decide_eq_true hlt
      · rfl
    rw [if_neg hloose]
    refine .of_operand ?_ rfl
    show SaysOperand r version collection _ (.not (Expr.leftAssociated _))
    refine .not ?_
    have hrank := rank?_bracketed r version collection negationRank operand
    rw [hb] at hrank ⊢
    refine h.operand fun op l r' hw ↦ ?_
    have := hrank op.rank (by rw [hw]; rfl)
    exact absurd (Nat.le_trans op.two_le_rank this) (by decide)

theorem says_all {es : List Expr} {texts : List (List Char)}
    (ih : ∀ e ∈ es, ∀ cs, chars r version collection e = .ok cs →
      SaysExpr r version collection cs (phrase r version collection e))
    (h : charsAll r version collection es = .ok texts) :
    SaysAll r version collection texts (Expr.leftAssociatedAll (phraseAll r version collection es)) ∧
      texts.length = es.length := by
  induction es generalizing texts with
  | nil =>
    obtain rfl := Except.ok.inj h
    exact ⟨.nil, rfl⟩
  | cons e es ih' =>
    obtain ⟨cs, hcs, h⟩ := Except.bind_eq_ok.1 h
    obtain ⟨others, ho, h⟩ := Except.bind_eq_ok.1 h
    obtain rfl := Except.ok.inj h
    obtain ⟨he, hes⟩ := List.forall_mem_cons.1 ih
    obtain ⟨hothers, hlength⟩ := ih' hes ho
    rw [phraseAll, Expr.leftAssociatedAll, ← Chain.tree_chain]
    exact ⟨.cons (he cs hcs).chain hothers, congrArg Nat.succ hlength⟩

theorem says_call {name : String} {target : Expr} {arguments : List Expr} {cs : List Char}
    (iht : ∀ cs, chars r version collection target = .ok cs →
      SaysExpr r version collection cs (phrase r version collection target))
    (iha : ∀ e ∈ arguments, ∀ cs, chars r version collection e = .ok cs →
      SaysExpr r version collection cs (phrase r version collection e))
    (h : chars r version collection (.call name target arguments) = .ok cs) :
    SaysExpr r version collection cs (phrase r version collection (.call name target arguments)) := by
  obtain ⟨form, text, texts, hform, htext, htexts, rfl⟩ := chars_call_eq_ok.1 h
  obtain ⟨ha, hlength⟩ := says_all iha htexts
  refine .of_operand ?_ rfl
  rw [phrase, Expr.leftAssociated, ← Chain.tree_chain]
  exact .call (hlength ▸ hform) (iht text htext).chain ha

/-- The text of an expression says its phrase. -/
theorem says_phrase (e : Expr) {cs : List Char} (h : chars r version collection e = .ok cs) :
    SaysExpr r version collection cs (phrase r version collection e) := by
  match e with
  | .reference path =>
    rw [chars_reference] at h
    obtain ⟨p, hp, rfl⟩ := Except.map_eq_ok.1 h
    exact .reference hp
  | .literal v => exact .literal h
  | .call name target arguments =>
    exact says_call (fun _ ↦ says_phrase target) (fun e _ _ ↦ says_phrase e) h
  | .binary op left right =>
    exact says_operation (fun _ ↦ says_phrase left) (fun _ ↦ says_phrase right) (operation_of_chars h)
  | .not operand =>
    obtain ⟨inner, hinner, rfl⟩ := chars_not_eq_ok.1 h
    exact (says_phrase operand hinner).not

end Filter
end OData
