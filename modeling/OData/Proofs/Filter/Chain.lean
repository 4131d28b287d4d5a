import OData.Expr.Basic

/-!
Chains of operands with operators between them, as they stand in the text of a filter, and the tree
that the ranks of the operators make of a chain. The chain of an expression gives back the expression
with its operators of equal rank associated to the left.
-/

namespace OData

/-- An operand, and behind it operators with an operand each. -/
structure Chain where
  first : Expr
  rest : List (BinaryOperator × Expr)

namespace Chain

def single (x : Expr) : Chain := ⟨x, []⟩

/-- Two chains with an operator between them. -/
def join (c : Chain) (op : BinaryOperator) (d : Chain) : Chain :=
  ⟨c.first, c.rest ++ (op, d.first) :: d.rest⟩

def bindFrom (rank : Nat) : Expr → List (BinaryOperator × Expr) → Chain
  | x, [] => single x
  | x, (op, y) :: rest =>
    if op.rank = rank then bindFrom rank (.binary op x y) rest
    else (single x).join op (bindFrom rank y rest)

/-- Puts the operators of one rank to their operands, from the left. -/
def bind (rank : Nat) (c : Chain) : Chain :=
  bindFrom rank c.first c.rest

/-- The ranks up to a bound are bound, the tightest first. -/
def bindUpTo : Nat → Chain → Chain
  | 0, c => c
  | rank + 1, c => bind (rank + 1) (bindUpTo rank c)

/-- The expression that a chain denotes. -/
def tree (c : Chain) : Expr :=
  (bindUpTo BinaryOperator.or.rank c).first

end Chain

namespace Expr

/-- `x op e`, where the operators of the same rank that `e` begins with come to stand to the left. -/
def graft (x : Expr) (op : BinaryOperator) : Expr → Expr
  | binary op' a b =>
    if op'.rank = op.rank then binary op' (graft x op a) b else binary op x (binary op' a b)
  | e => binary op x e

mutual

/-- The same operands in the same order, every run of operators of equal rank associated to the
left. -/
def leftAssociated : Expr → Expr
  | reference path => reference path
  | literal v => literal v
  | call name target arguments =>
    call name (leftAssociated target) (leftAssociatedAll arguments)
  | binary op left right => graft (leftAssociated left) op (leftAssociated right)
  | not operand => not (leftAssociated operand)

def leftAssociatedAll : List Expr → List Expr
  | [] => []
  | e :: rest => leftAssociated e :: leftAssociatedAll rest

end

/-- The chain that the text of an expression shows outside parentheses, below an operator of some
rank. What is looser than its parent is in parentheses, and is one operand. -/
def chainBelow : Nat → Expr → Chain
  | rank, binary op left right =>
    if rank < op.rank then .single (binary op left right).leftAssociated
    else (chainBelow op.rank left).join op (chainBelow op.rank right)
  | _, e => .single e.leftAssociated

/-- The chain of an expression that stands alone, with no operator in parentheses at its top. -/
def chain (e : Expr) : Chain :=
  chainBelow BinaryOperator.or.rank e

end Expr

namespace Chain

variable {rank : Nat} {op : BinaryOperator}

@[simp]
theorem first_single (x : Expr) : (single x).first = x := rfl

theorem bind_single (rank : Nat) (x : Expr) : bind rank (single x) = single x := rfl

theorem bindUpTo_single (rank : Nat) (x : Expr) : bindUpTo rank (single x) = single x := by
  induction rank with
  | zero => rfl
  | succ rank ih => rw [bindUpTo, ih, bind_single]

theorem join_assoc (c d e : Chain) (op op' : BinaryOperator) :
    (c.join op d).join op' e = c.join op (d.join op' e) := by
  simp [join]

/-- An operator of another rank keeps the chains on its two sides apart. -/
theorem bind_join_of_ne (h : op.rank ≠ rank) (c d : Chain) :
    bind rank (c.join op d) = (bind rank c).join op (bind rank d) := by
  obtain ⟨x, xs⟩ := c
  induction xs generalizing x with
  | nil => simp [bind, join, bindFrom, single, h]
  | cons p xs ih =>
    obtain ⟨op', y⟩ := p
    simp only [bind, join, List.cons_append, bindFrom] at ih ⊢
    by_cases h' : op'.rank = rank
    · rw [if_pos h', if_pos h', ih]
    · rw [if_neg h', if_neg h', ih]
      simp [single]

theorem bindUpTo_join (h : rank < op.rank) (c d : Chain) :
    bindUpTo rank (c.join op d) = (bindUpTo rank c).join op (bindUpTo rank d) := by
  induction rank with
  | zero => rfl
  | succ rank ih => rw [bindUpTo, ih (by omega), bind_join_of_ne (by omega)]; rfl

/-- An operator of the rank that is bound goes to all that stands before it. -/
theorem bind_join_of_eq (h : op.rank = rank) {c : Chain} {z : Expr} (hc : bind rank c = single z)
    (d : Chain) : bind rank (c.join op d) = bindFrom rank (.binary op z d.first) d.rest := by
  obtain ⟨x, xs⟩ := c
  induction xs generalizing x with
  | nil =>
    obtain rfl : x = z := congrArg first hc
    simp [bind, join, bindFrom, h]
  | cons p xs ih =>
    obtain ⟨op', y⟩ := p
    simp only [bind, join, List.cons_append, bindFrom] at ih hc ⊢
    by_cases h' : op'.rank = rank
    · rw [if_pos h'] at hc ⊢
      exact ih _ hc
    · rw [if_neg h'] at hc
      simp [single] at hc

/-- An operand grafted to what a chain begins with is grafted to what it denotes. -/
theorem bindFrom_graft (h : op.rank = rank) (x : Expr) {y t : Expr}
    {rest : List (BinaryOperator × Expr)} (ht : bindFrom rank y rest = single t) :
    bindFrom rank (x.graft op y) rest = single (x.graft op t) := by
  induction rest generalizing y with
  | nil =>
    obtain rfl : y = t := congrArg first ht
    rfl
  | cons p rest ih =>
    obtain ⟨op', z⟩ := p
    by_cases h' : op'.rank = rank
    · rw [bindFrom, if_pos h'] at ht ⊢
      have hg : x.graft op (.binary op' y z) = .binary op' (x.graft op y) z := by
        rw [Expr.graft, if_pos (h'.trans h.symm)]
      rw [← hg]
      exact ih ht
    · rw [bindFrom, if_neg h'] at ht
      simp [single, join] at ht

end Chain

namespace Expr

@[simp]
theorem rank?_binary (op : BinaryOperator) (l r : Expr) : (binary op l r).rank? = some op.rank := rfl

theorem graft_of_rank {op : BinaryOperator} {e : Expr} (h : e.rank? ≠ some op.rank) (x : Expr) :
    x.graft op e = binary op x e := by
  cases e with
  | binary op' a b =>
    have h' : op'.rank ≠ op.rank := fun h' ↦ h (congrArg some h')
    rw [graft, if_neg h']
  | reference | literal | call | not => rfl

theorem rank?_graft (x : Expr) (op : BinaryOperator) (e : Expr) :
    (x.graft op e).rank? = some op.rank := by
  cases e with
  | binary op' a b =>
    rw [graft]
    by_cases h : op'.rank = op.rank
    · rw [if_pos h, ← h]; rfl
    · rw [if_neg h]; rfl
  | reference | literal | call | not => rfl

@[simp]
theorem rank?_leftAssociated (e : Expr) : e.leftAssociated.rank? = e.rank? := by
  cases e with
  | binary op left right => rw [leftAssociated, rank?_graft]; rfl
  | reference | literal | call | not => rfl

end Expr

namespace BinaryOperator

theorem two_le_rank (op : BinaryOperator) : 2 ≤ op.rank := by
  cases op <;> decide

theorem rank_le (op : BinaryOperator) : op.rank ≤ BinaryOperator.or.rank := by
  cases op <;> decide

end BinaryOperator

namespace Chain

open OData.Expr

theorem chainBelow_of_lt {rank : Nat} {op : BinaryOperator} (h : rank < op.rank) (l r : Expr) :
    chainBelow rank (.binary op l r) = single (Expr.binary op l r).leftAssociated := by
  rw [chainBelow, if_pos h]

theorem chainBelow_of_le {rank : Nat} {op : BinaryOperator} (h : op.rank ≤ rank) (l r : Expr) :
    chainBelow rank (.binary op l r) = (chainBelow op.rank l).join op (chainBelow op.rank r) := by
  rw [chainBelow, if_neg (by omega)]

/-- What the operands of an operator must satisfy for their chains to be put together below it: the
chain of each denotes it, and when all tighter operators are bound, no operator of the same rank has
got inside the first operand. -/
structure Bound (e : Expr) : Prop where
  tree (rank : Nat) : bindUpTo rank (chainBelow rank e) = single e.leftAssociated
  first (rank : Nat) (h : 1 ≤ rank) :
    (bindUpTo rank (chainBelow (rank + 1) e)).first.rank? ≠ some (rank + 1)

theorem bound_of_rank (e : Expr) (hc : ∀ rank, chainBelow rank e = single e.leftAssociated)
    (hr : ∀ rank, 2 ≤ rank → e.rank? ≠ some rank) : Bound e where
  tree rank := by rw [hc, bindUpTo_single]
  first rank h := by
    rw [hc, bindUpTo_single]
    simpa using hr (rank + 1) (by omega)

theorem bindUpTo_of_le {c : Chain} {x : Expr} {rank rank' : Nat} (h : rank ≤ rank')
    (hc : bindUpTo rank c = single x) : bindUpTo rank' c = single x := by
  induction h with
  | refl => exact hc
  | step h ih => rw [bindUpTo, ih, bind_single]

/-- The operator of a node is bound last of its chain, and takes the operators of equal rank on its
right one by one. -/
theorem bindUpTo_rank {op : BinaryOperator} {l r : Expr} (hl : Bound l) (hr : Bound r) :
    bindUpTo op.rank (chainBelow op.rank (.binary op l r)) =
      single (Expr.binary op l r).leftAssociated := by
  have h2 := op.two_le_rank
  obtain ⟨rank, hrank⟩ : ∃ rank, op.rank = rank + 1 := ⟨op.rank - 1, by omega⟩
  have hleft := hl.tree op.rank
  have hright := hr.tree op.rank
  have hfirst := hr.first rank (by omega)
  rw [hrank] at hleft hright
  rw [chainBelow_of_le (Nat.le_refl _), hrank]
  rw [bindUpTo, bindUpTo_join (by omega)]
  rw [bindUpTo] at hleft hright
  rw [bind_join_of_eq hrank hleft, leftAssociated,
    ← bindFrom_graft hrank l.leftAssociated hright, graft_of_rank (by rwa [hrank])]

theorem bound (e : Expr) : Bound e := by
  match e with
  | .binary op l r =>
    have hl := bound l
    have hr := bound r
    have htree (rank : Nat) : bindUpTo rank (chainBelow rank (.binary op l r)) =
        single (Expr.binary op l r).leftAssociated := by
      by_cases h : rank < op.rank
      · rw [chainBelow_of_lt h, bindUpTo_single]
      · have hc : chainBelow rank (.binary op l r) = chainBelow op.rank (.binary op l r) := by
          rw [chainBelow_of_le (by omega), chainBelow_of_le (Nat.le_refl _)]
        rw [hc]
        exact bindUpTo_of_le (by omega) (bindUpTo_rank hl hr)
    refine ⟨htree, fun rank h ↦ ?_⟩
    rcases Nat.lt_trichotomy op.rank (rank + 1) with hlt | heq | hgt
    · have hc : chainBelow (rank + 1) (.binary op l r) = chainBelow rank (.binary op l r) := by
        rw [chainBelow_of_le (by omega), chainBelow_of_le (by omega)]
      rw [hc, htree]
      simp only [first_single, rank?_leftAssociated, rank?_binary, ne_eq, Option.some.injEq]
      omega
    · rw [chainBelow_of_le (Nat.le_of_eq heq), bindUpTo_join (by omega), heq]
      exact hl.first rank h
    · rw [chainBelow_of_lt hgt, bindUpTo_single]
      simp only [first_single, rank?_leftAssociated, rank?_binary, ne_eq, Option.some.injEq]
      omega
  | .not operand =>
    refine bound_of_rank _ (fun _ ↦ rfl) (fun rank h ↦ ?_)
    simp only [rank?, negationRank, ne_eq, Option.some.injEq]
    omega
  | .reference _ | .literal _ | .call _ _ _ => exact bound_of_rank _ (fun _ ↦ rfl) (by simp [rank?])

/-- Reading the chain of an expression by the ranks gives the expression back, its runs of equal rank
associated to the left. -/
theorem tree_chain (e : Expr) : e.chain.tree = e.leftAssociated :=
  congrArg first ((bound e).tree _)

end Chain
end OData
