import OData.Proofs.Filter.RoundTrip

/-!
What filters mean. An expression of numbers and conditions has a value once its references have one, and
its text is read as an expression of the same value, unless a sum or a difference is subtracted: operators
of equal rank get no parentheses, and those of the reader are associated to the left.
-/

namespace OData

/-- What an expression can stand for. -/
inductive Kind
  | number
  | truth
  deriving DecidableEq, Repr

inductive Datum
  | number (n : Int)
  | truth (b : Bool)
  deriving DecidableEq, Repr

def Datum.kind : Datum → Kind
  | number _ => .number
  | truth _ => .truth

namespace BinaryOperator

/-- The result of an operator, where its operands are of the right kind. -/
def result? : BinaryOperator → Datum → Datum → Option Datum
  | add, .number m, .number n => some (.number (m + n))
  | sub, .number m, .number n => some (.number (m - n))
  | mul, .number m, .number n => some (.number (m * n))
  | eq, .number m, .number n => some (.truth (m = n))
  | ne, .number m, .number n => some (.truth (m ≠ n))
  | lt, .number m, .number n => some (.truth (m < n))
  | gt, .number m, .number n => some (.truth (n < m))
  | le, .number m, .number n => some (.truth (m ≤ n))
  | ge, .number m, .number n => some (.truth (n ≤ m))
  | and, .truth a, .truth b => some (.truth (a && b))
  | or, .truth a, .truth b => some (.truth (a || b))
  | _, _, _ => none

def combine? (op : BinaryOperator) (x y : Option Datum) : Option Datum :=
  x.bind fun x ↦ y.bind (op.result? x)

/-- The kind of the operands and the kind of the result, where an operator has one. -/
def kinds? : BinaryOperator → Option (Kind × Kind)
  | add | sub | mul => some (.number, .number)
  | eq | ne | lt | gt | le | ge => some (.number, .truth)
  | and | or => some (.truth, .truth)
  | div | mod => none

theorem exists_result? {op : BinaryOperator} {kind result : Kind} (h : op.kinds? = some (kind, result))
    {x y : Datum} (hx : x.kind = kind) (hy : y.kind = kind) :
    ∃ d, op.result? x y = some d ∧ d.kind = result := by
  cases op <;> cases h <;> cases x <;> cases hx <;> cases y <;> cases hy <;> exact ⟨_, rfl, rfl⟩

/-- Operators of equal rank may be associated either way, unless the first one is subtraction. -/
theorem combine?_assoc {op op' : BinaryOperator} (h : op'.rank = op.rank) (hs : op ≠ sub)
    (x a b : Option Datum) :
    op'.combine? (op.combine? x a) b = op.combine? x (op'.combine? a b) := by
  match x, a, b with
  | none, _, _ | some _, none, _ => rfl
  | some x, some a, none => cases hx : op.result? x a <;> simp [combine?, hx]
  | some x, some a, some b =>
    -- Of the operators of one rank, only these have values on both sides: sums and differences,
    -- products, conjunctions, disjunctions.
    cases op <;> cases op' <;> first | contradiction | skip
    all_goals cases x <;> cases a <;> cases b <;> first | rfl | skip
    · exact congrArg (some ∘ Datum.number) (Int.add_assoc ..)
    · exact congrArg (some ∘ Datum.number) (Int.add_sub_assoc ..)
    · exact congrArg (some ∘ Datum.number) (Int.mul_assoc ..)
    · exact congrArg (some ∘ Datum.truth) (Bool.and_assoc ..)
    · exact congrArg (some ∘ Datum.truth) (Bool.or_assoc ..)

end BinaryOperator
namespace Expr

/-- The value of an expression, with an integer for every reference and every call. -/
def datum? (value : Expr → Int) : Expr → Option Datum
  | literal (.int32 n) => some (.number n.toInt)
  | literal (.int64 n) => some (.number n.toInt)
  | literal _ => none
  | binary op left right => op.combine? (datum? value left) (datum? value right)
  | not operand =>
    match datum? value operand with
    | some (.truth b) => some (.truth !b)
    | _ => none
  | e => some (.number (value e))

/-- No sum and no difference is subtracted. -/
def SubtractsTerms : Expr → Prop
  | binary op left right =>
    left.SubtractsTerms ∧ right.SubtractsTerms ∧
      (op = .sub → right.rank? ≠ some op.rank)
  | not operand => operand.SubtractsTerms
  | _ => True

theorem datum?_graft_of_ne (value : Expr → Int) (x : Expr) {op : BinaryOperator} (h : op ≠ .sub)
    (e : Expr) : (x.graft op e).datum? value = op.combine? (x.datum? value) (e.datum? value) := by
  match e with
  | binary op' a b =>
    rw [graft]
    split
    · rename_i hrank
      rw [datum?, datum?_graft_of_ne value x h a, BinaryOperator.combine?_assoc hrank h]
      rfl
    · rfl
  | reference _ | literal _ | call _ _ _ | not _ => rfl

theorem datum?_graft (value : Expr → Int) (x : Expr) {op : BinaryOperator} {e : Expr}
    (h : op = .sub → e.rank? ≠ some op.rank) :
    (x.graft op e).datum? value = op.combine? (x.datum? value) (e.datum? value) := by
  by_cases hs : op = .sub
  · rw [graft_of_rank (h hs)]
    rfl
  · exact datum?_graft_of_ne value x hs e

end Expr

namespace Filter

open OData.Expr

variable (r : Resolver) (version : Version) (collection : Option String)

/-- The texts of references to properties: identifiers with slashes between them, and functions of
such a path. -/
inductive IsProperty : List Char → Expr → Prop
  | path {segments : List (List Char)} (hne : segments ≠ []) (h : ∀ s ∈ segments, IsName s) :
    IsProperty (List.intercalate ['/'] segments)
      (.reference (String.ofList (List.intercalate ['/'] segments)))
  | function {entry : FunctionEntry} {form : FunctionForm} {cs : List Char} {e : Expr}
    (he : entry ∈ FunctionEntry.table) (hf : entry.form? version = some form)
    (ha : entry.arity = 0) (h : IsProperty cs e) :
    IsProperty (form.name.toList ++ parenthesized cs) (.call entry.name e [])

/-- Expressions with a value: integer literals and references, sums, differences and products of
numbers, comparisons between numbers, and what conjunction, disjunction and negation make of these. -/
inductive HasKind : Kind → Expr → Prop
  | reference {path : String} {p : ResolvedPath} {e : Expr}
    (h : resolvePath r version collection path = .ok p) (he : IsProperty version p.chars e) :
    HasKind .number (.reference path)
  | int32 (n : Int32) : HasKind .number (.literal (.int32 n))
  | int64 (n : Int64) : HasKind .number (.literal (.int64 n))
  | binary {op : BinaryOperator} {kind result : Kind} {left right : Expr}
    (h : op.kinds? = some (kind, result)) (hl : HasKind kind left) (hr : HasKind kind right) :
    HasKind result (.binary op left right)
  | not {operand : Expr} (h : HasKind .truth operand) : HasKind .truth (.not operand)

/-- What a reference stands for: the expression that its exact text is read as. -/
def exactReference (path : String) : Expr :=
  match resolvePath r version collection path with
  | .ok p => (parse version (String.ofList p.chars)).getD (.reference path)
  | .error _ => .reference path

/-- An expression with its references as the text has them, and integers of the types that their
literals tell apart. -/
def exact : Expr → Expr
  | .reference path => exactReference r version collection path
  | .literal v => .literal (writtenValue version v)
  | .call name target arguments => .call name target arguments
  | .binary op left right => .binary op (exact left) (exact right)
  | .not operand => .not (exact operand)

variable {r version collection}

theorem IsProperty.readsOperand {cs : List Char} {e : Expr} (h : IsProperty version cs e) :
    ReadsOperand version cs e := by
  induction h with
  | path hne hs => exact .of_spells (spells_path hne hs)
  | @function entry form cs e he hf ha h ih =>
    have hcall := readsOperand_call he hf ⟨_, ih.chain, rfl⟩ .nil (ha.trans List.length_nil.symm)
    have hplaced : List.intercalate [','] (placed cs [] form.target) = cs := by
      cases form.target <;> exact List.intercalate_singleton
    rwa [hplaced] at hcall

/-- A reference is no operation, so it stands unchanged and without parentheses. -/
theorem IsProperty.atom {cs : List Char} {e : Expr} (h : IsProperty version cs e) :
    e.leftAssociated = e ∧ e.rank? = none ∧ ∀ value, e.datum? value = some (.number (value e)) := by
  induction h with
  | path hne hs => exact ⟨rfl, rfl, fun _ ↦ rfl⟩
  | function he hf ha h ih =>
    refine ⟨?_, rfl, fun _ ↦ rfl⟩
    rw [leftAssociated, ih.1]
    rfl

theorem IsProperty.readsBack {cs : List Char} {e : Expr} (h : IsProperty version cs e) :
    ReadsBack version cs e := by
  have hoperand : ReadsOperand version cs e.leftAssociated := by
    rw [h.atom.1]
    exact h.readsOperand
  refine .of_operand hoperand ?_
  cases h <;> rfl

theorem exact_reference {path : String} {p : ResolvedPath} {e : Expr}
    (hp : resolvePath r version collection path = .ok p) (he : IsProperty version p.chars e) :
    exact r version collection (.reference path) = e := by
  rw [exact, exactReference, hp]
  dsimp only
  rw [he.readsBack.parse, he.atom.1, Option.getD_some]

theorem datum?_ofInteger (value : Expr → Int) (n : Int64) :
    (Expr.literal (Value.ofInteger n.toInt)).datum? value = some (.number n.toInt) := by
  rw [Value.ofInteger]
  split
  · rename_i h
    have hmax : Int32.maxValue.toInt = 2 ^ 31 - 1 := by decide
    rw [datum?, Int32.toInt_ofInt_of_le h.1 (by omega)]
  · rw [if_pos ⟨n.minValue_le_toInt, n.toInt_le⟩, datum?, Int64.ofInt_toInt]

theorem HasKind.exists_datum? {kind : Kind} {e : Expr} (he : HasKind r version collection kind e)
    (value : Expr → Int) : ∃ d, e.datum? value = some d ∧ d.kind = kind := by
  induction he with
  | reference | int32 | int64 => exact ⟨_, rfl, rfl⟩
  | binary h hl hr ihl ihr =>
    obtain ⟨x, hx, hxk⟩ := ihl
    obtain ⟨y, hy, hyk⟩ := ihr
    rw [Expr.datum?, hx, hy]
    exact BinaryOperator.exists_result? h hxk hyk
  | not h ih =>
    obtain ⟨d, hd, hk⟩ := ih
    cases d with
    | truth b => exact ⟨.truth !b, by rw [Expr.datum?, hd], rfl⟩
    | number => contradiction

theorem HasKind.rank?_exact {kind : Kind} {e : Expr} (he : HasKind r version collection kind e) :
    (exact r version collection e).rank? = e.rank? := by
  cases he with
  | reference h hp => exact (congrArg Expr.rank? (exact_reference h hp)).trans hp.atom.2.1
  | int32 | int64 | binary | not => rfl

/-- Among expressions with a value there is no range and no null, so an operation is always written
with its own keyword. -/
theorem HasKind.chars_binary {kind : Kind} {left right : Expr} {ltext rtext : List Char}
    (hr : HasKind r version collection kind right)
    (hltext : chars r version collection left = .ok ltext)
    (hrtext : chars r version collection right = .ok rtext) (op : BinaryOperator) :
    chars r version collection (.binary op left right) =
      .ok (joined (grouped op.rank left ltext) op.keyword (grouped op.rank right rtext)) := by
  have hrange : range? op right = none := by
    cases hr <;> cases op <;> rfl
  have htest : presenceTest? r version collection op left right = .ok none := by
    cases hr <;> cases version <;> cases left <;> rfl
  rw [Filter.chars_binary hrange htest, hltext, hrtext]
  rfl

theorem HasKind.readsBack {kind : Kind} {e : Expr} (he : HasKind r version collection kind e) :
    ∃ cs, chars r version collection e = .ok cs ∧
      ReadsBack version cs (exact r version collection e) := by
  induction he with
  | reference h hp =>
    refine ⟨_, by rw [chars_reference, h]; rfl, ?_⟩
    rw [exact_reference h hp]
    exact hp.readsBack
  | int32 | int64 =>
    refine ⟨_, rfl, .of_operand (.of_spells (spells_literal ?_ rfl)) rfl⟩
    rfl
  | @binary op _ _ _ _ h hl hr ihl ihr =>
    obtain ⟨ltext, hltext, hleft⟩ := ihl
    obtain ⟨rtext, hrtext, hright⟩ := ihr
    exact ⟨_, hr.chars_binary hltext hrtext op, hleft.binary hright hl.rank?_exact hr.rank?_exact op⟩
  | not h ih =>
    obtain ⟨inner, hinner, hread⟩ := ih
    exact ⟨_, chars_not_eq_ok.2 ⟨inner, hinner, rfl⟩, hread.not h.rank?_exact⟩

theorem HasKind.datum?_leftAssociated {kind : Kind} {e : Expr}
    (he : HasKind r version collection kind e) (hs : e.SubtractsTerms) (value : Expr → Int) :
    (exact r version collection e).leftAssociated.datum? value =
      e.datum? fun x ↦ value (exact r version collection x) := by
  induction he with
  | reference h hp =>
    have hx := exact_reference h hp
    rw [hx, hp.atom.1, hp.atom.2.2, ← hx]
    rfl
  | int32 n => cases version <;> rfl
  | int64 n =>
    cases version with
    | v3 => rfl
    | v4 => exact datum?_ofInteger value n
  | @binary op _ _ left right h hl hr ihl ihr =>
    obtain ⟨hsl, hsr, hsub⟩ := hs
    rw [exact, Expr.leftAssociated, Expr.datum?_graft, ihl hsl, ihr hsr, Expr.datum?]
    rw [Expr.rank?_leftAssociated, hr.rank?_exact]
    exact hsub
  | not h ih => rw [exact, Expr.leftAssociated, Expr.datum?, ih hs, Expr.datum?]

/-- The text of an expression with a value is read as the same operations in the same order, with
those of equal rank associated to the left. The value is the same wherever nothing but terms is
subtracted. -/
theorem datum?_of_text {kind : Kind} {e : Expr} (he : HasKind r version collection kind e) :
    ∃ s, text r version collection e = .ok s ∧
      parse version s = some (exact r version collection e).leftAssociated ∧
      ∀ value : Expr → Int,
        (∃ d, e.datum? (fun x ↦ value (exact r version collection x)) = some d ∧ d.kind = kind) ∧
        (e.SubtractsTerms →
          (exact r version collection e).leftAssociated.datum? value =
            e.datum? fun x ↦ value (exact r version collection x)) := by
  obtain ⟨cs, hcs, hread⟩ := he.readsBack
  refine ⟨String.ofList cs, by rw [text, hcs]; rfl, hread.parse, fun value ↦ ⟨?_, ?_⟩⟩
  · exact he.exists_datum? _
  · exact fun hs ↦ he.datum?_leftAssociated hs value

/-- Whether the year of a price is below a difference, or a number is a sum. -/
def prices : Expr :=
  .not (.binary .or
    (.binary .lt (.reference "price.Year")
      (.binary .sub (.reference "Price") (.binary .mul (.literal (.int32 2)) (.literal (.int64 7)))))
    (.binary .eq (.literal (.int64 3))
      (.binary .add (.reference "price")
        (.binary .sub (.literal (.int32 1)) (.reference "Price")))))

theorem datum?_of_text_prices :
    HasKind products .v3 (some "Products") .truth prices ∧ prices.SubtractsTerms ∧
      text products .v3 (some "Products") prices =
        .ok "not(year(Price) lt Price sub 2 mul 7L or 3L eq Price add 1 sub Price)" ∧
      parse .v3 "not(year(Price) lt Price sub 2 mul 7L or 3L eq Price add 1 sub Price)" =
        some (exact products .v3 (some "Products") prices).leftAssociated ∧
      ∀ value, (exact products .v3 (some "Products") prices).leftAssociated.datum? value =
        prices.datum? fun x ↦ value (exact products .v3 (some "Products") x) := by
  have hname : IsProperty .v3 "Price".toList (.reference "Price") :=
    @IsProperty.path .v3 ["Price".toList] (by decide) (by decide)
  have hprice (path : String)
      (h : resolvePath products .v3 (some "Products") path =
        .ok ⟨some "Products", ["Price".toList], some ("Products", "Price"), false⟩) :
      HasKind products .v3 (some "Products") .number (.reference path) :=
    .reference h hname
  have hyear : IsProperty .v3 ("year".toList ++ parenthesized "Price".toList)
      (.call "Year" (.reference "Price") []) :=
    @IsProperty.function .v3 (.shared "Year" 0 "year" .only) _ _ _ (by decide) rfl rfl hname
  have hkind : HasKind products .v3 (some "Products") .truth prices := by
    refine .not (.binary rfl (.binary rfl ?_ ?_) (.binary rfl (.int64 3) ?_))
    · exact .reference (by decide : resolvePath products .v3 (some "Products") "price.Year" =
        .ok ⟨some "Products", ["year(Price)".toList], some ("Products", "Price"), true⟩) hyear
    · exact .binary rfl (hprice "Price" (by decide)) (.binary rfl (.int32 2) (.int64 7))
    · exact .binary rfl (hprice "price" (by decide))
        (.binary rfl (.int32 1) (hprice "Price" (by decide)))
  have hterms : prices.SubtractsTerms := by
    simp [prices, Expr.SubtractsTerms, Expr.rank?, BinaryOperator.rank]
  obtain ⟨s, hs, hparse, hvalue⟩ := datum?_of_text hkind
  obtain rfl : "not(year(Price) lt Price sub 2 mul 7L or 3L eq Price add 1 sub Price)" = s :=
    Except.ok.inj (Eq.trans (by decide) hs)
  exact ⟨hkind, hterms, hs, hparse, fun value ↦ (hvalue value).2 hterms⟩

/-- A difference that is subtracted. -/
def difference : Expr :=
  .binary .sub (.literal (.int32 10)) (.binary .sub (.literal (.int32 5)) (.literal (.int32 2)))

/-- No parentheses keep a difference together, and nothing tells a property from a word that is read
as a literal. -/
theorem not_datum?_of_text :
    (HasKind products .v4 none .number difference ∧
      text products .v4 none difference = .ok "10 sub 5 sub 2" ∧
      ∃ e, parse .v4 "10 sub 5 sub 2" = some e ∧ ∀ value,
        e.datum? value = some (.number 3) ∧ difference.datum? value = some (.number 7)) ∧
    (text products .v4 none (.reference "null") = .ok "null" ∧
      ∃ e, parse .v4 "null" = some e ∧ ∀ value,
        e.datum? value = none ∧
        (Expr.reference "null").datum? value = some (.number (value (.reference "null")))) := by
  have hkind : HasKind products .v4 none .number difference :=
    .binary rfl (.int32 10) (.binary rfl (.int32 5) (.int32 2))
  obtain ⟨cs, hcs, hread⟩ := hkind.readsBack
  obtain rfl : "10 sub 5 sub 2".toList = cs := Except.ok.inj (Eq.trans (by decide) hcs)
  have hspells : Spells .v4 "null".toList (.operand (.literal .null)) :=
    spells_literal (by rfl : isPlain .null) rfl
  have hnull : ReadsBack .v4 "null".toList (.literal .null) := .of_operand (.of_spells hspells) rfl
  exact ⟨⟨hkind, by decide, _, hread.parse, fun value ↦ ⟨rfl, rfl⟩⟩,
    by decide, _, hnull.parse, fun value ↦ ⟨rfl, rfl⟩⟩

end Filter
end OData
