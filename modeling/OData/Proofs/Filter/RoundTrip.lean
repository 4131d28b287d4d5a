import OData.Proofs.Filter.Operation
import OData.Proofs.Filter.Reading
import OData.Schema.Basic

/-!
Filters are read back as they were built: the text of an expression denotes the same expression, with
its runs of operators of equal rank associated to the left.
-/

namespace OData.Filter

variable (r : Resolver) (version : Version) (collection : Option String)

/-- The name under which the table has a function. -/
def tableName (name : String) (arity : Nat) : String :=
  ((FunctionEntry.table.find? fun e ↦
    e.arity = arity && Text.sameIgnoringCase e.name name).map FunctionEntry.name).getD name

mutual

/-- An expression with its leaves as the text has them: the exact paths of references, the names that
the table has for functions, and integers of the types that their literals tell apart. -/
def written : Expr → Expr
  | .reference path =>
    match resolvePath r version collection path with
    | .ok p => .reference (String.ofList p.chars)
    | .error _ => .reference path
  | .literal v => .literal (writtenValue version v)
  | .call name target arguments =>
    .call (tableName name arguments.length) (written target) (writtenAll arguments)
  | .binary op left right => .binary op (written left) (written right)
  | .not operand => .not (written operand)

def writtenAll : List Expr → List Expr
  | [] => []
  | e :: rest => written e :: writtenAll rest

end

/-- Whether a path ends on a string property, with no function around it. -/
def IsStringProperty (path : String) : Prop :=
  ∃ p owner name, resolvePath r version collection path = .ok p ∧ p.field = some (owner, name) ∧
    p.wrapped = false ∧ r.isStringField owner name

/-- The comparisons that the older dialect writes as a test for presence. -/
inductive IsNullCheck : BinaryOperator → Expr → Expr → Prop
  | eq {path : String} (hv : version = .v3) (h : IsStringProperty r version collection path) :
    IsNullCheck .eq (.reference path) (.literal .null)
  | ne {path : String} (hv : version = .v3) (h : IsStringProperty r version collection path) :
    IsNullCheck .ne (.reference path) (.literal .null)

/-- Expressions whose text says all that they do: references to properties by plain names, plain
literals, calls and operations, but no range and no null check. -/
inductive Readable : Expr → Prop
  | reference {path : String} {p : ResolvedPath} (h : resolvePath r version collection path = .ok p)
    (hne : p.segments ≠ []) (hs : ∀ s ∈ p.segments, IsName s) : Readable (.reference path)
  | literal {v : Value} (h : isPlain v) : Readable (.literal v)
  | call {name : String} {target : Expr} {arguments : List Expr} (ht : Readable target)
    (ha : ∀ e ∈ arguments, Readable e) : Readable (.call name target arguments)
  | binary {op : BinaryOperator} {left right : Expr} (hl : Readable left) (hr : Readable right)
    (hn : ¬ IsNullCheck r version collection op left right) : Readable (.binary op left right)
  | not {operand : Expr} (h : Readable operand) : Readable (.not operand)

@[simp]
theorem rank?_written (e : Expr) : (written r version collection e).rank? = e.rank? := by
  cases e with
  | reference path =>
    rw [written]
    split <;> rfl
  | literal | call | binary | not => rfl

variable {r version collection}

theorem length_writtenAll (es : List Expr) :
    (writtenAll r version collection es).length = es.length := by
  induction es with
  | nil => rfl
  | cons e es ih => simp [writtenAll, ih]

theorem length_leftAssociatedAll (es : List Expr) :
    (Expr.leftAssociatedAll es).length = es.length := by
  induction es with
  | nil => rfl
  | cons e es ih => simp [Expr.leftAssociatedAll, ih]

theorem isStringProperty_iff {path : String} : IsStringProperty r version collection path ↔
    ∃ p, resolvePath r version collection path = .ok p ∧ isStringPath r p = true := by
  constructor
  · rintro ⟨p, owner, name, hp, hf, hw, hs⟩
    exact ⟨p, hp, by simp [isStringPath, hf, hw, hs]⟩
  · rintro ⟨p, hp, hs⟩
    unfold isStringPath at hs
    split at hs
    · rename_i owner name hf
      rw [Bool.and_eq_true, Bool.not_eq_true'] at hs
      exact ⟨p, owner, name, hp, hf, hs⟩
    · contradiction

/-- Only null checks are written as a test for presence. -/
theorem isNullCheck_of_presence? {op : BinaryOperator} {path : String} {p : ResolvedPath}
    {test : List Char} (hp : resolvePath r .v3 collection path = .ok p)
    (hs : isStringPath r p = true) (ht : presence? p.chars op = some test) :
    IsNullCheck r .v3 collection op (.reference path) (.literal .null) := by
  have hproperty := isStringProperty_iff.2 ⟨p, hp, hs⟩
  rcases eq_or_ne_of_presence? ht with rfl | rfl
  · exact .eq rfl hproperty
  · exact .ne rfl hproperty

theorem exists_entry_of_lookupFunction {name : String} {arity : Nat} {form : FunctionForm}
    (h : lookupFunction version name arity = some form) :
    ∃ entry ∈ FunctionEntry.table, entry.form? version = some form ∧ entry.arity = arity ∧
      entry.name = tableName name arity := by
  obtain ⟨entry, he, hf⟩ := Option.bind_eq_some_iff.1 h
  have hp := List.find?_some he
  rw [Bool.and_eq_true, decide_eq_true_eq] at hp
  refine ⟨entry, List.mem_of_find?_eq_some he, hf, hp.1, ?_⟩
  rw [tableName, he]
  rfl

/-- A text is read as an expression: as its chain, and as one operand if it is no binary operation. -/
structure ReadsBack (version : Version) (cs : List Char) (e : Expr) : Prop where
  chain : ReadsChain version cs e.chain
  operand : (∀ op left right, e ≠ .binary op left right) → ReadsOperand version cs e.leftAssociated

theorem ReadsBack.of_operand {cs : List Char} {e : Expr}
    (h : ReadsOperand version cs e.leftAssociated) (hc : e.chain = .single e.leftAssociated) :
    ReadsBack version cs e :=
  ⟨hc ▸ h.chain, fun _ ↦ h⟩

theorem ReadsBack.whole {cs : List Char} {e : Expr} (h : ReadsBack version cs e) :
    ReadsWhole version cs e.leftAssociated :=
  ⟨e.chain, h.chain, Chain.tree_chain e⟩

theorem chainBelow_eq_chain {rank : Nat} {e : Expr} (h : ∀ rank' ∈ e.rank?, rank' ≤ rank) :
    e.chainBelow rank = e.chain := by
  cases e with
  | binary op left right =>
    rw [Chain.chainBelow_of_le (h op.rank rfl), Expr.chain, Chain.chainBelow_of_le op.rank_le]
  | reference | literal | call | not => rfl

theorem chainBelow_of_looser {rank rank' : Nat} {e : Expr} (he : e.rank? = some rank')
    (h : rank < rank') : e.chainBelow rank = .single e.leftAssociated := by
  cases e with
  | binary op left right =>
    obtain rfl := Option.some.inj he
    exact Chain.chainBelow_of_lt h left right
  | reference | literal | call | not => rfl

/-- Under an operator the text of an operand is read as the chain that the operand has there. Only the
rank of what is written counts for the parentheses. -/
theorem ReadsBack.grouped {cs : List Char} {e e' : Expr} (h : ReadsBack version cs e')
    (hrank : e'.rank? = e.rank?) (op : BinaryOperator) :
    ReadsChain version (grouped op.rank e cs) (e'.chainBelow op.rank) := by
  rw [Filter.grouped]
  cases he : e.rank? with
  | none =>
    rw [chainBelow_eq_chain (by simp [hrank, he])]
    exact h.chain
  | some rank =>
    rw [he] at hrank
    dsimp only
    by_cases hlt : op.rank < rank
    · rw [if_pos hlt, chainBelow_of_looser hrank hlt, ← Chain.tree_chain]
      exact h.chain.parenthesized.chain
    · rw [if_neg hlt, chainBelow_eq_chain (by simp [hrank]; omega)]
      exact h.chain

theorem ReadsBack.binary {left right : List Char} {l l' r r' : Expr}
    (hl : ReadsBack version left l') (hr : ReadsBack version right r') (hlrank : l'.rank? = l.rank?)
    (hrrank : r'.rank? = r.rank?) (op : BinaryOperator) :
    ReadsBack version
      (joined (Filter.grouped op.rank l left) op.keyword (Filter.grouped op.rank r right))
      (.binary op l' r') := by
  refine ⟨?_, fun hne ↦ absurd rfl (hne _ _ _)⟩
  rw [Expr.chain, Chain.chainBelow_of_le op.rank_le]
  exact (hl.grouped hlrank op).join (hr.grouped hrrank op) op

theorem ReadsBack.not {inner : List Char} {e e' : Expr} (h : ReadsBack version inner e')
    (hrank : e'.rank? = e.rank?) :
    ReadsBack version
      (negationKeyword.toList ++
        if (e.rank?.any fun rank ↦ negationRank < rank) then parenthesized inner else ' ' :: inner)
      (.not e') := by
  refine .of_operand ?_ rfl
  by_cases hloose : e.rank?.any (negationRank < ·)
  · rw [if_pos hloose, Expr.leftAssociated, ← Chain.tree_chain]
    exact h.chain.not
  · rw [if_neg hloose]
    refine (h.operand fun op left right hw ↦ hloose ?_).not
    rw [← hrank, hw, Expr.rank?_binary, Option.any_some, decide_eq_true_eq]
    exact op.two_le_rank

theorem forall₂_readsWhole {arguments : List Expr} {texts : List (List Char)}
    (ih : ∀ e ∈ arguments, ∀ cs, chars r version collection e = .ok cs →
      ReadsBack version cs (written r version collection e))
    (h : charsAll r version collection arguments = .ok texts) :
    List.Forall₂ (ReadsWhole version) texts
      (Expr.leftAssociatedAll (writtenAll r version collection arguments)) := by
  induction arguments generalizing texts with
  | nil =>
    obtain rfl := Except.ok.inj h
    exact .nil
  | cons e arguments ih' =>
    obtain ⟨cs, hcs, h⟩ := Except.bind_eq_ok.1 h
    obtain ⟨others, ho, h⟩ := Except.bind_eq_ok.1 h
    obtain rfl := Except.ok.inj h
    exact .cons (ih e (by simp) cs hcs).whole
      (ih' (fun e' he' ↦ ih e' (List.mem_cons_of_mem _ he')) ho)

theorem readsBack {e : Expr} (he : Readable r version collection e) {cs : List Char}
    (h : chars r version collection e = .ok cs) :
    ReadsBack version cs (written r version collection e) := by
  induction he generalizing cs with
  | reference hp hne hs =>
    rw [chars_reference, hp] at h
    obtain rfl := Except.ok.inj h
    rw [written, hp]
    exact .of_operand (.of_spells (spells_path hne hs)) rfl
  | literal hv =>
    have hl := Except.mapError_eq_ok.1 h
    exact .of_operand (.of_spells (spells_literal hv hl)) rfl
  | @call name target arguments ht ha iht iha =>
    obtain ⟨form, text, texts, hf, htext, htexts, rfl⟩ := chars_call_eq_ok.1 h
    obtain ⟨entry, hmem, hform, harity, hname⟩ := exists_entry_of_lookupFunction hf
    have hcall := readsOperand_call hmem hform (iht htext).whole (forall₂_readsWhole iha htexts)
      (by rw [harity, length_leftAssociatedAll, length_writtenAll])
    rw [hname] at hcall
    exact .of_operand hcall rfl
  | @binary op left right hl hr hn ihl ihr =>
    cases operation_of_chars h with
    | range =>
      cases hr with
      | literal hplain => cases hplain
    | presence hv hp hs ht =>
      subst hv
      exact absurd (isNullCheck_of_presence? hp hs ht) hn
    | joined hrange htest hltext hrtext =>
      exact (ihl hltext).binary (ihr hrtext) (rank?_written _ _ _ _) (rank?_written _ _ _ _) op
  | @not operand ho ih =>
    obtain ⟨inner, hinner, rfl⟩ := chars_not_eq_ok.1 h
    exact (ih hinner).not (rank?_written _ _ _ _)

theorem ReadsBack.parse {cs : List Char} {e : Expr} (h : ReadsBack version cs e) :
    parse version (String.ofList cs) = some e.leftAssociated := by
  have hend : Follows [] := by simp [Follows]
  have hread := h.chain.inner hend none []
  rw [List.append_nil] at hread
  rw [Filter.parse, String.toList_ofList, ReadState.start, hread, ← Chain.tree_chain]
  simp [readChars, scan_nil, readTokens, ReadState.result?]

/-- The text of an expression is read back as the expression that it writes, with every run of
operators of equal rank associated to the left. -/
theorem parse_text {e : Expr} (he : Readable r version collection e) {s : String}
    (h : text r version collection e = .ok s) :
    parse version s = some (written r version collection e).leftAssociated := by
  obtain ⟨cs, hcs, rfl⟩ := Except.map_eq_ok.1 h
  exact (readsBack he hcs).parse

/-- A service with one collection, which has a string property and another one. -/
def products : Resolver :=
  (Schema.mk "NS" [⟨"Products", [("Name", .string), ("Price", .other)], []⟩] []).resolver

theorem parse_text_products :
    Readable products .v3 (some "Products")
      (.binary .and (.not ((Expr.literal (.string "O'Neil")).contains (.reference "name")))
        (.binary .sub (.reference "Price")
          (.binary .sub (.literal (.int32 1)) (.literal (.int64 2))))) ∧
      text products .v3 (some "Products")
        (.binary .and (.not ((Expr.literal (.string "O'Neil")).contains (.reference "name")))
          (.binary .sub (.reference "Price")
            (.binary .sub (.literal (.int32 1)) (.literal (.int64 2))))) =
        .ok "not substringof(Name,'O''Neil') and Price sub 1 sub 2L" ∧
      parse .v3 "not substringof(Name,'O''Neil') and Price sub 1 sub 2L" =
        some (.binary .and (.not ((Expr.literal (.string "O'Neil")).contains (.reference "Name")))
          (.binary .sub (.binary .sub (.reference "Price") (.literal (.int32 1)))
            (.literal (.int64 2)))) := by
  have hprice : Readable products .v3 (some "Products") (.reference "Price") :=
    .reference rfl (by decide) (by decide)
  have hname : Readable products .v3 (some "Products") (.reference "name") :=
    .reference rfl (by decide) (by decide)
  refine ⟨?hr, by decide, parse_text ?hr (by decide)⟩
  refine .binary (.not (.call (.literal rfl) (List.forall_mem_singleton.2 hname))) ?_ nofun
  exact .binary hprice (.binary (.literal rfl) (.literal rfl) nofun) nofun

/-- Pairs of expressions that the newer dialect writes alike: integers of both types, and names in
two spellings. -/
def twins : List (Expr × Expr) :=
  [(.literal (.int32 5), .literal (.int64 5)), (.reference "Name", .reference "name"),
    (.call "Length" (.reference "Name") [], .call "length" (.reference "Name") [])]

theorem no_reader_of_every_tree :
    (∀ p ∈ twins, ∃ s, text products .v4 (some "Products") p.1 = .ok s ∧
      text products .v4 (some "Products") p.2 = .ok s ∧
      p.1.leftAssociated ≠ p.2.leftAssociated) ∧
      ¬ ∃ read : String → Option Expr, ∀ e, Readable products .v4 (some "Products") e →
        ∀ s, text products .v4 (some "Products") e = .ok s → read s = some e.leftAssociated := by
  have htwins : ∀ p ∈ twins, ∃ s, text products .v4 (some "Products") p.1 = .ok s ∧
      text products .v4 (some "Products") p.2 = .ok s ∧
      p.1.leftAssociated ≠ p.2.leftAssociated := by
    simp only [twins, List.forall_mem_cons, Expr.leftAssociated, Expr.leftAssociatedAll]
    refine ⟨⟨"5", by decide, by decide, by simp⟩, ⟨"Name", by decide, by decide, by simp⟩,
      ⟨"length(Name)", by decide, by decide, by simp⟩, List.forall_mem_nil _⟩
  refine ⟨htwins, ?_⟩
  rintro ⟨read, hread⟩
  obtain ⟨s, hnarrow, hwide, hne⟩ := htwins _ List.mem_cons_self
  have hsame := (hread _ (.literal rfl) s hnarrow).symm.trans (hread _ (.literal rfl) s hwide)
  exact hne (Option.some.inj hsame)

end OData.Filter
