import Mathlib.Data.List.Nodup
import Mathlib.Data.List.Perm.Basic
import OData.Fields

/-!
Lists up to the order of their items, and fields as the maps that they are.
-/

namespace OData

/-- Members of one name whose values are related. -/
def SameName {α : Type} (R : α → α → Prop) (p q : String × α) : Prop :=
  p.1 = q.1 ∧ R p.2 q.2

theorem forall₂_toList {α β : Type} {R : α → β → Prop} {a? : Option α} {b? : Option β}
    (h : Option.Rel R a? b?) : List.Forall₂ R a?.toList b?.toList := by
  cases h with
  | some h => exact .cons h .nil
  | none => exact .nil

/-- Options that are related are both empty, or they hold what is related. -/
theorem rel_forms {α β : Type} {R : α → β → Prop} {a? : Option α} {b? : Option β}
    (h : Option.Rel R a? b?) :
    (a? = none ∧ b? = none) ∨ ∃ a b, a? = some a ∧ b? = some b ∧ R a b := by
  cases h with
  | none => exact .inl ⟨rfl, rfl⟩
  | some h => exact .inr ⟨_, _, rfl, rfl, h⟩

/-- The items of one list, in some order, are related one by one to those of the other. -/
def UpToOrder {α β : Type} (R : α → β → Prop) (xs : List α) (ys : List β) : Prop :=
  ∃ ordered, xs.Perm ordered ∧ List.Forall₂ R ordered ys

namespace UpToOrder

variable {α β γ δ : Type} {R : α → β → Prop} {S : γ → δ → Prop} {xs xs' : List α} {ys ys' : List β}

theorem of_forall₂ (h : List.Forall₂ R xs ys) : UpToOrder R xs ys :=
  ⟨xs, .refl xs, h⟩

theorem perm_left (hp : xs.Perm xs') (h : UpToOrder R xs' ys) : UpToOrder R xs ys := by
  obtain ⟨ordered, hordered, h⟩ := h
  exact ⟨ordered, hp.trans hordered, h⟩

theorem perm_right (h : UpToOrder R xs ys) (hp : ys.Perm ys') : UpToOrder R xs ys' := by
  obtain ⟨ordered, hordered, h⟩ := h
  have hcomp : Relation.Comp (List.Forall₂ R) List.Perm ordered ys' := ⟨ys, h, hp⟩
  rw [List.forall₂_comp_perm_eq_perm_comp_forall₂] at hcomp
  obtain ⟨ordered', hordered', h⟩ := hcomp
  exact ⟨ordered', hordered.trans hordered', h⟩

theorem append (h : UpToOrder R xs ys) (h' : UpToOrder R xs' ys') :
    UpToOrder R (xs ++ xs') (ys ++ ys') := by
  obtain ⟨ordered, hordered, h⟩ := h
  obtain ⟨ordered', hordered', h'⟩ := h'
  exact ⟨ordered ++ ordered', hordered.append hordered', List.rel_append h h'⟩

theorem length_eq (h : UpToOrder R xs ys) : xs.length = ys.length := by
  obtain ⟨ordered, hordered, h⟩ := h
  exact hordered.length_eq.trans h.length_eq

/-- What is first on one side has a partner on the other, and the rest is the same up to order. -/
theorem of_cons {x : α} (h : UpToOrder R (x :: xs) ys) :
    ∃ y rest, ys.Perm (y :: rest) ∧ R x y ∧ UpToOrder R xs rest := by
  obtain ⟨ordered, hordered, h⟩ := h
  obtain ⟨matched, h, hperm⟩ := List.perm_comp_forall₂ hordered h
  obtain ⟨y, rest, hxy, hrest, rfl⟩ := List.forall₂_cons_left_iff.1 h
  exact ⟨y, rest, hperm.symm, hxy, of_forall₂ hrest⟩

theorem flatMap {f : α → List γ} {g : β → List δ} (h : UpToOrder R xs ys)
    (hf : ∀ x ∈ xs, ∀ y, R x y → UpToOrder S (f x) (g y)) :
    UpToOrder S (xs.flatMap f) (ys.flatMap g) := by
  obtain ⟨ordered, hordered, h⟩ := h
  refine perm_left (hordered.flatMap_right f) ?_
  have hf' : ∀ x ∈ ordered, ∀ y, R x y → UpToOrder S (f x) (g y) :=
    fun x hx ↦ hf x (hordered.mem_iff.2 hx)
  clear hf hordered
  induction h with
  | nil => exact of_forall₂ .nil
  | cons hxy _ ih =>
    obtain ⟨hfirst, hrest⟩ := List.forall_mem_cons.1 hf'
    exact (hfirst _ hxy).append (ih hrest)

theorem map {f : α → γ} {g : β → δ} (h : UpToOrder R xs ys)
    (hf : ∀ x ∈ xs, ∀ y, R x y → S (f x) (g y)) : UpToOrder S (xs.map f) (ys.map g) := by
  obtain ⟨ordered, hordered, h⟩ := h
  refine ⟨ordered.map f, hordered.map f, ?_⟩
  rw [List.forall₂_map_left_iff, List.forall₂_map_right_iff]
  have hmem : ∀ x ∈ ordered, x ∈ xs := fun x hx ↦ hordered.mem_iff.2 hx
  exact ((List.forall₂_and_left _ _).2 ⟨hmem, h⟩).imp fun x y hxy ↦ hf x hxy.1 y hxy.2

theorem filterMap {f : α → Option γ} {g : β → Option δ} (h : UpToOrder R xs ys)
    (hf : ∀ x ∈ xs, ∀ y, R x y → Option.Rel S (f x) (g y)) :
    UpToOrder S (xs.filterMap f) (ys.filterMap g) := by
  rw [List.filterMap_eq_flatMap_toList, List.filterMap_eq_flatMap_toList]
  exact h.flatMap fun x hx y hxy ↦ of_forall₂ (forall₂_toList (hf x hx y hxy))

theorem all_eq {p : α → Bool} {q : β → Bool} (h : UpToOrder R xs ys)
    (hpq : ∀ x y, R x y → p x = q y) : xs.all p = ys.all q := by
  obtain ⟨ordered, hordered, h⟩ := h
  rw [hordered.all_eq]
  clear hordered
  induction h with
  | nil => rfl
  | cons hxy _ ih => rw [List.all_cons, List.all_cons, hpq _ _ hxy, ih]

theorem exists_congr {P : α → Prop} {Q : β → Prop} (h : UpToOrder R xs ys)
    (hPQ : ∀ x ∈ xs, ∀ y, R x y → (P x ↔ Q y)) : (∃ x ∈ xs, P x) ↔ ∃ y ∈ ys, Q y := by
  obtain ⟨ordered, hordered, h⟩ := h
  have hPQ' : ∀ x ∈ ordered, ∀ y, R x y → (P x ↔ Q y) := fun x hx ↦ hPQ x (hordered.mem_iff.2 hx)
  simp only [hordered.mem_iff]
  clear hPQ hordered
  induction h with
  | nil => simp
  | cons hxy _ ih =>
    obtain ⟨hfirst, hrest⟩ := List.forall_mem_cons.1 hPQ'
    simp only [List.mem_cons, exists_eq_or_imp]
    exact or_congr (hfirst _ hxy) (ih hrest)

end UpToOrder

theorem upToOrder_eq {α : Type} {xs ys : List α} (h : UpToOrder Eq xs ys) : xs.Perm ys := by
  obtain ⟨ordered, hordered, h⟩ := h
  rw [List.forall₂_eq_eq_eq] at h
  exact h ▸ hordered

namespace Fields

variable {α : Type} {R : α → α → Prop} {fields fields' : List (String × α)}

theorem find?_put_eq (name other : String) (v : α) (fields : List (String × α)) :
    find? name (put other v fields) = if other = name then some v else find? name fields := by
  split
  · rename_i h
    rw [h, find?_put]
  · rename_i h
    exact find?_put_of_ne h v fields

theorem find?_append (name : String) (fields more : List (String × α)) :
    find? name (fields ++ more) = (find? name fields).or (find? name more) := by
  induction fields with
  | nil => rfl
  | cons m rest ih =>
    rw [List.cons_append, find?, find?]
    split
    · rfl
    · exact ih

theorem mem_of_find? {name : String} {v : α} (h : find? name fields = some v) :
    (name, v) ∈ fields := by
  induction fields with
  | nil => contradiction
  | cons m rest ih =>
    rw [find?] at h
    split at h
    · rename_i hname
      obtain rfl := Option.some.inj h
      rw [← hname]
      exact List.mem_cons_self ..
    · exact List.mem_cons_of_mem _ (ih h)

theorem find?_eq_none {name : String} : find? name fields = none ↔ name ∉ fields.map Prod.fst := by
  induction fields with
  | nil => simp [find?]
  | cons m rest ih =>
    rw [find?, List.map_cons, List.mem_cons, not_or]
    split
    · rename_i hname
      simp [hname]
    · rename_i hname
      rw [ih]
      exact (and_iff_right fun h ↦ hname h.symm).symm

/-- Where each name stands once, a member is what its name finds. -/
theorem find?_eq_some (h : (fields.map Prod.fst).Nodup) {name : String} {v : α} :
    find? name fields = some v ↔ (name, v) ∈ fields := by
  refine ⟨mem_of_find?, fun hm ↦ ?_⟩
  induction fields with
  | nil => contradiction
  | cons m rest ih =>
    rw [List.map_cons, List.nodup_cons] at h
    rw [find?]
    rcases List.mem_cons.1 hm with rfl | hm
    · exact if_pos rfl
    · rw [if_neg, ih h.2 hm]
      rintro rfl
      exact h.1 (List.mem_map.2 ⟨_, hm, rfl⟩)

theorem find?_of_perm (h : (fields.map Prod.fst).Nodup) (hp : fields.Perm fields') (name : String) :
    find? name fields = find? name fields' := by
  have h' : (fields'.map Prod.fst).Nodup := (hp.map _).nodup_iff.1 h
  ext v
  rw [find?_eq_some h, find?_eq_some h', hp.mem_iff]

theorem put_of_not_mem {name : String} (h : name ∉ fields.map Prod.fst) (v : α) :
    put name v fields = fields ++ [(name, v)] := by
  induction fields with
  | nil => rfl
  | cons m rest ih =>
    rw [List.map_cons, List.mem_cons, not_or] at h
    rw [put, if_neg (Ne.symm h.1), ih h.2, List.cons_append]

theorem find?_append_of_not_mem {name : String} (h : name ∉ fields.map Prod.fst) (v : α) :
    find? name (fields ++ [(name, v)]) = some v := by
  rw [find?_append, find?_eq_none.2 h, Option.none_or, find?, if_pos rfl]

theorem put_append_of_not_mem {name : String} (h : name ∉ fields.map Prod.fst) (v w : α) :
    put name w (fields ++ [(name, v)]) = fields ++ [(name, w)] := by
  induction fields with
  | nil => exact if_pos rfl
  | cons m rest ih =>
    rw [List.map_cons, List.mem_cons, not_or] at h
    rw [List.cons_append, put, if_neg (Ne.symm h.1), ih h.2, List.cons_append]

theorem putAll_append {members : List (String × α)}
    (h : ((fields ++ members).map Prod.fst).Nodup) : putAll members fields = fields ++ members := by
  induction members generalizing fields with
  | nil => rw [List.append_nil]; rfl
  | cons m rest ih =>
    obtain ⟨name, v⟩ := m
    have hname : name ∉ fields.map Prod.fst := by
      rw [List.map_append, List.nodup_append] at h
      exact fun hmem ↦ h.2.2 name hmem name (List.mem_cons_self ..) rfl
    rw [List.append_cons] at h ⊢
    have hstep : putAll ((name, v) :: rest) fields = putAll rest (put name v fields) := rfl
    rw [hstep, put_of_not_mem hname]
    exact ih h

/-- Fields with each name once are kept as they are. -/
theorem ofList_eq_self (h : (fields.map Prod.fst).Nodup) : ofList fields = fields :=
  @putAll_append _ [] fields h

theorem map_fst_put_of_mem {name : String} (h : name ∈ fields.map Prod.fst) (v : α) :
    (put name v fields).map Prod.fst = fields.map Prod.fst := by
  induction fields with
  | nil => contradiction
  | cons m rest ih =>
    rw [put]
    split
    · rfl
    · rename_i hname
      rw [List.map_cons, List.mem_cons] at h
      rw [List.map_cons, List.map_cons, ih (h.resolve_left (Ne.symm hname))]

theorem nodup_put (name : String) (v : α) (h : (fields.map Prod.fst).Nodup) :
    ((put name v fields).map Prod.fst).Nodup := by
  by_cases hname : name ∈ fields.map Prod.fst
  · rw [map_fst_put_of_mem hname]
    exact h
  · rw [put_of_not_mem hname, List.map_append]
    exact List.Nodup.append h (List.nodup_singleton name) (List.disjoint_singleton.2 hname)

theorem mem_of_mem_put {name : String} {v : α} {m : String × α} (h : m ∈ put name v fields) :
    m = (name, v) ∨ m ∈ fields := by
  induction fields with
  | nil => exact .inl (List.mem_singleton.1 h)
  | cons other rest ih =>
    rw [put] at h
    split at h
    · rename_i hn
      rw [hn] at h
      exact (List.mem_cons.1 h).imp_right (List.mem_cons_of_mem _)
    · rcases List.mem_cons.1 h with rfl | h
      · exact .inr List.mem_cons_self
      · exact (ih h).imp_right (List.mem_cons_of_mem _)

theorem nodup_putAll (members : List (String × α)) (h : (fields.map Prod.fst).Nodup) :
    ((putAll members fields).map Prod.fst).Nodup := by
  induction members generalizing fields with
  | nil => exact h
  | cons m rest ih => exact ih (nodup_put m.1 m.2 h)

theorem mem_of_mem_putAll {members : List (String × α)} {m : String × α}
    (h : m ∈ putAll members fields) : m ∈ members ∨ m ∈ fields := by
  induction members generalizing fields with
  | nil => exact .inr h
  | cons other rest ih =>
    rcases ih h with h | h
    · exact .inl (List.mem_cons_of_mem _ h)
    · refine (mem_of_mem_put h).imp_left fun heq ↦ ?_
      rw [heq]
      exact List.mem_cons_self

theorem nodup_ofList (members : List (String × α)) : ((ofList members).map Prod.fst).Nodup :=
  nodup_putAll members List.nodup_nil

theorem mem_of_mem_ofList {members : List (String × α)} {m : String × α} (h : m ∈ ofList members) :
    m ∈ members :=
  (mem_of_mem_putAll h).resolve_right List.not_mem_nil

theorem map_fst_of_sameName (h : List.Forall₂ (SameName R) fields fields') :
    fields.map Prod.fst = fields'.map Prod.fst := by
  induction h with
  | nil => rfl
  | cons hm _ ih => rw [List.map_cons, List.map_cons, hm.1, ih]

theorem forall₂_sameName (hn : fields.map Prod.fst = fields'.map Prod.fst)
    (hv : List.Forall₂ R (fields.map Prod.snd) (fields'.map Prod.snd)) :
    List.Forall₂ (SameName R) fields fields' := by
  induction fields generalizing fields' with
  | nil =>
    obtain rfl := List.map_eq_nil_iff.1 hn.symm
    exact .nil
  | cons m rest ih =>
    cases fields' with
    | nil => contradiction
    | cons m' rest' =>
      obtain ⟨hname, hnames⟩ := List.cons.inj hn
      cases hv with
      | cons hvalue hvalues => exact .cons ⟨hname, hvalue⟩ (ih hnames hvalues)

/-- Members that are the same up to order are the same as maps. -/
theorem find?_rel (h : UpToOrder (SameName R) fields fields')
    (hnames : (fields.map Prod.fst).Nodup) (name : String) :
    Option.Rel R (find? name fields) (find? name fields') := by
  obtain ⟨ordered, hordered, h⟩ := h
  rw [find?_of_perm hnames hordered]
  clear hordered hnames
  induction h with
  | nil => exact .none
  | cons hm _ ih =>
    rw [find?, find?, hm.1]
    split
    · exact .some hm.2
    · exact ih

theorem nodup_of_upToOrder (h : UpToOrder (SameName R) fields fields')
    (hnames : (fields.map Prod.fst).Nodup) : (fields'.map Prod.fst).Nodup := by
  obtain ⟨ordered, hordered, h⟩ := h
  rw [← map_fst_of_sameName h]
  exact (hordered.map _).nodup_iff.1 hnames

theorem lastFirst_concat (l : List α) (a : α) : lastFirst (l ++ [a]) = a :: l := by
  cases l with
  | nil => rfl
  | cons b rest =>
    have hdrop : (b :: (rest ++ [a])).dropLast = b :: rest := @List.dropLast_concat _ (b :: rest) a
    rw [List.cons_append, lastFirst, hdrop]
    exact congrArg (· :: b :: rest) (@List.getLast_concat _ a (b :: rest))

theorem lastFirst_perm (l : List α) : (lastFirst l).Perm l := by
  rcases l.eq_nil_or_concat' with rfl | ⟨rest, a, rfl⟩
  · exact .refl []
  · rw [lastFirst_concat]
    exact (List.perm_append_singleton ..).symm

/-- Taking a member out leaves the others. -/
theorem perm_of_take? {name : String} {v : α} {others : List (String × α)}
    (h : take? name fields = some (v, others)) : fields.Perm ((name, v) :: others) := by
  induction fields generalizing others with
  | nil => contradiction
  | cons m rest ih =>
    rw [take?] at h
    split at h
    · rename_i hname
      obtain ⟨rfl, rfl⟩ := Prod.mk.inj (Option.some.inj h)
      rw [← hname]
      exact (lastFirst_perm rest).symm.cons _
    · obtain ⟨⟨w, left⟩, hleft, hpair⟩ := Option.map_eq_some_iff.1 h
      obtain ⟨rfl, rfl⟩ := Prod.mk.inj hpair
      exact ((ih hleft).cons _).trans (.swap ..)

theorem take?_eq_none {name : String} : take? name fields = none ↔ name ∉ fields.map Prod.fst := by
  induction fields with
  | nil => simp [take?]
  | cons m rest ih =>
    rw [take?, List.map_cons, List.mem_cons, not_or]
    split
    · rename_i hname
      simp [hname]
    · rename_i hname
      rw [Option.map_eq_none_iff, ih]
      exact (and_iff_right fun h ↦ hname h.symm).symm

theorem find?_eq_take? (name : String) (fields : List (String × α)) :
    find? name fields = (take? name fields).map Prod.fst := by
  induction fields with
  | nil => rfl
  | cons m rest ih =>
    rw [find?, take?]
    split
    · rfl
    · rw [ih, Option.map_map]
      rfl

theorem take?_append_of_not_mem {name : String} (h : name ∉ fields.map Prod.fst) (v : α) :
    take? name (fields ++ [(name, v)]) = some (v, fields) := by
  induction fields with
  | nil => exact if_pos rfl
  | cons m rest ih =>
    rw [List.map_cons, List.mem_cons, not_or] at h
    rw [List.cons_append, take?, if_neg (Ne.symm h.1), ih h.2]
    rfl

/-- The last member takes the place of the one that is taken out. -/
theorem take?_append {name : String} (h : name ∉ fields.map Prod.fst) (v : α)
    (between : List (String × α)) (last : String × α) :
    take? name (fields ++ (name, v) :: (between ++ [last])) = some (v, fields ++ last :: between) := by
  induction fields with
  | nil => rw [List.nil_append, take?, if_pos rfl, lastFirst_concat, List.nil_append]
  | cons m rest ih =>
    rw [List.map_cons, List.mem_cons, not_or] at h
    rw [List.cons_append, take?, if_neg (Ne.symm h.1), ih h.2]
    rfl

/-- Taking a member out of what is the same up to order leaves what is the same up to order. -/
theorem take?_rel (h : UpToOrder (SameName R) fields fields')
    (hnames : (fields.map Prod.fst).Nodup) (name : String) :
    Option.Rel (fun p q ↦ R p.1 q.1 ∧ UpToOrder (SameName R) p.2 q.2)
      (take? name fields) (take? name fields') := by
  have hnames' := nodup_of_upToOrder h hnames
  cases htake : take? name fields with
  | none =>
    obtain ⟨ordered, hordered, hsame⟩ := h
    have hnone : take? name fields' = none := by
      rw [take?_eq_none, ← map_fst_of_sameName hsame, ← (hordered.map _).mem_iff, ← take?_eq_none]
      exact htake
    rw [hnone]
    exact .none
  | some found =>
    obtain ⟨v, others⟩ := found
    obtain ⟨⟨name', w⟩, rest, hperm, hm, hrest⟩ :=
      (h.perm_left (perm_of_take? htake).symm).of_cons
    obtain ⟨rfl, hvw⟩ := hm
    have hmem : (name, w) ∈ fields' := hperm.mem_iff.2 (List.mem_cons_self ..)
    cases htake' : take? name fields' with
    | none =>
      exact absurd (List.mem_map_of_mem hmem) (take?_eq_none.1 htake')
    | some found' =>
      obtain ⟨w', others'⟩ := found'
      have hperm' := perm_of_take? htake'
      have hmem' : (name, w') ∈ fields' := hperm'.mem_iff.2 (List.mem_cons_self ..)
      obtain rfl : w = w' := Option.some.inj
        (((find?_eq_some hnames').2 hmem).symm.trans ((find?_eq_some hnames').2 hmem'))
      exact .some ⟨hvw, hrest.perm_right (hperm.symm.trans hperm').cons_inv⟩

end Fields
end OData
