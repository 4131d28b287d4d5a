/-!
When a computation that may fail has an answer, and when it fails.
-/

namespace OData.Except

variable {ε ε' α β : Type} {x : Except ε α} {f : α → Except ε β} {a : α} {b : β} {e : ε}

theorem bind_eq_ok : x >>= f = .ok b ↔ ∃ a, x = .ok a ∧ f a = .ok b := by
  cases x with
  | error e => simp [bind, Except.bind]
  | ok a => simp [bind, Except.bind]

theorem bind_of_eq_ok (h : x = .ok a) : x >>= f = f a := by
  rw [h]
  rfl

theorem bind_of_eq_error (h : x = .error e) : x >>= f = .error e := by
  rw [h]
  rfl

theorem map_eq_ok {f : α → β} : x.map f = .ok b ↔ ∃ a, x = .ok a ∧ f a = b := by
  cases x with
  | error e => simp [Except.map]
  | ok a => simp [Except.map]

theorem map_eq_error {f : α → β} : x.map f = .error e ↔ x = .error e := by
  cases x with
  | error e => simp [Except.map]
  | ok a => simp [Except.map]

theorem mapError_eq_ok {f : ε → ε'} : x.mapError f = .ok a ↔ x = .ok a := by
  cases x with
  | error e =>
    constructor
    · intro h
      contradiction
    · intro h
      contradiction
  | ok b => exact ⟨fun h ↦ congrArg _ (Except.ok.inj h), fun h ↦ congrArg _ (Except.ok.inj h)⟩

theorem mapError_eq_error {f : ε → ε'} {e' : ε'} :
    x.mapError f = .error e' ↔ ∃ e, x = .error e ∧ f e = e' := by
  cases x with
  | error e =>
    constructor
    · intro h
      exact ⟨e, rfl, Except.error.inj h⟩
    · rintro ⟨e, h, rfl⟩
      obtain rfl := Except.error.inj h
      rfl
  | ok a =>
    constructor
    · intro h
      contradiction
    · rintro ⟨e, h, -⟩
      contradiction

theorem mapM_map_eq_ok {γ : Type} {l : List γ} {g : γ → α} {r : γ → β}
    (h : ∀ c ∈ l, f (g c) = .ok (r c)) : (l.map g).mapM f = .ok (l.map r) := by
  induction l with
  | nil => rfl
  | cons c l ih =>
    obtain ⟨hc, hl⟩ := List.forall_mem_cons.1 h
    rw [List.map_cons, List.mapM_cons, hc, ih hl]
    rfl

theorem of_mapM_map_eq_ok {γ : Type} {l : List γ} {g : γ → α} {r : γ → β}
    (h : (l.map g).mapM f = .ok (l.map r)) : ∀ c ∈ l, f (g c) = .ok (r c) := by
  induction l with
  | nil => exact nofun
  | cons c l ih =>
    rw [List.map_cons, List.mapM_cons] at h
    obtain ⟨a, ha, hrest⟩ := bind_eq_ok.1 h
    obtain ⟨as, has, heq⟩ := bind_eq_ok.1 hrest
    obtain ⟨rfl, rfl⟩ := List.cons.inj (Except.ok.inj heq)
    exact List.forall_mem_cons.2 ⟨ha, ih has⟩

/-- What is made of every answer can be made of them all at the end. -/
theorem mapM_map_answer {γ : Type} {g : γ → Except ε α} (r : α → β) (l : List γ) :
    l.mapM (fun c ↦ (g c).map r) = (l.mapM g).map (List.map r) := by
  induction l with
  | nil => rfl
  | cons c l ih =>
    rw [List.mapM_cons, List.mapM_cons, ih]
    cases g c with
    | error => rfl
    | ok => cases l.mapM g <;> rfl

end OData.Except
