/-!
Named members in order. A name that is set again keeps its place; a member that is taken out leaves
its place to the last one.
-/

namespace OData.Fields

variable {α β : Type}

/-- Sets a member: in place if its name is there already, else at the end. -/
def put (name : String) (value : α) : List (String × α) → List (String × α)
  | [] => [(name, value)]
  | (n, v) :: rest => if n = name then (n, value) :: rest else (n, v) :: put name value rest

def putAll (members : List (String × α)) (fields : List (String × α)) : List (String × α) :=
  members.foldl (fun fields (name, value) ↦ put name value fields) fields

/-- The members in order, a repeated name at its first place with its last value. -/
def ofList (members : List (String × α)) : List (String × α) :=
  putAll members []

def find? (name : String) : List (String × α) → Option α
  | [] => none
  | (n, v) :: rest => if n = name then some v else find? name rest

def contains (name : String) (fields : List (String × α)) : Bool :=
  (find? name fields).isSome

/-- Changes the member of a name, or sets it to a starting value changed likewise. -/
def alter (name : String) (start : α) (f : α → α) (fields : List (String × α)) :
    List (String × α) :=
  put name (f ((find? name fields).getD start)) fields

def lastFirst : List α → List α
  | [] => []
  | a :: rest => (a :: rest).getLast (by simp) :: (a :: rest).dropLast

/-- Takes a member out; the last member moves to its place. -/
def take? (name : String) : List (String × α) → Option (α × List (String × α))
  | [] => none
  | (n, v) :: rest =>
    if n = name then some (v, lastFirst rest)
    else (take? name rest).map fun (found, others) ↦ (found, (n, v) :: others)

theorem find?_put (name : String) (value : α) (fields : List (String × α)) :
    find? name (put name value fields) = some value := by
  induction fields with
  | nil => rw [put, find?, if_pos rfl]
  | cons m rest ih =>
    by_cases hn : m.1 = name
    · rw [put, if_pos hn, find?, if_pos hn]
    · rw [put, if_neg hn, find?, if_neg hn, ih]

theorem find?_put_of_ne {name other : String} (h : other ≠ name) (value : α)
    (fields : List (String × α)) : find? name (put other value fields) = find? name fields := by
  induction fields with
  | nil => rw [put, find?, find?, if_neg h, find?]
  | cons m rest ih =>
    by_cases hn : m.1 = other
    · have hne : m.1 ≠ name := fun he ↦ h (hn.symm.trans he)
      rw [put, if_pos hn, find?, if_neg hne, find?, if_neg hne]
    · rw [put, if_neg hn, find?, find?, ih]

theorem mem_lastFirst {a : α} {l : List α} : a ∈ lastFirst l ↔ a ∈ l := by
  cases l with
  | nil => simp [lastFirst]
  | cons b rest =>
    have h := List.dropLast_concat_getLast (l := b :: rest) (by simp)
    constructor
    · intro ha
      rw [← h]
      simp only [lastFirst, List.mem_cons] at ha
      simp only [List.mem_append, List.mem_singleton]
      exact ha.symm
    · intro ha
      rw [← h] at ha
      simp only [List.mem_append, List.mem_singleton] at ha
      simp only [lastFirst, List.mem_cons]
      exact ha.symm

/-- What is taken out, and what stays, was there. -/
theorem mem_of_take? {name : String} {fields rest : List (String × α)} {v : α}
    (h : take? name fields = some (v, rest)) :
    (name, v) ∈ fields ∧ ∀ m ∈ rest, m ∈ fields := by
  induction fields generalizing rest with
  | nil => simp [take?] at h
  | cons m others ih =>
    obtain ⟨n, w⟩ := m
    by_cases hn : n = name
    · simp only [take?, hn, if_true, Option.some.injEq, Prod.mk.injEq] at h
      obtain ⟨rfl, rfl⟩ := h
      exact ⟨by simp [hn], fun m hm ↦ List.mem_cons_of_mem _ (mem_lastFirst.1 hm)⟩
    · simp only [take?, hn, if_false, Option.map_eq_some_iff, Prod.mk.injEq] at h
      obtain ⟨⟨u, r⟩, hr, rfl, rfl⟩ := h
      obtain ⟨h₁, h₂⟩ := ih hr
      refine ⟨List.mem_cons_of_mem _ h₁, fun m hm ↦ ?_⟩
      rcases List.mem_cons.1 hm with rfl | hm
      · simp
      · exact List.mem_cons_of_mem _ (h₂ m hm)

end OData.Fields
