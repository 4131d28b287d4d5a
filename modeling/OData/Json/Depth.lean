import OData.Json.Basic

/-!
How deep a document nests: a bound for whatever walks down it, in whatever order it takes the
members of an object.
-/

namespace OData.Json

mutual

/-- The number of arrays and objects around the innermost value. -/
def depth : Json → Nat
  | array items => itemsDepth items + 1
  | object members => membersDepth members + 1
  | _ => 0

def itemsDepth : List Json → Nat
  | [] => 0
  | item :: rest => max (depth item) (itemsDepth rest)

def membersDepth : List (String × Json) → Nat
  | [] => 0
  | (_, value) :: rest => max (depth value) (membersDepth rest)

end

theorem depth_le_itemsDepth {item : Json} {items : List Json} (h : item ∈ items) :
    depth item ≤ itemsDepth items := by
  induction items with
  | nil => simp at h
  | cons first rest ih =>
    rw [itemsDepth]
    rcases List.mem_cons.1 h with rfl | h
    · exact Nat.le_max_left _ _
    · exact Nat.le_trans (ih h) (Nat.le_max_right _ _)

theorem depth_le_membersDepth {member : String × Json} {members : List (String × Json)}
    (h : member ∈ members) : depth member.2 ≤ membersDepth members := by
  induction members with
  | nil => simp at h
  | cons first rest ih =>
    obtain ⟨name, value⟩ := first
    rw [membersDepth]
    rcases List.mem_cons.1 h with rfl | h
    · exact Nat.le_max_left _ _
    · exact Nat.le_trans (ih h) (Nat.le_max_right _ _)

/-- Members that all come from an object nest no deeper than it does. -/
theorem membersDepth_le {some all : List (String × Json)} (h : ∀ m ∈ some, m ∈ all) :
    membersDepth some ≤ membersDepth all := by
  induction some with
  | nil => exact Nat.zero_le _
  | cons first rest ih =>
    obtain ⟨name, value⟩ := first
    rw [membersDepth]
    exact Nat.max_le.2 ⟨depth_le_membersDepth (h _ (List.mem_cons_self ..)),
      ih fun m hm ↦ h m (List.mem_cons_of_mem _ hm)⟩

end OData.Json
