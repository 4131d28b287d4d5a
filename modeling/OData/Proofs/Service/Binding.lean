import OData.Proofs.Answer
import OData.Service.Body

/-!
Where the references of bound navigations are in a body: one that leads to several entities keeps all
of them, and any other the last.
-/

namespace OData.Service

/-- A member that holds a reference: among others if the navigation leads to several entities. -/
def Holds (multivalued : Bool) (member : String) (reference : Json)
    (members : List (String × Json)) : Prop :=
  if multivalued then
    ∃ items, Fields.find? member members = some (.array items) ∧ reference ∈ items
  else Fields.find? member members = some reference

variable {m m' : Bool} {member member' : String} {reference reference' : Json}
  {body : List (String × Json)}

theorem find?_bind_of_ne (h : member' ≠ member) :
    Fields.find? member (bind m' member' reference' body) = Fields.find? member body := by
  rw [Service.bind]
  split
  · split
    all_goals exact Fields.find?_put_of_ne h _ _
  · exact Fields.find?_put_of_ne h _ _

theorem find?_bind_true {items : List Json}
    (h : Fields.find? member body = some (.array items)) :
    Fields.find? member (bind true member reference body) =
      some (.array (items ++ [reference])) := by
  rw [Service.bind, if_pos rfl, h]
  exact Fields.find?_put _ _ _

theorem holds_bind (m : Bool) (member : String) (reference : Json) (body : List (String × Json)) :
    Holds m member reference (bind m member reference body) := by
  cases m with
  | false => exact Fields.find?_put _ _ _
  | true =>
    rw [Holds, if_pos rfl, Service.bind, if_pos rfl]
    split
    · exact ⟨_, Fields.find?_put _ _ _, by simp⟩
    · exact ⟨_, Fields.find?_put _ _ _, by simp⟩

theorem Holds.bind_of_ne (h : Holds m member reference body) (hne : member' ≠ member) :
    Holds m member reference (bind m' member' reference' body) := by
  rw [Holds, find?_bind_of_ne hne]
  exact h

theorem Holds.bind_true (h : Holds true member reference body) :
    Holds true member reference (bind true member reference' body) := by
  obtain ⟨items, hitems, hmem⟩ := h
  exact ⟨_, find?_bind_true hitems, List.mem_append_left _ hmem⟩

variable {s : Service} {pending : List PendingEntity} {collection : Option String}
  {links later : List Link} {members : List (String × Json)} {name name' exact uri : String}

theorem bindLinks_cons_eq_ok {link : Link} :
    s.bindLinks pending collection (link :: links) body = .ok members ↔
      ∃ location navigation m, s.locate pending link.target = .ok location ∧
        s.navigation collection link.navigation = .ok (navigation, m) ∧
        s.bindLinks pending collection links (bind m (s.binding navigation location.uri).1
          (s.binding navigation location.uri).2 body) = .ok members := by
  constructor
  · intro h
    obtain ⟨location, hlocation, h⟩ := Except.bind_eq_ok.1 h
    obtain ⟨⟨navigation, m⟩, hnavigation, h⟩ := Except.bind_eq_ok.1 h
    exact ⟨location, navigation, m, hlocation, hnavigation, h⟩
  · rintro ⟨location, navigation, m, hlocation, hnavigation, h⟩
    exact Except.bind_eq_ok.2 ⟨_, hlocation, Except.bind_eq_ok.2 ⟨_, hnavigation, h⟩⟩

theorem binding_member_inj {exact' uri' : String}
    (h : (s.binding exact uri).1 = (s.binding exact' uri').1) : exact = exact' := by
  rw [binding, binding] at h
  cases hv : s.version with
  | v3 =>
    rw [hv] at h
    exact h
  | v4 =>
    rw [hv] at h
    exact (String.append_left_inj _).1 h

/-- How many entities a navigation leads to depends on its exact name alone. -/
theorem multivalued_unique (h : s.navigation collection name = .ok (exact, m))
    (h' : s.navigation collection name' = .ok (exact, m')) : m = m' := by
  cases collection with
  | none =>
    obtain ⟨-, rfl⟩ := Prod.mk.inj (Except.ok.inj h)
    obtain ⟨-, rfl⟩ := Prod.mk.inj (Except.ok.inj h')
    rfl
  | some collection =>
    obtain ⟨_, -, h⟩ := Except.bind_eq_ok.1 h
    obtain ⟨_, hm, he⟩ := Except.bind_eq_ok.1 h
    obtain ⟨rfl, rfl⟩ := Prod.mk.inj (Except.ok.inj he)
    obtain ⟨_, -, h'⟩ := Except.bind_eq_ok.1 h'
    obtain ⟨_, hm', he'⟩ := Except.bind_eq_ok.1 h'
    obtain ⟨rfl, rfl⟩ := Prod.mk.inj (Except.ok.inj he')
    exact Except.ok.inj (hm.symm.trans hm')

theorem Holds.bindLinks (h : Holds m (s.binding exact uri).1 reference body)
    (hn : s.navigation collection name = .ok (exact, m))
    (hl : m ∨ ∀ link ∈ later, ∀ m, s.navigation collection link.navigation ≠ .ok (exact, m))
    (hb : s.bindLinks pending collection later body = .ok members) :
    Holds m (s.binding exact uri).1 reference members := by
  induction later generalizing body with
  | nil =>
    obtain rfl := Except.ok.inj hb
    exact h
  | cons link rest ih =>
    obtain ⟨location, exact', m', -, hn', hb⟩ := bindLinks_cons_eq_ok.1 hb
    refine ih ?_ (hl.imp_right fun hl link h ↦ hl link (List.mem_cons_of_mem _ h)) hb
    -- A link of the same exact name adds to the array, and any other sets another member.
    by_cases he : exact' = exact
    · subst he
      obtain rfl := multivalued_unique hn hn'
      obtain rfl : m = true := hl.resolve_right fun hl ↦ hl link List.mem_cons_self m hn'
      have hmember : (s.binding exact' location.uri).1 = (s.binding exact' uri).1 := by
        rw [binding, binding]
        cases s.version <;> rfl
      rw [hmember]
      exact h.bind_true
    · exact h.bind_of_ne fun hm ↦ he (binding_member_inj hm)

/-- The members of a body that bind a navigation to what has an address. Of several references to
one entity each, under one exact name, only the last is there. -/
def Binds (s : Service) (collection : Option String) (later : List Link) (name uri : String)
    (members : List (String × Json)) : Prop :=
  ∃ exact m, s.navigation collection name = .ok (exact, m) ∧
    ((m ∨ ∀ link ∈ later, ∀ m, s.navigation collection link.navigation ≠ .ok (exact, m)) →
      Holds m (s.binding exact uri).1 (s.binding exact uri).2 members)

theorem binds_of_bindLinks {i : Nat} {link : Link}
    (h : s.bindLinks pending collection links body = .ok members) (hi : links[i]? = some link) :
    ∃ location, s.locate pending link.target = .ok location ∧
      s.Binds collection (links.drop (i + 1)) link.navigation location.uri members := by
  induction links generalizing i body with
  | nil => contradiction
  | cons first rest ih =>
    obtain ⟨location, exact, m, hlocation, hn, hb⟩ := bindLinks_cons_eq_ok.1 h
    cases i with
    | zero =>
      obtain rfl := Option.some.inj hi
      exact ⟨location, hlocation, exact, m, hn, fun hl ↦ (holds_bind _ _ _ _).bindLinks hn hl hb⟩
    | succ i => exact ih hb hi

end OData.Service
