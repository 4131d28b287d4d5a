import Mathlib
import OData.Json.Parser
import OData.Proofs.Json.Reordered

/-!
In a document that is read no object has two members of one name: of those that are written, the first
keeps the place and the last the value.
-/

namespace OData

namespace Json

variable {depth steps : Nat} {cs rest : List Char}

theorem isPlain_of_toJson? {numeral : Numeral} {j : Json} (h : numeral.toJson? = some j) :
    j.isObject = false ∧ j.isArray = false := by
  have hreal {negative digits exponent} (h : Numeral.real? negative digits exponent = some j) :
      j.isObject = false ∧ j.isArray = false := by
    obtain ⟨_, -, h⟩ := Option.bind_eq_some_iff.1 h
    obtain ⟨_, -, h⟩ := Option.bind_eq_some_iff.1 h
    obtain rfl := Option.some.inj h
    exact ⟨rfl, rfl⟩
  unfold Numeral.toJson? at h
  dsimp only at h
  split at h
  · split_ifs at h
    · exact hreal h
    · obtain rfl := Option.some.inj h
      exact ⟨rfl, rfl⟩
    · exact hreal h
    · obtain rfl := Option.some.inj h
      exact ⟨rfl, rfl⟩
  · exact hreal h

/-- A value that is read is plain, or its parts are read in fewer steps. -/
theorem readValue?_cases {j : Json} (h : readValue? depth (steps + 1) cs = some (j, rest)) :
    (j.isObject = false ∧ j.isArray = false) ∨
      (∃ items, j = .array items ∧ (items = [] ∨
        ∃ cs' rest', readItems? (depth - 1) steps cs' = some (items, rest'))) ∨
      ∃ members, j = .object (Fields.ofList members) ∧ (members = [] ∨
        ∃ cs' rest', readMembers? (depth - 1) steps cs' = some (members, rest')) := by
  rw [readValue?] at h
  split at h
  · obtain ⟨rfl, -⟩ := Prod.mk.inj (Option.some.inj h)
    exact .inl ⟨rfl, rfl⟩
  · obtain ⟨rfl, -⟩ := Prod.mk.inj (Option.some.inj h)
    exact .inl ⟨rfl, rfl⟩
  · obtain ⟨rfl, -⟩ := Prod.mk.inj (Option.some.inj h)
    exact .inl ⟨rfl, rfl⟩
  · obtain ⟨⟨s, rest'⟩, -, h⟩ := Option.bind_eq_some_iff.1 h
    obtain ⟨rfl, -⟩ := Prod.mk.inj (Option.some.inj h)
    exact .inl ⟨rfl, rfl⟩
  · obtain ⟨-, -, h⟩ := Option.bind_eq_some_iff.1 h
    split at h
    · obtain ⟨rfl, -⟩ := Prod.mk.inj (Option.some.inj h)
      exact .inr (.inl ⟨[], rfl, .inl rfl⟩)
    · obtain ⟨⟨items, rest'⟩, hitems, h⟩ := Option.bind_eq_some_iff.1 h
      obtain ⟨rfl, -⟩ := Prod.mk.inj (Option.some.inj h)
      exact .inr (.inl ⟨items, rfl, .inr ⟨_, _, hitems⟩⟩)
  · obtain ⟨-, -, h⟩ := Option.bind_eq_some_iff.1 h
    split at h
    · obtain ⟨rfl, -⟩ := Prod.mk.inj (Option.some.inj h)
      exact .inr (.inr ⟨[], rfl, .inl rfl⟩)
    · obtain ⟨⟨members, rest'⟩, hmembers, h⟩ := Option.bind_eq_some_iff.1 h
      obtain ⟨rfl, -⟩ := Prod.mk.inj (Option.some.inj h)
      exact .inr (.inr ⟨members, rfl, .inr ⟨_, _, hmembers⟩⟩)
  · obtain ⟨⟨numeral, rest'⟩, -, h⟩ := Option.bind_eq_some_iff.1 h
    obtain ⟨number, hnumber, h⟩ := Option.bind_eq_some_iff.1 h
    obtain ⟨rfl, -⟩ := Prod.mk.inj (Option.some.inj h)
    exact .inl (isPlain_of_toJson? hnumber)

theorem readItems?_cases {items : List Json}
    (h : readItems? depth (steps + 1) cs = some (items, rest)) :
    ∃ item cs' others, readValue? depth steps cs = some (item, cs') ∧ items = item :: others ∧
      (others = [] ∨ ∃ cs' rest', readItems? depth steps cs' = some (others, rest')) := by
  rw [readItems?] at h
  obtain ⟨⟨item, cs'⟩, hitem, h⟩ := Option.bind_eq_some_iff.1 h
  dsimp only at h
  split at h
  · obtain ⟨⟨others, rest'⟩, hothers, h⟩ := Option.bind_eq_some_iff.1 h
    obtain ⟨rfl, -⟩ := Prod.mk.inj (Option.some.inj h)
    exact ⟨item, cs', others, hitem, rfl, .inr ⟨_, _, hothers⟩⟩
  · obtain ⟨rfl, -⟩ := Prod.mk.inj (Option.some.inj h)
    exact ⟨item, cs', [], hitem, rfl, .inl rfl⟩
  · contradiction

theorem readMembers?_cases {members : List (String × Json)}
    (h : readMembers? depth (steps + 1) cs = some (members, rest)) :
    ∃ m cs' rest' others, readValue? depth steps cs' = some (m.2, rest') ∧ members = m :: others ∧
      (others = [] ∨ ∃ cs' rest', readMembers? depth steps cs' = some (others, rest')) := by
  rw [readMembers?] at h
  split at h
  · obtain ⟨⟨name, cs'⟩, -, h⟩ := Option.bind_eq_some_iff.1 h
    dsimp only at h
    split at h
    · obtain ⟨⟨v, rest'⟩, hv, h⟩ := Option.bind_eq_some_iff.1 h
      dsimp only at h
      split at h
      · obtain ⟨⟨others, rest''⟩, hothers, h⟩ := Option.bind_eq_some_iff.1 h
        obtain ⟨rfl, -⟩ := Prod.mk.inj (Option.some.inj h)
        exact ⟨_, _, _, others, hv, rfl, .inr ⟨_, _, hothers⟩⟩
      · obtain ⟨rfl, -⟩ := Prod.mk.inj (Option.some.inj h)
        exact ⟨_, _, _, [], hv, rfl, .inl rfl⟩
      · contradiction
    · contradiction
  · contradiction

theorem distinctNames_of_plain {j : Json} (h : j.isObject = false ∧ j.isArray = false) :
    j.DistinctNames := by
  cases j with
  | object | array => simp [isObject, isArray] at h
  | _ => exact List.forall_mem_nil _

/-- What is read in some steps has no object with two members of one name. -/
theorem distinctNames_of_steps (steps : Nat) :
    (∀ {depth cs j rest}, readValue? depth steps cs = some (j, rest) → j.DistinctNames) ∧
    (∀ {depth cs items rest}, readItems? depth steps cs = some (items, rest) →
      ∀ item ∈ items, item.DistinctNames) ∧
    (∀ {depth cs members rest}, readMembers? depth steps cs = some (members, rest) →
      ∀ m ∈ members, m.2.DistinctNames) := by
  induction steps with
  | zero =>
    refine ⟨fun h ↦ ?_, fun h ↦ ?_, fun h ↦ ?_⟩
    · rw [readValue?] at h
      contradiction
    · rw [readItems?] at h
      contradiction
    · rw [readMembers?] at h
      contradiction
  | succ steps ih =>
    obtain ⟨hvalue, hitems, hmembers⟩ := ih
    refine ⟨fun h ↦ ?_, fun h ↦ ?_, fun h ↦ ?_⟩
    · rcases readValue?_cases h with hplain | ⟨items, rfl, hread⟩ | ⟨members, rfl, hread⟩
      · exact distinctNames_of_plain hplain
      · refine distinctNames_array.2 ?_
        rcases hread with rfl | ⟨_, _, hread⟩
        · exact List.forall_mem_nil _
        · exact hitems hread
      · refine distinctNames_object.2 ⟨Fields.nodup_ofList members, fun m hm ↦ ?_⟩
        have hm := Fields.mem_of_mem_ofList hm
        rcases hread with rfl | ⟨_, _, hread⟩
        · contradiction
        · exact hmembers hread m hm
    · obtain ⟨item, _, others, hitem, rfl, hread⟩ := readItems?_cases h
      refine List.forall_mem_cons.2 ⟨hvalue hitem, ?_⟩
      rcases hread with rfl | ⟨_, _, hread⟩
      · exact List.forall_mem_nil _
      · exact hitems hread
    · obtain ⟨m, _, _, others, hm, rfl, hread⟩ := readMembers?_cases h
      refine List.forall_mem_cons.2 ⟨hvalue hm, ?_⟩
      rcases hread with rfl | ⟨_, _, hread⟩
      · exact List.forall_mem_nil _
      · exact hmembers hread

theorem distinctNames_of_ofText? {s : String} {j : Json} (h : ofText? s = some j) :
    j.DistinctNames := by
  rw [ofText?] at h
  split at h
  · rename_i v rest hv
    split at h
    · obtain rfl := Option.some.inj h
      exact (distinctNames_of_steps _).1 hv
    · contradiction
  · contradiction

end Json
end OData
