import Mathlib
import OData.Proofs.Schema.Names

/-!
The other grammatical number of a name. A name is tried with the ending of a plural added to it, and with
the one that it has taken off. Taking off undoes adding, with one exception: what ends in `ies` is taken
for the plural of a noun in `y` alone. So a noun in `i` or `ie` leads to its plural, and the plural does
not lead back.
-/

namespace OData

namespace Text

theorem lower_append_eq_iff {xs ys : List Char} :
    lower (xs ++ ys) = xs ++ ys ↔ lower xs = xs ∧ lower ys = ys := by
  rw [lower, List.map_append]
  constructor
  · intro h
    exact List.append_inj h (List.length_map ..)
  · rintro ⟨hx, hy⟩
    exact congrArg₂ (· ++ ·) hx hy

theorem lower_lower (cs : List Char) : lower (lower cs) = lower cs := by
  rw [lower, lower, List.map_map]
  exact List.map_congr_left fun c _ ↦ c.toLower_toLower_eq_toLower

end Text

open Text

/-- A plural of a noun, both in lower case. -/
@[mk_iff]
inductive IsPlural (noun plural : List Char) : Prop
  | s (h : plural = noun ++ ['s'])
  | es (h : plural = noun ++ "es".toList)
  | ies (stem : List Char) (hn : noun = stem ++ ['y']) (hp : plural = stem ++ "ies".toList)

/-- A plural in `ies` of a noun that does not end in `y`, such as that of a movie. -/
inductive IsOneWay (noun plural : List Char) : Prop
  | i (stem : List Char) (hn : noun = stem ++ ['i']) (hp : plural = stem ++ "ies".toList)
  | ie (stem : List Char) (hn : noun = stem ++ "ie".toList) (hp : plural = stem ++ "ies".toList)

/-- Some name in the other grammatical number is the other name, in any letter case. -/
def IsCounterpart (name other : String) : Prop :=
  ∃ variant ∈ numberVariants name.toList, lower variant = lower other.toList

instance (name other : String) : Decidable (IsCounterpart name other) :=
  inferInstanceAs (Decidable (∃ variant ∈ numberVariants name.toList, _))

/-- In any letter case, the other name is a plural in `ies` of the name, which does not end in `y`. -/
def LeadsOneWay (name other : String) : Prop :=
  IsOneWay (lower name.toList) (lower other.toList)

variable {noun plural stem cs : List Char}

/-! ### Endings -/

theorem append_es (stem : List Char) : stem ++ "es".toList = stem ++ ['e'] ++ ['s'] :=
  (List.append_assoc stem ['e'] ['s']).symm

theorem append_ie (stem : List Char) : stem ++ "ie".toList = stem ++ ['i'] ++ ['e'] :=
  (List.append_assoc stem ['i'] ['e']).symm

theorem append_ies (stem : List Char) : stem ++ "ies".toList = stem ++ ['i'] ++ ['e'] ++ ['s'] := by
  rw [← append_es, List.append_assoc]
  rfl

theorem IsPlural.length_lt (h : IsPlural noun plural) : noun.length < plural.length := by
  rcases h with rfl | rfl | ⟨stem, rfl, rfl⟩ <;> simp

theorem IsPlural.asymm (h : IsPlural noun plural) : ¬ IsPlural plural noun := fun h' ↦
  Nat.lt_asymm h.length_lt h'.length_lt

theorem IsOneWay.isPlural (h : IsOneWay noun plural) : IsPlural noun plural := by
  rcases h with ⟨stem, rfl, rfl⟩ | ⟨stem, rfl, rfl⟩
  · exact .es (by rw [append_ies, append_es])
  · exact .s (by rw [append_ies, append_ie])

/-! ### The nouns of a plural, by its ending -/

theorem isPlural_append_ies : IsPlural noun (stem ++ "ies".toList) ↔
    noun = stem ++ ['y'] ∨ IsOneWay noun (stem ++ "ies".toList) := by
  constructor
  · rintro (h | h | ⟨other, rfl, h⟩)
    · rw [append_ies, List.append_singleton_inj, ← append_ie] at h
      exact .inr (.ie stem h.1.symm rfl)
    · simp only [append_ies, append_es, List.append_singleton_inj] at h
      exact .inr (.i stem h.1.1.symm rfl)
    · exact .inl (congrArg (· ++ ['y']) (List.append_cancel_right h).symm)
  · rintro (h | h)
    · exact .ies stem h rfl
    · exact h.isPlural

theorem not_isOneWay_append_y (stem plural : List Char) : ¬ IsOneWay (stem ++ ['y']) plural := by
  rintro (⟨other, h, -⟩ | ⟨other, h, -⟩)
  · exact absurd (List.append_singleton_inj.1 h).2 (by decide)
  · rw [append_ie] at h
    exact absurd (List.append_singleton_inj.1 h).2 (by decide)

/-- A plural that does not end in `ies` has nothing but an `s` or an `es` behind its noun. -/
theorem isPlural_iff_of_ne_ies (h : ∀ stem, plural ≠ stem ++ "ies".toList) :
    IsPlural noun plural ↔ plural = noun ++ ['s'] ∨ plural = noun ++ "es".toList := by
  have hies : ¬ ∃ stem, noun = stem ++ ['y'] ∧ plural = stem ++ "ies".toList := by
    rintro ⟨stem, -, hp⟩
    exact h stem hp
  rw [isPlural_iff, or_iff_left hies]

theorem isPlural_append_es (h : ∀ other, stem ++ "es".toList ≠ other ++ "ies".toList) :
    IsPlural noun (stem ++ "es".toList) ↔ noun = stem ∨ noun = stem ++ ['e'] := by
  rw [isPlural_iff_of_ne_ies h, List.append_cancel_right_eq, append_es, List.append_cancel_right_eq,
    or_comm, eq_comm, eq_comm (b := noun)]

theorem isPlural_append_s (hies : ∀ other, stem ++ ['s'] ≠ other ++ "ies".toList)
    (hes : ∀ other, stem ++ ['s'] ≠ other ++ "es".toList) :
    IsPlural noun (stem ++ ['s']) ↔ noun = stem := by
  rw [isPlural_iff_of_ne_ies hies, or_iff_left (hes noun), List.append_cancel_right_eq, eq_comm]

/-! ### The variants of a name -/

/-- The variants of a name are its plurals and the nouns that it is a plural of, but for those that lead
one way. -/
theorem mem_numberVariants {variant : List Char} : variant ∈ numberVariants cs ↔
    IsPlural (lower cs) variant ∨ IsPlural variant (lower cs) ∧ ¬ IsOneWay variant (lower cs) := by
  rw [numberVariants]
  simp only [List.mem_append, or_assoc]
  generalize lower cs = name
  refine (or_congr ?singular ?plural).trans or_comm
  case plural =>
    rw [isPlural_iff, List.mem_pair, or_comm, or_assoc]
    refine or_congr_right (or_congr_right ?_)
    split
    · rename_i stem h
      obtain rfl := eq_append_of_beforeSuffix? h
      simp only [List.mem_singleton, List.append_cancel_right_eq, exists_eq_left']
    · rename_i h
      simp [beforeSuffix?_eq_none_iff.1 h]
  case singular =>
    -- the longest ending goes first, so a shorter one that is taken off is no part of a longer one
    split
    · rename_i stem h
      obtain rfl := eq_append_of_beforeSuffix? h
      rw [List.mem_singleton, isPlural_append_ies]
      constructor
      · rintro rfl
        exact ⟨.inl rfl, not_isOneWay_append_y stem _⟩
      · rintro ⟨h | h, hone⟩
        · exact h
        · exact absurd h hone
    · rename_i hies
      have hne := beforeSuffix?_eq_none_iff.1 hies
      have hone : ¬ IsOneWay variant name := by
        rintro (⟨stem, -, hp⟩ | ⟨stem, -, hp⟩)
        · exact hne stem hp
        · exact hne stem hp
      rw [and_iff_left hone]
      split
      · rename_i stem h
        obtain rfl := eq_append_of_beforeSuffix? h
        rw [List.mem_pair, isPlural_append_es hne]
      · rename_i hes
        have hnotes := beforeSuffix?_eq_none_iff.1 hes
        split
        · rename_i stem h
          obtain rfl := eq_append_of_beforeSuffix? h
          rw [List.mem_singleton, isPlural_append_s hne hnotes]
        · rename_i hs
          rw [isPlural_iff_of_ne_ies hne, or_iff_left (hnotes variant)]
          exact iff_of_false List.not_mem_nil (beforeSuffix?_eq_none_iff.1 hs variant)

theorem IsPlural.lower_eq_iff (h : IsPlural noun plural) :
    lower noun = noun ↔ lower plural = plural := by
  have hs : lower ['s'] = ['s'] := rfl
  have hes : lower "es".toList = "es".toList := rfl
  have hies : lower "ies".toList = "ies".toList := rfl
  have hy : lower ['y'] = ['y'] := rfl
  rcases h with rfl | rfl | ⟨stem, rfl, rfl⟩
  · rw [lower_append_eq_iff, and_iff_left hs]
  · rw [lower_append_eq_iff, and_iff_left hes]
  · rw [lower_append_eq_iff, lower_append_eq_iff, and_iff_left hy, and_iff_left hies]

theorem lower_of_mem_numberVariants {variant : List Char} (h : variant ∈ numberVariants cs) :
    lower variant = variant := by
  rcases mem_numberVariants.1 h with h | ⟨h, -⟩
  · exact h.lower_eq_iff.1 (lower_lower cs)
  · exact h.lower_eq_iff.2 (lower_lower cs)

/-! ### Names that lead to each other -/

section

variable (a b : String)

theorem isCounterpart_iff_mem : IsCounterpart a b ↔ lower b.toList ∈ numberVariants a.toList := by
  constructor
  · rintro ⟨variant, hmem, hlower⟩
    rw [← hlower, lower_of_mem_numberVariants hmem]
    exact hmem
  · intro hmem
    exact ⟨_, hmem, lower_lower _⟩

theorem isCounterpart_one_way : IsCounterpart a b ∧ ¬ IsCounterpart b a ↔ LeadsOneWay a b := by
  simp only [isCounterpart_iff_mem, mem_numberVariants, LeadsOneWay]
  constructor
  · rintro ⟨h | ⟨h, -⟩, hback⟩
    · by_contra hone
      exact hback (.inr ⟨h, hone⟩)
    · exact absurd (.inl h) hback
  · intro hone
    refine ⟨.inl hone.isPlural, ?_⟩
    rintro (h | ⟨-, h⟩)
    · exact hone.isPlural.asymm h
    · exact h hone

theorem leadsTo_iff : LeadsTo a b ↔ lower a.toList = lower b.toList ∨ IsCounterpart a b := by
  rw [LeadsTo, sameIgnoringCase_iff, ← isCounterpart_iff_mem, ← or_assoc, eq_comm (a := lower _)]
  refine or_congr_left (or_iff_right_of_imp ?_)
  rintro rfl
  rfl

/-- Names that differ in case only lead to each other, so that it is their counterparts that may lead
one way. -/
theorem leadsTo_one_way : LeadsTo a b ∧ ¬ LeadsTo b a ↔ LeadsOneWay a b := by
  rw [← isCounterpart_one_way, leadsTo_iff, leadsTo_iff, eq_comm]
  constructor
  · rintro ⟨h, hback⟩
    obtain ⟨hne, hback⟩ := not_or.1 hback
    exact ⟨h.resolve_left hne, hback⟩
  · intro h
    have hlength := ((isCounterpart_one_way a b).1 h).isPlural.length_lt
    refine ⟨.inr h.1, not_or.2 ⟨fun heq ↦ ?_, h.2⟩⟩
    rw [heq] at hlength
    exact Nat.lt_irrefl _ hlength

end

namespace Schema

variable {s : Schema} {a b : String}

theorem resolver_collection_eq_error :
    s.resolver.collection b = .error ⟨b⟩ ↔ s.findCollection? b = none := by
  have hcollection : s.resolver.collection b = (s.collection b).map EntitySet.name := rfl
  rw [hcollection, Schema.collection]
  cases s.findCollection? b with
  | none => exact iff_of_true rfl rfl
  | some c => simp [Except.map]

theorem isSome_findCollection?_of_names (h : s.names = [a]) :
    (s.findCollection? b).isSome ↔ LeadsTo b a := by
  rw [isSome_findCollection?, h]
  simp only [List.mem_singleton, exists_eq_left]

theorem collection_eq_error_of_names (h : s.names = [a]) :
    s.resolver.collection b = .error ⟨b⟩ ↔ ¬ LeadsTo b a := by
  rw [resolver_collection_eq_error, ← isSome_findCollection?_of_names h, Option.not_isSome_iff_eq_none]

theorem collection_eq_ok_of_names (h : s.names = [a]) :
    s.resolver.collection b = .ok a ↔ LeadsTo b a := by
  rw [resolver_collection_eq_ok, ← isSome_findCollection?_of_names h]
  constructor
  · rintro ⟨c, hc, -⟩
    exact Option.isSome_of_eq_some hc
  · intro hsome
    obtain ⟨c, hc⟩ := Option.isSome_iff_exists.1 hsome
    have hname : c.name ∈ s.names := List.mem_map_of_mem (mem_of_findByName hc)
    rw [h, List.mem_singleton] at hname
    exact ⟨c, hc, hname⟩

/-- Counterparts are so of each other, except for the plurals of nouns in `i` or `ie`; and a schema with
one collection finds by the name of another one's what that one finds by its own, with the same exception.
A noun in `i` or `ie` leads to its plural, but the plural is not known where there is the noun alone. -/
theorem counterpart_comm_iff (a b : String) :
    ((IsCounterpart a b ↔ IsCounterpart b a) ↔ ¬ LeadsOneWay a b ∧ ¬ LeadsOneWay b a) ∧
      ∀ s t : Schema, s.names = [a] → t.names = [b] →
        ((s.resolver.collection b = .ok a ↔ t.resolver.collection a = .ok b) ↔
            ¬ LeadsOneWay a b ∧ ¬ LeadsOneWay b a) ∧
          (LeadsOneWay a b →
            t.resolver.collection a = .ok b ∧ s.resolver.collection b = .error ⟨b⟩) := by
  constructor
  · rw [← isCounterpart_one_way, ← isCounterpart_one_way, not_and_not_right, not_and_not_right]
    exact iff_iff_implies_and_implies
  · intro s t hs ht
    rw [collection_eq_ok_of_names hs, collection_eq_ok_of_names ht, collection_eq_error_of_names hs]
    constructor
    · rw [← leadsTo_one_way, ← leadsTo_one_way, not_and_not_right, not_and_not_right, and_comm]
      exact iff_iff_implies_and_implies
    · exact (leadsTo_one_way a b).2

/-- A schema with nothing but a collection of this name. -/
def singleton (name : String) : Schema :=
  (empty "NS").addCollection name

theorem counterpart_comm_iff_categories :
    ((singleton "Category").names = ["Category"] ∧ (singleton "Categories").names = ["Categories"]) ∧
      ((singleton "Category").resolver.collection "Categories" = .ok "Category" ↔
        (singleton "Categories").resolver.collection "Category" = .ok "Categories") := by
  have hcategory : ¬ LeadsOneWay "Category" "Categories" := not_isOneWay_append_y "categor".toList _
  have hcategories : ¬ LeadsOneWay "Categories" "Category" := fun h ↦
    absurd h.isPlural.length_lt (by decide)
  obtain ⟨-, hschemas⟩ := counterpart_comm_iff "Category" "Categories"
  exact ⟨⟨rfl, rfl⟩, (hschemas _ _ rfl rfl).1.2 ⟨hcategory, hcategories⟩⟩

/-- A movie leads to movies, but movies do not lead to a movie. -/
theorem not_counterpart_movies :
    (IsCounterpart "Movie" "Movies" ∧ ¬ IsCounterpart "Movies" "Movie") ∧
      (singleton "Movies").resolver.collection "Movie" = .ok "Movies" ∧
        (singleton "Movie").resolver.collection "Movies" = .error ⟨"Movies"⟩ := by
  refine ⟨⟨?_, ?_⟩, rfl, rfl⟩
  · decide
  · decide

end Schema

end OData
