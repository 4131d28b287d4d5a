import Mathlib.Data.List.TakeWhile
import OData.Proofs.Address.Query

/-!
The shape of an address: its segments, the names of its options, and whether it has a fragment or a line
break. Addresses that are put together alike from parts of the same shape have the same shape.
-/

namespace OData

/-- The path of an address, up to the first question mark or number sign. -/
def uriPath (uri : List Char) : List Char :=
  uri.takeWhile fun c ↦ c ≠ '?' && c ≠ '#'

def uriSegments (uri : List Char) : List (List Char) :=
  Text.pieces (· = '/') (uriPath uri)

/-- The names of the options of an address, between the first question mark and the fragment. -/
def uriOptionNames (uri : List Char) : List (List Char) :=
  match Text.cutWhere? (· = '?') (uri.takeWhile (· ≠ '#')) with
  | some (_, query) => (readQuery query).map Clause.name
  | none => []

/-- The names in a query with one more character at its head. -/
def nameStep (c : Char) (names : List (List Char)) : List (List Char) :=
  if c = '#' then [[]]
  else if c = '&' then [] :: names
  else if c = '=' then [] :: names.tail
  else (c :: names.headD []) :: names.tail

theorem name_ofChars_cons (c : Char) (cs : List Char) :
    (Clause.ofChars (c :: cs)).name = if c = '=' then [] else c :: (Clause.ofChars cs).name := by
  simp only [Clause.ofChars, Text.cutWhere?]
  by_cases hc : c = '='
  · simp [hc]
  · simp only [hc, decide_false, if_false]
    cases Text.cutWhere? (fun c ↦ decide (c = '=')) cs <;> rfl

theorem names_takeWhile (query : List Char) :
    (readQuery (query.takeWhile (· ≠ '#'))).map Clause.name = query.foldr nameStep [[]] := by
  induction query with
  | nil => rfl
  | cons c query ih =>
    rw [List.foldr_cons, ← ih, nameStep]
    by_cases hfragment : c = '#'
    · simp [hfragment, readQuery, Text.pieces, Clause.ofChars, Text.cutWhere?]
    rw [if_neg hfragment, List.takeWhile_cons_of_pos (by simpa using hfragment)]
    simp only [readQuery, Text.pieces]
    by_cases hend : c = '&'
    · simp [hend, Clause.ofChars, Text.cutWhere?]
    · simp only [hend, decide_false, if_false]
      have hempty : (Clause.ofChars []).name = [] := rfl
      cases Text.pieces (fun c ↦ decide (c = '&')) (query.takeWhile (· ≠ '#')) <;>
        by_cases hc : c = '=' <;> simp [name_ofChars_cons, hc, hempty]

/-- Parts of a query that can stand for each other: neither adds or changes a name that the other does
not, wherever they stand. -/
structure Interchangeable (v w : List Char) : Prop where
  names : ∀ names, v.foldr nameStep names = w.foldr nameStep names
  marks : ∀ c ∈ ['#', '\r', '\n'], c ∈ v ↔ c ∈ w

/-- Parts of a path with as many segments and with the same marks. -/
structure SameSegments (v w : List Char) : Prop where
  empty : v = [] ↔ w = []
  slashes : v.count '/' = w.count '/'
  marks : ∀ c ∈ ['?', '#', '\r', '\n'], c ∈ v ↔ c ∈ w

theorem rel_intercalate {R : List Char → List Char → Prop} (hr : ∀ cs, R cs cs)
    (ha : ∀ {v w v' w'}, R v w → R v' w' → R (v ++ v') (w ++ w')) (separator : List Char)
    {vs ws : List (List Char)} (h : List.Forall₂ R vs ws) :
    R (List.intercalate separator vs) (List.intercalate separator ws) := by
  induction h with
  | nil => exact hr []
  | @cons v w vs ws hvw h ih =>
    cases h with
    | nil => simpa using hvw
    | cons =>
      rw [List.intercalate_cons_cons, List.intercalate_cons_cons]
      exact ha (ha hvw (hr separator)) ih

namespace Interchangeable

variable {v w v' w' : List Char}

theorem refl (cs : List Char) : Interchangeable cs cs :=
  ⟨fun _ ↦ rfl, fun _ _ ↦ Iff.rfl⟩

theorem append (h : Interchangeable v w) (h' : Interchangeable v' w') :
    Interchangeable (v ++ v') (w ++ w') where
  names names := by rw [List.foldr_append, List.foldr_append, h'.names, h.names]
  marks c hc := by rw [List.mem_append, List.mem_append, h.marks c hc, h'.marks c hc]

/-- Characters of a value leave all names but the first alone. -/
theorem tail_foldr_nameStep {cs : List Char} (h : '#' ∉ cs ∧ '&' ∉ cs) (names : List (List Char)) :
    (cs.foldr nameStep names).tail = names.tail := by
  induction cs with
  | nil => rfl
  | cons c cs ih =>
    simp only [List.mem_cons, not_or] at h
    obtain ⟨⟨hfragment, hf⟩, hend, he⟩ := h
    rw [List.foldr_cons, nameStep, if_neg (Ne.symm hfragment), if_neg (Ne.symm hend)]
    split
    · rw [List.tail_cons, ih ⟨hf, he⟩]
    · rw [List.tail_cons, ih ⟨hf, he⟩]

theorem value (hv : ∀ c ∈ Text.addressMarks, c ∉ v) (hw : ∀ c ∈ Text.addressMarks, c ∉ w) :
    Interchangeable ('=' :: v) ('=' :: w) where
  names names := by
    -- The equals sign ends the first name, and no character behind it has reached the others.
    have htail {cs : List Char} (h : ∀ c ∈ Text.addressMarks, c ∉ cs) :
        ('=' :: cs).foldr nameStep names = [] :: names.tail := by
      rw [List.foldr_cons, ← tail_foldr_nameStep ⟨h '#' (by decide), h '&' (by decide)⟩]
      rfl
    rw [htail hv, htail hw]
  marks c hc := by
    have hmarks : ∀ c ∈ ['#', '\r', '\n'], c ∈ Text.addressMarks ∧ c ≠ '=' := by
      simp [Text.addressMarks]
    obtain ⟨hmark, hne⟩ := hmarks c hc
    simp [hne, hv c hmark, hw c hmark]

theorem clause (name : List Char) (h : Interchangeable v w) :
    Interchangeable (Clause.chars ⟨name, v⟩) (Clause.chars ⟨name, w⟩) :=
  (refl name).append ((refl ['=']).append h)

/-- A clause with one escaped text or another. -/
theorem escaped (name : List Char) (mode : Text.EscapeMode) (v w : List Char) :
    Interchangeable (Clause.chars ⟨name, Text.escapeChars mode v⟩)
      (Clause.chars ⟨name, Text.escapeChars mode w⟩) :=
  (refl name).append (value (fun _ hc ↦ Text.not_mem_escapeChars hc mode v)
    (fun _ hc ↦ Text.not_mem_escapeChars hc mode w))

end Interchangeable

namespace SameSegments

variable {v w v' w' : List Char}

theorem refl (cs : List Char) : SameSegments cs cs :=
  ⟨Iff.rfl, rfl, fun _ _ ↦ Iff.rfl⟩

theorem append (h : SameSegments v w) (h' : SameSegments v' w') :
    SameSegments (v ++ v') (w ++ w') where
  empty := by rw [List.append_eq_nil_iff, List.append_eq_nil_iff, h.empty, h'.empty]
  slashes := by rw [List.count_append, List.count_append, h.slashes, h'.slashes]
  marks c hc := by rw [List.mem_append, List.mem_append, h.marks c hc, h'.marks c hc]

theorem addSegment {path path' segment segment' : List Char} (h : SameSegments path path')
    (hs : SameSegments segment segment') :
    SameSegments (addSegment path segment) (OData.addSegment path' segment') := by
  unfold OData.addSegment
  by_cases hempty : path = []
  · rw [if_pos hempty, if_pos (h.empty.1 hempty)]
    exact hs
  · rw [if_neg hempty, if_neg (mt h.empty.2 hempty)]
    exact h.append ((refl ['/']).append hs)

end SameSegments

theorem length_pieces (d : Char) (cs : List Char) :
    (Text.pieces (· = d) cs).length = cs.count d + 1 := by
  induction cs with
  | nil => rfl
  | cons c cs ih =>
    rw [Text.pieces]
    by_cases hc : c = d
    · simp [hc, ih]
    · simp only [hc, decide_false]
      cases hp : Text.pieces (fun c ↦ decide (c = d)) cs with
      | nil => simp [hp] at ih
      | cons piece rest => simpa [hp, hc] using ih

/-- The two addresses have as many segments and the same options, and a number sign or a line break
either both or neither. -/
structure SameShape (v w : List Char) : Prop where
  segments : (uriSegments v).length = (uriSegments w).length
  options : uriOptionNames v = uriOptionNames w
  marks : ∀ c ∈ ['#', '\r', '\n'], c ∈ v ↔ c ∈ w

theorem uriPath_chars {a : Address} (h : '?' ∉ a.path ∧ '#' ∉ a.path) : uriPath a.chars = a.path := by
  have hpath : ∀ c ∈ a.path, (c ≠ '?' && c ≠ '#') = true := by
    intro c hc
    have hne : c ≠ '?' ∧ c ≠ '#' := ⟨fun he ↦ h.1 (he ▸ hc), fun he ↦ h.2 (he ▸ hc)⟩
    simp [hne]
  unfold uriPath Address.chars
  split
  · exact List.takeWhile_eq_self_iff.2 hpath
  · rw [List.takeWhile_append_of_pos hpath]
    simp

theorem uriOptionNames_chars {a : Address} (h : '?' ∉ a.path ∧ '#' ∉ a.path) :
    uriOptionNames a.chars =
      if a.query = [] then []
      else (List.intercalate ['&'] (a.query.map Clause.chars)).foldr nameStep [[]] := by
  have hpath : ∀ c ∈ a.path, decide (c ≠ '#') = true := by
    intro c hc
    exact decide_eq_true fun he ↦ h.2 (he ▸ hc)
  have hquery : ∀ c ∈ a.path, decide (c = '?') = false := by
    intro c hc
    exact decide_eq_false fun he ↦ h.1 (he ▸ hc)
  unfold uriOptionNames Address.chars
  by_cases hempty : a.query = []
  · rw [if_pos hempty, if_pos hempty, List.takeWhile_eq_self_iff.2 hpath,
      Text.cutWhere?_eq_none hquery]
  · rw [if_neg hempty, if_neg hempty, List.takeWhile_append_of_pos hpath,
      List.takeWhile_cons_of_pos (by decide), Text.cutWhere?_append hquery (by rfl)]
    exact names_takeWhile _

theorem sameShape_chars {a b : Address} (hp : SameSegments a.path b.path)
    (hq : List.Forall₂ (fun c d ↦ Interchangeable (Clause.chars c) d.chars) a.query b.query)
    (h : '?' ∉ a.path ∧ '#' ∉ a.path) : SameShape a.chars b.chars := by
  have hb : '?' ∉ b.path ∧ '#' ∉ b.path := by
    rwa [← hp.marks '?' (by decide), ← hp.marks '#' (by decide)]
  have hquery : Interchangeable (List.intercalate ['&'] (a.query.map Clause.chars))
      (List.intercalate ['&'] (b.query.map Clause.chars)) := by
    refine rel_intercalate .refl .append ['&'] ?_
    rwa [List.forall₂_map_left_iff, List.forall₂_map_right_iff]
  have hempty : a.query = [] ↔ b.query = [] := by
    rw [← List.length_eq_zero_iff, hq.length_eq, List.length_eq_zero_iff]
  refine ⟨?_, ?_, ?_⟩
  · rw [uriSegments, uriSegments, uriPath_chars h, uriPath_chars hb, length_pieces, length_pieces,
      hp.slashes]
  · rw [uriOptionNames_chars h, uriOptionNames_chars hb, hquery.names]
    simp only [hempty]
  · intro c hc
    have hmark : c ∈ ['?', '#', '\r', '\n'] := List.mem_cons_of_mem '?' hc
    unfold Address.chars
    by_cases he : a.query = []
    · rw [if_pos he, if_pos (hempty.1 he)]
      exact hp.marks c hmark
    · rw [if_neg he, if_neg (mt hempty.2 he)]
      simp only [List.mem_append, List.mem_cons, hp.marks c hmark, hquery.marks c hc]

end OData
