import Mathlib.Data.List.Pairwise
import OData.Proofs.Fields
import OData.Proofs.Response.Builder

/-!
Nodes that are the same as maps: the order in which fields, and the annotations of links, stand in an
entry does not count. An entry that is made by the same effects in another order is the same, provided
that no two of them touch the same thing.
-/

namespace OData

/-- Values that are the same but for the order of the fields in records. -/
inductive Value.Same : Value → Value → Prop
  | refl (v : Value) : Same v v
  | collection {items items' : List Value} (h : List.Forall₂ Same items items') :
    Same (.collection items) (.collection items')
  | record {fields fields' : Record}
    (h : ∀ name, Option.Rel Same (Fields.find? name fields) (Fields.find? name fields')) :
    Same (.record fields) (.record fields')

mutual

inductive EntryAnnotations.Same : EntryAnnotations → EntryAnnotations → Prop
  | mk {own : EntryFacts} {links links' : List (String × LinkAnnotations)}
    (h : ∀ name,
      Option.Rel LinkAnnotations.Same (Fields.find? name links) (Fields.find? name links')) :
    EntryAnnotations.Same ⟨own, links⟩ ⟨own, links'⟩

inductive LinkAnnotations.Same : LinkAnnotations → LinkAnnotations → Prop
  | mk {feed : FeedAnnotations} {entries entries' : List EntryAnnotations}
    (h : List.Forall₂ EntryAnnotations.Same entries entries') :
    LinkAnnotations.Same ⟨feed, entries⟩ ⟨feed, entries'⟩

end

structure Entry.Same (e e' : Entry) : Prop where
  data : ∀ name, Option.Rel Value.Same (Fields.find? name e.data) (Fields.find? name e'.data)
  annotations : e.annotations.Same e'.annotations

inductive Node.Same : Node → Node → Prop
  | entry {e e' : Entry} (h : e.Same e') : Same (.entry e) (.entry e')
  | feed {entries entries' : List Entry} {annotations : FeedAnnotations}
    (h : List.Forall₂ Entry.Same entries entries') :
    Same (.feed ⟨entries, annotations⟩) (.feed ⟨entries', annotations⟩)
  | value {v v' : Value} (h : v.Same v') : Same (.value v) (.value v')

section Reflexivity

mutual

theorem EntryAnnotations.Same.refl (a : EntryAnnotations) : a.Same a := by
  obtain ⟨own, links⟩ := a
  refine .mk fun name ↦ ?_
  cases hfind : Fields.find? name links with
  | none => exact .none
  | some link =>
    have hlink := List.sizeOf_lt_of_mem (Fields.mem_of_find? hfind)
    exact .some (LinkAnnotations.Same.refl link)
termination_by sizeOf a
decreasing_by
  simp only [EntryAnnotations.mk.sizeOf_spec, Prod.mk.sizeOf_spec] at hlink ⊢
  omega

theorem LinkAnnotations.Same.refl (a : LinkAnnotations) : a.Same a := by
  obtain ⟨feed, entries⟩ := a
  exact .mk (List.forall₂_same.2 fun entry hentry ↦ EntryAnnotations.Same.refl entry)
termination_by sizeOf a
decreasing_by
  have hsize := List.sizeOf_lt_of_mem hentry
  simp only [LinkAnnotations.mk.sizeOf_spec]
  omega

end

theorem Entry.Same.refl (e : Entry) : e.Same e := by
  refine ⟨fun name ↦ ?_, .refl _⟩
  cases Fields.find? name e.data with
  | none => exact .none
  | some v => exact .some (.refl v)

theorem Node.Same.refl (n : Node) : n.Same n := by
  cases n with
  | entry e => exact .entry (.refl e)
  | feed f => exact .feed (List.forall₂_same.2 fun e _ ↦ .refl e)
  | value v => exact .value (.refl v)

end Reflexivity

section Empty

variable {α : Type} {R : α → α → Prop} {fields fields' : List (String × α)}

theorem Fields.isEmpty_iff : fields.isEmpty ↔ ∀ name, find? name fields = none := by
  cases fields with
  | nil => simp [find?]
  | cons m rest =>
    refine iff_of_false Bool.false_ne_true fun h ↦ ?_
    have hm := h m.1
    rw [find?, if_pos rfl] at hm
    contradiction

theorem Fields.isEmpty_congr
    (h : ∀ name, Option.Rel R (find? name fields) (find? name fields')) :
    fields.isEmpty = fields'.isEmpty := by
  rw [Bool.eq_iff_iff, isEmpty_iff, isEmpty_iff]
  refine forall_congr' fun name ↦ ?_
  have hname := h name
  revert hname
  generalize find? name fields = found
  generalize find? name fields' = found'
  rintro (_ | _) <;> simp

end Empty

theorem EntryAnnotations.Same.of_eq {a a' : EntryAnnotations} (hown : a.own = a'.own)
    (h : ∀ name,
      Option.Rel LinkAnnotations.Same (Fields.find? name a.links) (Fields.find? name a'.links)) :
    a.Same a' := by
  obtain ⟨own, links⟩ := a
  obtain ⟨own', links'⟩ := a'
  obtain rfl := hown
  exact .mk h

theorem EntryAnnotations.Same.own_eq {a a' : EntryAnnotations} (h : a.Same a') : a.own = a'.own := by
  obtain ⟨-⟩ := h
  rfl

theorem EntryAnnotations.Same.isEmpty_eq {a a' : EntryAnnotations} (h : a.Same a') :
    a.isEmpty = a'.isEmpty := by
  obtain ⟨h⟩ := h
  rw [EntryAnnotations.isEmpty, EntryAnnotations.isEmpty, Fields.isEmpty_congr h]

theorem LinkAnnotations.Same.isEmpty_eq {a a' : LinkAnnotations} (h : a.Same a') :
    a.isEmpty = a'.isEmpty := by
  obtain ⟨h⟩ := h
  rw [LinkAnnotations.isEmpty, LinkAnnotations.isEmpty]
  congr 1
  induction h with
  | nil => rfl
  | cons he _ ih => rw [List.all_cons, List.all_cons, he.isEmpty_eq, ih]

theorem LinkAnnotations.Same.merge {a a' later later' : LinkAnnotations} (h : a.Same a')
    (hlater : later.Same later') : (a.merge later).Same (a'.merge later') := by
  cases h with
  | mk h =>
    cases hlater with
    | mk hlater => exact .mk (List.rel_append h hlater)

theorem LinkAnnotations.Same.note {a a' : LinkAnnotations} (h : a.Same a') (n : FeedNote) :
    ((LinkMark.note n).apply a).Same ((LinkMark.note n).apply a') := by
  cases h with
  | mk h => exact .mk h

/-- The note that takes back what a note says. -/
def EntryNote.cleared : EntryNote → EntryNote
  | id _ => id none
  | typeName _ => typeName none
  | etag _ => etag none
  | editLink _ => editLink none
  | readLink _ => readLink none
  | mediaReadLink _ => mediaReadLink none
  | mediaEditLink _ => mediaEditLink none
  | mediaContentType _ => mediaContentType none
  | mediaEtag _ => mediaEtag none

def FeedNote.cleared : FeedNote → FeedNote
  | count _ => count none
  | nextLink _ => nextLink none
  | deltaLink _ => deltaLink none

theorem EntryNote.apply_comm {a b : EntryNote} (h : a.cleared ≠ b.cleared) (own : EntryFacts) :
    b.apply (a.apply own) = a.apply (b.apply own) := by
  cases a <;> cases b <;> first | rfl | exact absurd rfl h

theorem FeedNote.apply_comm {a b : FeedNote} (h : a.cleared ≠ b.cleared) (feed : FeedAnnotations) :
    b.apply (a.apply feed) = a.apply (b.apply feed) := by
  cases a <;> cases b <;> first | rfl | exact absurd rfl h

/-- A note that the annotations set later say nothing of may as well come after them. -/
theorem FeedNote.merge_apply {a : FeedNote} {later : FeedAnnotations}
    (h : a.cleared.apply later = later) (feed : FeedAnnotations) :
    (a.apply feed).merge later = a.apply (feed.merge later) := by
  rw [← h]
  cases a <;> rfl

/-- Marks that touch different annotations of a link. -/
def LinkMark.Apart : LinkMark → LinkMark → Prop
  | note a, note b => a.cleared ≠ b.cleared
  | note a, closed link => a.cleared.apply link.feed = link.feed
  | closed link, note a => a.cleared.apply link.feed = link.feed
  | closed _, closed _ => False

theorem LinkMark.Apart.symm {m m' : LinkMark} (h : m.Apart m') : m'.Apart m := by
  cases m <;> cases m'
  case note.note => exact Ne.symm h
  all_goals exact h

theorem LinkMark.apply_comm {m m' : LinkMark} (h : m.Apart m') (link : LinkAnnotations) :
    m'.apply (m.apply link) = m.apply (m'.apply link) := by
  cases m with
  | note a =>
    cases m' with
    | note b => simp only [apply, FeedNote.apply_comm h]
    | closed later => simp only [apply, LinkAnnotations.merge, FeedNote.merge_apply h]
  | closed later =>
    cases m' with
    | note b => simp only [apply, LinkAnnotations.merge, FeedNote.merge_apply h]
    | closed _ => contradiction

namespace Effect

/-- Effects that touch different things. -/
def Apart : Effect → Effect → Prop
  | assign name _, assign other _ => name ≠ other
  | note a, note b => a.cleared ≠ b.cleared
  | mark name m, mark other m' => name = other → m.Apart m'
  | _, _ => True

instance : Std.Symm Apart where
  symm x y h := by
    cases x <;> cases y
    case assign.assign => exact Ne.symm h
    case note.note => exact Ne.symm h
    case mark.mark => exact fun hname ↦ (h hname.symm).symm
    all_goals trivial

/-- Effects that are the same but for the order in what they bring along. -/
inductive Same : Effect → Effect → Prop
  | assign (name : String) {v v' : Value} (h : v.Same v') : Same (assign name v) (assign name v')
  | note (a : EntryNote) : Same (note a) (note a)
  | linkNote (name : String) (a : FeedNote) : Same (mark name (.note a)) (mark name (.note a))
  | closed (name : String) {link link' : LinkAnnotations} (h : link.Same link') :
    Same (mark name (.closed link)) (mark name (.closed link'))

theorem Same.refl (x : Effect) : x.Same x := by
  cases x with
  | assign name v => exact .assign name (.refl v)
  | note a => exact .note a
  | mark name m =>
    cases m with
    | note a => exact .linkNote name a
    | closed link => exact .closed name (.refl link)

/-- The value of a field after an effect. -/
def assigned (name : String) (found : Option Value) : Effect → Option Value
  | assign other v => if other = name then some v else found
  | _ => found

def noted (own : EntryFacts) : Effect → EntryFacts
  | note a => a.apply own
  | _ => own

/-- The annotations of a link after an effect. -/
def marked (name : String) (found : Option LinkAnnotations) : Effect → Option LinkAnnotations
  | mark other m => if other = name then some (m.apply (found.getD .empty)) else found
  | _ => found

theorem find?_fields (name : String) (effects : List Effect) :
    Fields.find? name (fields effects) = effects.foldl (assigned name) none := by
  suffices h : ∀ record, Fields.find? name (Fields.putAll (effects.filterMap assignment?) record) =
      effects.foldl (assigned name) (Fields.find? name record) from h []
  intro record
  induction effects generalizing record with
  | nil => rfl
  | cons e rest ih =>
    cases e with
    | assign other v =>
      have hput := ih (Fields.put other v record)
      rw [Fields.find?_put_eq] at hput
      exact hput
    | _ => exact ih record

theorem own_annotations (effects : List Effect) :
    (annotations effects).own = effects.foldl noted {} := by
  suffices h : ∀ own, (effects.filterMap note?).foldl EntryNote.apply own =
      effects.foldl noted own from h {}
  intro own
  induction effects generalizing own with
  | nil => rfl
  | cons e rest ih =>
    cases e with
    | note a => exact ih _
    | _ => exact ih own

theorem find?_links (name : String) (effects : List Effect) :
    Fields.find? name (annotations effects).links = effects.foldl (marked name) none := by
  suffices h : ∀ links, Fields.find? name ((effects.filterMap mark?).foldl
      (fun links m ↦ Fields.alter m.1 .empty (m.2.apply ·) links) links) =
      effects.foldl (marked name) (Fields.find? name links) from h []
  intro links
  induction effects generalizing links with
  | nil => rfl
  | cons e rest ih =>
    cases e with
    | mark other m =>
      have halter := ih (Fields.alter other .empty (m.apply ·) links)
      have hfind : Fields.find? name (Fields.alter other .empty (m.apply ·) links) =
          marked name (Fields.find? name links) (mark other m) := by
        rw [Fields.alter, Fields.find?_put_eq, marked]
        split
        · rename_i hname
          rw [hname]
        · rfl
      rw [hfind] at halter
      exact halter
    | _ => exact ih links

section

variable {x y : Effect} (h : x.Apart y)
include h

theorem assigned_comm (name : String) (found : Option Value) :
    assigned name (assigned name found x) y = assigned name (assigned name found y) x := by
  cases x <;> cases y
  case assign.assign n v n' v' =>
    simp only [assigned]
    split
    · split
      · rename_i h₁ h₂
        exact absurd (h₂.trans h₁.symm) h
      · rfl
    · rfl
  all_goals rfl

theorem noted_comm (own : EntryFacts) : noted (noted own x) y = noted (noted own y) x := by
  cases x <;> cases y
  case note.note a b => exact EntryNote.apply_comm h own
  all_goals rfl

theorem marked_comm (name : String) (found : Option LinkAnnotations) :
    marked name (marked name found x) y = marked name (marked name found y) x := by
  cases x <;> cases y
  case mark.mark n m n' m' =>
    by_cases hn : n = name
    · by_cases hn' : n' = name
      · simp only [marked, hn, hn', if_true, Option.getD_some]
        rw [LinkMark.apply_comm (h (hn.trans hn'.symm))]
      · simp only [marked, hn, hn', if_false, if_true]
    · simp only [marked, hn, if_false]
  all_goals rfl

end

section

variable {effects effects' : List Effect} {α : Type} {step : α → Effect → α} {R : α → α → Prop}

/-- What a fold over effects comes to, where those that are apart commute and those that are the same
lead from related to related. -/
theorem foldl_rel (h : UpToOrder Same effects effects') (hapart : effects.Pairwise Apart)
    (hcomm : ∀ x y, Apart x y → ∀ a, step (step a x) y = step (step a y) x)
    (hstep : ∀ a a' x y, R a a' → Same x y → R (step a x) (step a' y)) {a : α} (ha : R a a) :
    R (effects.foldl step a) (effects'.foldl step a) := by
  obtain ⟨ordered, hordered, h⟩ := h
  have hswap : ∀ x ∈ effects, ∀ y ∈ effects, ∀ a, step (step a x) y = step (step a y) x := by
    intro x hx y hy a
    by_cases hxy : x = y
    · rw [hxy]
    · exact hcomm x y (hapart.forall hx hy hxy) a
  rw [hordered.foldl_eq' hswap]
  exact List.rel_foldl (fun a a' ha x y hxy ↦ hstep a a' x y ha hxy) ha h

theorem assigned_rel {name : String} {found found' : Option Value} {x y : Effect}
    (hfound : Option.Rel Value.Same found found') (h : Same x y) :
    Option.Rel Value.Same (assigned name found x) (assigned name found' y) := by
  cases h with
  | assign other hv =>
    simp only [assigned]
    split
    · exact .some hv
    · exact hfound
  | _ => exact hfound

theorem marked_rel {name : String} {found found' : Option LinkAnnotations} {x y : Effect}
    (hfound : Option.Rel LinkAnnotations.Same found found') (h : Same x y) :
    Option.Rel LinkAnnotations.Same (marked name found x) (marked name found' y) := by
  have hbefore : (found.getD .empty).Same (found'.getD .empty) := by
    cases hfound with
    | some h => exact h
    | none => exact .mk .nil
  cases h with
  | linkNote other a =>
    simp only [marked]
    split
    · exact .some (hbefore.note a)
    · exact hfound
  | closed other hlink =>
    simp only [marked]
    split
    · exact .some (hbefore.merge hlink)
    · exact hfound
  | _ => exact hfound

/-- The same effects in any order make the same entry, where they are apart. -/
theorem entry_same (h : UpToOrder Same effects effects') (hapart : effects.Pairwise Apart) :
    (entry id effects).Same (entry id effects') := by
  refine ⟨fun name ↦ ?_, ?_⟩
  · change Option.Rel _ (Fields.find? name (fields effects)) (Fields.find? name (fields effects'))
    rw [find?_fields, find?_fields]
    exact foldl_rel h hapart (fun x y hxy ↦ assigned_comm hxy name)
      (fun _ _ _ _ ↦ assigned_rel) .none
  · have hown : (annotations effects).own = (annotations effects').own := by
      rw [own_annotations, own_annotations]
      refine foldl_rel h hapart (fun x y hxy ↦ noted_comm hxy) ?_ rfl
      rintro own _ x y rfl hxy
      cases hxy <;> rfl
    have hlinks : ∀ name, Option.Rel LinkAnnotations.Same
        (Fields.find? name (annotations effects).links)
        (Fields.find? name (annotations effects').links) := by
      intro name
      rw [find?_links, find?_links]
      exact foldl_rel h hapart (fun x y hxy ↦ marked_comm hxy name) (fun _ _ _ _ ↦ marked_rel) .none
    exact .of_eq hown hlinks

end

end Effect

theorem Entry.Same.isEmpty_data {e e' : Entry} (h : e.Same e') : e.data.isEmpty = e'.data.isEmpty :=
  Fields.isEmpty_congr h.data

theorem Node.Same.linkValue? {n n' : Node} (h : n.Same n') :
    Option.Rel Value.Same (linkValue? (some n)) (linkValue? (some n')) := by
  cases h with
  | entry h =>
    simp only [OData.linkValue?, h.isEmpty_data]
    split
    · exact .none
    · exact .some (.record h.data)
  | @feed entries entries' _ h =>
    have hempty : entries.isEmpty = entries'.isEmpty := by
      cases h <;> rfl
    simp only [OData.linkValue?, hempty]
    split
    · exact .none
    · refine .some (.collection ?_)
      rw [List.forall₂_map_left_iff, List.forall₂_map_right_iff]
      exact h.imp fun _ _ he ↦ .record he.data
  | value => exact .none

theorem Node.Same.annotationsIn {n n' : Node} (h : n.Same n') :
    (annotationsIn (some n)).Same (annotationsIn (some n')) := by
  cases h with
  | entry h =>
    simp only [OData.annotationsIn, h.isEmpty_data]
    split
    · exact .mk .nil
    · exact .mk (.cons h.annotations .nil)
  | feed h =>
    refine .mk ?_
    rw [List.forall₂_map_left_iff, List.forall₂_map_right_iff]
    exact h.imp fun _ _ he ↦ he.annotations
  | value => exact .mk .nil

/-- Links to the same nodes have the same effects. -/
theorem linkEffects_same (name : String) {n n' : Node} (h : n.Same n') :
    List.Forall₂ Effect.Same (linkEffects name (some n)) (linkEffects name (some n')) := by
  have hassign : List.Forall₂ Effect.Same ((linkValue? (some n)).toList.map (.assign name))
      ((linkValue? (some n')).toList.map (.assign name)) := by
    rw [List.forall₂_map_left_iff, List.forall₂_map_right_iff]
    exact (forall₂_toList h.linkValue?).imp fun _ _ hv ↦ .assign name hv
  rw [linkEffects, linkEffects, h.annotationsIn.isEmpty_eq]
  refine List.rel_append hassign ?_
  split
  · exact .nil
  · exact .cons (.closed name h.annotationsIn) .nil

end OData
