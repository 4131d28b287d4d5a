import Mathlib.Data.List.Nodup
import OData.Proofs.Response.Same

/-!
What the items of an entry say, by the annotations that they denote. Where each name is assigned once
and each annotation denoted once, no two effects touch the same thing.
-/

namespace OData

/-- An annotation, by its target and by what it annotates it with. -/
inductive Denoted
  | own (a : EntryNote)
  | feed (a : FeedNote)
  | linked (name : String) (a : FeedNote)
  deriving DecidableEq

def FeedItem.note? : FeedItem → Option FeedNote
  | note a => some a
  | entry _ => none

/-- The annotations of a feed denote the same, in a link, as those that stand beside the link. -/
def EntryItem.denoted : EntryItem → List Denoted
  | note a => [.own a.cleared]
  | linkNote name a => [.linked name a.cleared]
  | link name (some (.feed items)) =>
    (items.filterMap FeedItem.note?).map fun a ↦ .linked name a.cleared
  | _ => []

/-- The field that an item may assign. -/
def EntryItem.name? : EntryItem → Option String
  | field name _ => some name
  | link name _ => some name
  | _ => none

@[simp]
theorem FeedNote.cleared_cleared (a : FeedNote) : a.cleared.cleared = a.cleared := by
  cases a <;> rfl

theorem FeedItem.annotations_eq (items : List FeedItem) :
    annotations items = (items.filterMap note?).foldl FeedNote.apply {} := by
  rw [annotations]
  congr 2

/-- Notes say nothing of what none of them is about. -/
theorem FeedNote.cleared_apply_foldl {a : FeedNote} {notes : List FeedNote}
    (h : a.cleared ∉ notes.map cleared) (feed : FeedAnnotations) :
    a.cleared.apply (notes.foldl apply feed) = notes.foldl apply (a.cleared.apply feed) := by
  induction notes generalizing feed with
  | nil => rfl
  | cons b rest ih =>
    rw [List.map_cons, List.mem_cons, not_or] at h
    have hne : b.cleared ≠ a.cleared.cleared := by
      rw [cleared_cleared]
      exact Ne.symm h.1
    rw [List.foldl_cons, List.foldl_cons, ih h.2, apply_comm hne]

/-- Notes about different things may come in any order. -/
theorem FeedNote.foldl_apply_perm {notes notes' : List FeedNote} (hp : notes.Perm notes')
    (hn : (notes.map cleared).Nodup) (feed : FeedAnnotations) :
    notes.foldl apply feed = notes'.foldl apply feed := by
  refine hp.foldl_eq' (fun a ha b hb feed ↦ ?_) feed
  by_cases hab : a.cleared = b.cleared
  · rw [List.inj_on_of_nodup_map hn ha hb hab]
  · exact apply_comm hab feed

/-- What an effect is due to: the name that is assigned, or an annotation that is denoted. -/
def Effect.DueTo (name? : Option String) (denoted : List Denoted) : Effect → Prop
  | assign name _ => name? = some name
  | note a => .own a.cleared ∈ denoted
  | mark name (.note a) => .linked name a.cleared ∈ denoted
  | mark name (.closed link) => name? = some name ∧ ∀ a : FeedNote,
      .linked name a.cleared ∉ denoted → a.cleared.apply link.feed = link.feed

theorem Effect.DueTo.apart {name? name'? : Option String} {denoted denoted' : List Denoted}
    {x y : Effect} (hx : x.DueTo name? denoted) (hy : y.DueTo name'? denoted')
    (hnames : ∀ name, name? = some name → name'? ≠ some name)
    (hdenoted : denoted.Disjoint denoted') : x.Apart y := by
  cases x <;> cases y
  case assign.assign name v other w =>
    rintro rfl
    exact hnames _ hx hy
  case note.note a b =>
    intro heq
    rw [DueTo, heq] at hx
    exact hdenoted hx hy
  case mark.mark name m other m' =>
    rintro rfl
    cases m <;> cases m'
    case note.note a b =>
      intro heq
      rw [DueTo, heq] at hx
      exact hdenoted hx hy
    case note.closed a link => exact hy.2 a (hdenoted hx)
    case closed.note link a => exact hx.2 a fun h ↦ hdenoted h hy
    case closed.closed => exact hnames name hx.1 hy.1
  all_goals trivial

namespace EntryItem

variable {item : EntryItem} {items : List EntryItem}

theorem feed_annotationsIn (name : String) (content : Option NodeTree) (a : FeedNote)
    (h : .linked name a.cleared ∉ (link name content).denoted) :
    a.cleared.apply (annotationsIn (NodeTree.node? id content)).feed =
      (annotationsIn (NodeTree.node? id content)).feed := by
  have hempty : a.cleared.apply {} = {} := by
    cases a <;> rfl
  match content with
  | none => exact hempty
  | some (.entry inner) => exact hempty
  | some (.feed inner) =>
    have hnotes : a.cleared ∉ (inner.filterMap FeedItem.note?).map FeedNote.cleared := by
      intro hmem
      obtain ⟨b, hb, hcleared⟩ := List.mem_map.1 hmem
      exact h (List.mem_map.2 ⟨b, hb, by rw [hcleared]⟩)
    change a.cleared.apply (FeedItem.annotations inner) = FeedItem.annotations inner
    rw [FeedItem.annotations_eq, FeedNote.cleared_apply_foldl hnotes, hempty]

theorem dueTo_of_mem_effects {x : Effect} (h : x ∈ item.effects id) :
    x.DueTo item.name? item.denoted := by
  cases item with
  | field name v =>
    obtain rfl := List.mem_singleton.1 h
    rfl
  | note a =>
    obtain rfl := List.mem_singleton.1 h
    exact List.mem_singleton_self _
  | linkNote name a =>
    obtain rfl := List.mem_singleton.1 h
    exact List.mem_singleton_self _
  | link name content =>
    rcases List.mem_append.1 h with h | h
    · obtain ⟨v, -, rfl⟩ := List.mem_map.1 h
      rfl
    · split at h
      · contradiction
      · obtain rfl := List.mem_singleton.1 h
        exact ⟨rfl, feed_annotationsIn name content⟩

theorem pairwise_effects (item : EntryItem) : (item.effects id).Pairwise Effect.Apart := by
  cases item with
  | link name content =>
    refine List.pairwise_append.2 ⟨?_, ?_, ?_⟩
    · cases linkValue? (NodeTree.node? id content) with
      | none => exact .nil
      | some v => exact List.pairwise_singleton ..
    · split
      · exact .nil
      · exact List.pairwise_singleton ..
    · intro x hx y hy
      obtain ⟨v, -, rfl⟩ := List.mem_map.1 hx
      split at hy
      · contradiction
      · obtain rfl := List.mem_singleton.1 hy
        trivial
  | _ => exact List.pairwise_singleton ..

/-- Where no name is assigned twice and nothing denoted twice, the effects are apart. -/
theorem pairwise_allEffects (hnames : (items.filterMap name?).Nodup)
    (hdenoted : (items.flatMap denoted).Nodup) : (allEffects id items).Pairwise Effect.Apart := by
  rw [allEffects_eq, List.pairwise_flatMap]
  refine ⟨fun item _ ↦ item.pairwise_effects, ?_⟩
  have hapart := List.pairwise_filterMap.1 hnames
  refine (hapart.and (List.nodup_flatMap.1 hdenoted).2).imp fun {a b} h x hx y hy ↦ ?_
  refine (dueTo_of_mem_effects hx).apart (dueTo_of_mem_effects hy) (fun name ha hb ↦ ?_) h.2
  exact h.1 name ha name hb rfl

end EntryItem
end OData
