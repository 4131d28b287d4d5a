import OData.Proofs.Response.Builder

/-!
Runs that go on after errors. An event that fails is lost, and a failed end takes the innermost part
with it; what is left is read as if nothing else had been there. So a result is the node of a whole
document, also where some events have failed.
-/

namespace OData

/-- The events that have been read, by the part that they stand in: the innermost open part first, and
last what stands in no part. -/
abbrev Layers := List (List Event)

/-- Puts events behind those of the first layer. -/
def Layers.grow (es : List Event) : Layers → Layers
  | [] => [es]
  | inner :: outer => (inner ++ es) :: outer

namespace Event

def isStart : Event → Bool
  | startFeed | startEntry | startLink _ => true
  | _ => false

def isEnd : Event → Bool
  | endFeed | endEntry | endLink => true
  | _ => false

/-- An event that succeeds begins a part, or ends the innermost one, or stands in it. -/
def join (e : Event) (layers : Layers) : Layers :=
  if e.isStart then [e] :: layers
  else if e.isEnd then
    match layers with
    | [] => [[e]]
    | inner :: outer => Layers.grow (inner ++ [e]) outer
  else layers.grow [e]

/-- An event that fails is lost; an end is lost together with the innermost part. -/
def cut (e : Event) : Layers → Layers
  | inner :: around :: rest => if e.isEnd then around :: rest else inner :: around :: rest
  | layers => layers

end Event

namespace Builder

variable (convert : Converter)

/-- The state after some events, where the run goes on after each error. -/
def persist (b : Builder) (es : List Event) : Builder :=
  es.foldl (fun b e ↦ (b.step convert e).1) b

/-- The errors of such a run, in order. -/
def errors (b : Builder) : List Event → List ReadError
  | [] => []
  | e :: rest => (b.step convert e).2.toList ++ errors (b.step convert e).1 rest

/-- The layers after such a run, from those before it. -/
def layersAfter (b : Builder) (layers : Layers) : List Event → Layers
  | [] => layers
  | e :: rest =>
    layersAfter (b.step convert e).1
      (if (b.step convert e).2.isSome then e.cut layers else e.join layers) rest

/-- The events that are left when every event that fails is taken out, and with a failed end all of the
part that was innermost. -/
def remnant (es : List Event) : List Event :=
  (empty.layersAfter convert [[]] es).reverse.flatten

/-- The state that an event leaves when it fails. -/
def afterFailure (b : Builder) (e : Event) : Builder :=
  if e.isEnd then b.pop else b

variable {convert} {b b' : Builder} {e : Event} {err : ReadError}

theorem closeNode_of_error {node : Node} (h : b.closeNode node = (b', some err)) : b' = b := by
  unfold closeNode setResult at h
  split at h
  · split at h
    · exact (Prod.mk.inj h).1.symm
    · cases (Prod.mk.inj h).2
  · split at h
    · cases (Prod.mk.inj h).2
    · exact (Prod.mk.inj h).1.symm
  · split at h
    · exact (Prod.mk.inj h).1.symm
    · cases (Prod.mk.inj h).2
  · exact (Prod.mk.inj h).1.symm

/-- A failed event changes nothing, but for a failed end, which has closed the innermost part. -/
theorem step_of_error (h : b.step convert e = (b', some err)) : b' = b.afterFailure e := by
  cases e with
  | startFeed | startEntry | startLink name => cases (Prod.mk.inj h).2
  | endFeed =>
    simp only [step, endFeed] at h
    split at h
    · exact closeNode_of_error h
    · exact (Prod.mk.inj h).1.symm
  | endEntry =>
    simp only [step, endEntry] at h
    split at h
    · split at h
      · exact closeNode_of_error h
      · exact (Prod.mk.inj h).1.symm
    · exact (Prod.mk.inj h).1.symm
  | endLink =>
    simp only [step, endLink] at h
    split at h
    · split at h
      · cases (Prod.mk.inj h).2
      · exact (Prod.mk.inj h).1.symm
    · exact (Prod.mk.inj h).1.symm
  | field | entryNote | feedNote | linkNote =>
    simp only [step, setField, annotateEntry, annotateFeed, annotateLink] at h
    split at h
    · cases (Prod.mk.inj h).2
    · exact (Prod.mk.inj h).1.symm
  | value v =>
    simp only [step, setValue, setResult] at h
    split at h
    · split at h
      · exact (Prod.mk.inj h).1.symm
      · cases (Prod.mk.inj h).2
    · exact (Prod.mk.inj h).1.symm

end Builder

theorem Event.flatten_join (e : Event) (layers : Layers) :
    (e.join layers).reverse.flatten = layers.reverse.flatten ++ [e] := by
  unfold join
  split
  · simp
  · split
    · match layers with
      | [] => rfl
      | [inner] => simp [Layers.grow]
      | inner :: around :: rest => simp [Layers.grow]
    · cases layers <;> simp [Layers.grow]

theorem Event.flatten_cut_sublist (e : Event) (layers : Layers) :
    (e.cut layers).reverse.flatten.Sublist layers.reverse.flatten := by
  unfold cut
  split
  · split
    · simp
    · exact List.Sublist.refl _
  · exact List.Sublist.refl _

namespace Builder

variable {convert : Converter}

theorem flatten_layersAfter_sublist (b : Builder) (layers : Layers) (es : List Event) :
    (b.layersAfter convert layers es).reverse.flatten.Sublist (layers.reverse.flatten ++ es) := by
  induction es generalizing b layers with
  | nil => simp [layersAfter]
  | cons e rest ih =>
    refine (ih _ _).trans ?_
    split
    · exact (e.flatten_cut_sublist layers).append (List.sublist_cons_self e rest)
    · simp only [e.flatten_join, List.append_assoc, List.singleton_append, List.Sublist.refl]

/-- Every error costs an event. -/
theorem length_layersAfter (b : Builder) (layers : Layers) (es : List Event) :
    (b.layersAfter convert layers es).reverse.flatten.length + (b.errors convert es).length ≤
      layers.reverse.flatten.length + es.length := by
  induction es generalizing b layers with
  | nil => exact Nat.le_refl _
  | cons e rest ih =>
    have hrest := ih (b.step convert e).1
      (if (b.step convert e).2.isSome then e.cut layers else e.join layers)
    have hcut := (e.flatten_cut_sublist layers).length_le
    have hjoin := congrArg List.length (e.flatten_join layers)
    rw [layersAfter, errors]
    cases hstep : (b.step convert e).2 with
    | none =>
      simp only [hstep, Option.isSome_none, Bool.false_eq_true, if_false] at hrest
      simp only [List.length_append, List.length_singleton] at hjoin
      simp only [Option.toList_none, List.nil_append, List.length_cons, Option.isSome_none,
        Bool.false_eq_true, if_false]
      omega
    | some err =>
      simp only [hstep, Option.isSome_some, if_true] at hrest
      simp only [Option.toList_some, List.singleton_append, List.length_cons, Option.isSome_some,
        if_true]
      omega

theorem flatten_layersAfter_of_errors (b : Builder) (layers : Layers) {es : List Event}
    (h : b.errors convert es = []) :
    (b.layersAfter convert layers es).reverse.flatten = layers.reverse.flatten ++ es := by
  induction es generalizing b layers with
  | nil => simp [layersAfter]
  | cons e rest ih =>
    rw [errors, List.append_eq_nil_iff, Option.toList_eq_nil_iff] at h
    rw [layersAfter, h.1]
    simp only [Option.isSome_none, Bool.false_eq_true, if_false]
    rw [ih _ _ h.2, e.flatten_join, List.append_assoc, List.singleton_append]

/-- The signals of some events are taken in up to the first error. -/
theorem run_events (b : Builder) (es : List Event) :
    b.run convert (es.map .event) =
      (b.errors convert es).head?.elim (.ok (b.persist convert es)) .error := by
  induction es generalizing b with
  | nil => rfl
  | cons e rest ih =>
    rw [List.map_cons, run, errors, persist, List.foldl_cons]
    rcases b.step convert e with ⟨next, _ | err⟩
    · exact ih next
    · rfl

end Builder

namespace Assembly

def layers (a : Assembly) : Layers :=
  a.parts.map OpenTree.events ++ [a.root.elim [] Document.events]

/-- What has been read, without the part that a failed end takes with it. -/
def afterFailure (a : Assembly) (e : Event) : Assembly :=
  if e.isEnd then ⟨a.root, a.parts.tail⟩ else a

variable {convert : Converter} {a a' : Assembly} {e : Event}

theorem flatten_layers (a : Assembly) : a.layers.reverse.flatten = a.events := by
  simp [layers, events, List.flatMap_def]

theorem layers_afterFailure (a : Assembly) (e : Event) :
    (a.afterFailure e).layers = e.cut a.layers := by
  obtain ⟨root, parts⟩ := a
  match parts with
  | [] => simp [afterFailure, layers, Event.cut]
  | [part] => by_cases h : e.isEnd <;> simp [afterFailure, layers, Event.cut, h]
  | part :: around :: below => by_cases h : e.isEnd <;> simp [afterFailure, layers, Event.cut, h]

theorem builder_afterFailure (f : Record → Record) (a : Assembly) (e : Event) :
    (a.afterFailure e).builder f = (a.builder f).afterFailure e := by
  by_cases h : e.isEnd <;>
    simp [afterFailure, Builder.afterFailure, builder, Builder.pop, h]

theorem conversions_afterFailure (f : Record → Record) (a : Assembly) (e : Event) :
    (a.afterFailure e).conversions f <+: a.conversions f := by
  obtain ⟨root, parts⟩ := a
  by_cases h : e.isEnd
  · cases parts with
    | nil => simp [afterFailure, h]
    | cons part below => simp [afterFailure, h, conversions, ← List.append_assoc]
  · simp [afterFailure, h]

@[simp]
theorem layers_cons (root : Option Document) (part : OpenTree) (below : List OpenTree) :
    layers ⟨root, part :: below⟩ = part.events :: layers ⟨root, below⟩ :=
  rfl

theorem layers_of_close {t : NodeTree} (h : a.close t = some a') :
    a'.layers = a.layers.grow t.events := by
  cases closed_of_close h with
  | whole => rfl
  | inFeed => simp [Layers.grow, OpenTree.events, FeedItem.events, NodeTree.events]
  | inLink => simp [Layers.grow, OpenTree.events, NodeTree.eventsOf?]

theorem layers_of_addToEntry {item : EntryItem} (h : a.addToEntry item = some a') :
    a'.layers = a.layers.grow item.events := by
  obtain ⟨root, parts⟩ := a
  match parts with
  | .entry items :: below =>
    obtain rfl := Option.some.inj h
    simp [Layers.grow, OpenTree.events]

theorem layers_of_next (h : a.next e = some a') : a'.layers = e.join a.layers := by
  obtain ⟨root, parts⟩ := a
  cases e with
  | startFeed | startEntry | startLink name =>
    obtain rfl := Option.some.inj h
    rfl
  | endFeed =>
    match parts with
    | .feed items :: below =>
      rw [layers_of_close h, layers_cons]
      rfl
  | endEntry =>
    match parts with
    | .entry items :: below =>
      rw [layers_of_close h, layers_cons]
      rfl
  | endLink =>
    match parts with
    | .link name content :: below =>
      rw [layers_of_addToEntry h, layers_cons]
      rfl
  | field | entryNote | linkNote =>
    rw [layers_of_addToEntry h]
    rfl
  | feedNote n =>
    match parts with
    | .feed items :: below =>
      obtain rfl := Option.some.inj h
      simp [Event.join, Event.isStart, Event.isEnd, Layers.grow, OpenTree.events, FeedItem.events]
  | value v =>
    obtain ⟨hempty, rfl⟩ := of_next_value h
    rw [hempty]
    rfl

/-- Every stage of the reading is reached by reading the events that it has kept. -/
theorem read_events (a : Assembly) : empty.read a.events = some a := by
  obtain ⟨root, parts⟩ := a
  induction parts with
  | nil =>
    cases root with
    | none => rfl
    | some d => simpa [events] using read_eq_some_iff.2 (rfl : d.events = d.events)
  | cons part below ih =>
    have hevents : events ⟨root, part :: below⟩ = events ⟨root, below⟩ ++ part.events := by
      simp [events]
    rw [hevents, read_append, ih, Option.bind_some]
    cases part with
    | feed items => exact read_feedItems ⟨root, below⟩ [] items
    | entry items => exact read_entryItems ⟨root, below⟩ [] items
    | link name content => exact read_content ⟨root, below⟩ name content

/-- A run that goes on after errors is always beside a stage of the reading, the one that keeps the
layers of the run. -/
theorem persist_builder (a : Assembly) (ha : ∀ fields ∈ a.conversions convert.data, convert.Takes fields)
    (es : List Event) :
    ∃ a' : Assembly, (a.builder convert.data).persist convert es = a'.builder convert.data ∧
      a'.layers = (a.builder convert.data).layersAfter convert a.layers es ∧
      (∀ fields ∈ a'.conversions convert.data, convert.Takes fields) := by
  induction es generalizing a with
  | nil => exact ⟨a, rfl, rfl, ha⟩
  | cons e rest ih =>
    rw [Builder.persist, List.foldl_cons, Builder.layersAfter]
    rcases hstep : (a.builder convert.data).step convert e with ⟨b, _ | err⟩
    · obtain ⟨⟨next, hnext, rfl⟩, htakes⟩ := step_builder.1 hstep
      have hconversions := (of_next (f := convert.data) hnext).2
      have hn : ∀ fields ∈ next.conversions convert.data, convert.Takes fields := by
        intro fields hf
        rw [hconversions] at hf
        rcases List.mem_append.1 hf with hf | hf
        · exact ha fields hf
        · exact htakes fields (Option.mem_toList.1 hf)
      have hrest := ih next hn
      rw [layers_of_next hnext] at hrest
      exact hrest
    · obtain rfl := Builder.step_of_error hstep
      have hrest := ih (a.afterFailure e) fun fields hf ↦
        ha fields ((conversions_afterFailure convert.data a e).subset hf)
      rw [builder_afterFailure, layers_afterFailure] at hrest
      exact hrest

end Assembly

/-- A run that stops at its first error has that error and no result. One that goes on has a result just
where the events that are left make up a document, of whose entries the converter takes all, and the
result is the node of that document. What is left is some of the events in their order, and all of them
only where none has failed. -/
theorem finish_after_failures (convert : Converter) (es : List Event) :
    (∀ err ∈ (Builder.empty.errors convert es).head?,
      Node.ofSignals convert (es.map .event) = .error err) ∧
    (∀ node, (Builder.empty.persist convert es).finish = .ok node ↔
      ∃ d : Document, d.events = Builder.remnant convert es ∧
        (∀ fields ∈ d.conversions convert.data, convert.Takes fields) ∧
        d.node convert.data = node) ∧
    (Builder.remnant convert es).Sublist es ∧
    (Builder.remnant convert es = es ↔ Builder.empty.errors convert es = []) := by
  refine ⟨fun err herr ↦ ?_, fun node ↦ ?_, ?_, fun h ↦ ?_, fun h ↦ ?_⟩
  · rw [Node.ofSignals, Builder.run_events, Option.mem_def.1 herr]
    rfl
  · obtain ⟨a, hbuilder, hlayers, htakes⟩ :=
      @Assembly.persist_builder convert .empty nofun es
    have hevents : Builder.remnant convert es = a.events := by
      rw [← a.flatten_layers, hlayers]
      rfl
    rw [← Assembly.builder_empty convert.data, hbuilder, Assembly.finish_builder, hevents]
    constructor
    · rintro ⟨d, rfl, rfl⟩
      exact ⟨d, by simp [Assembly.events], by simpa [Assembly.conversions] using htakes, rfl⟩
    · rintro ⟨d, hd, -, rfl⟩
      have hread := Assembly.read_eq_some_iff.2 hd
      rw [a.read_events] at hread
      exact ⟨d, Option.some.inj hread, rfl⟩
  · exact Builder.flatten_layersAfter_sublist .empty [[]] es
  · have hlength := @Builder.length_layersAfter convert .empty [[]] es
    rw [← Builder.remnant, h] at hlength
    simp only [List.reverse_singleton, List.flatten_singleton, List.length_nil] at hlength
    exact List.eq_nil_of_length_eq_zero (by omega)
  · exact Builder.flatten_layersAfter_of_errors .empty [[]] h

/-- An entry whose link is ended as an entry. -/
def mismatched : List Event :=
  [.startEntry, .field "ID" (.int32 1), .startLink "Orders", .endEntry, .endEntry]

theorem finish_mismatched :
    Node.ofSignals .ok (mismatched.map .event) =
        .error (.malformed (.unmatchedEnd .entry (some .link))) ∧
      (Builder.empty.persist .ok mismatched).finish =
        .ok (.entry ⟨[("ID", .int32 1)], .empty⟩) ∧
      Builder.remnant .ok mismatched = [.startEntry, .field "ID" (.int32 1), .endEntry] := by
  obtain ⟨herror, hfinish, -, -⟩ := finish_after_failures .ok mismatched
  refine ⟨herror _ rfl, (hfinish _).2 ⟨.tree (.entry [.field "ID" (.int32 1)]), rfl, ?_, rfl⟩, rfl⟩
  exact fun fields _ ↦ ⟨fields, rfl⟩

theorem not_finish_error_of_error :
    ¬ ∀ (convert : Converter) (es : List Event), Builder.empty.errors convert es ≠ [] →
      ∃ err, (Builder.empty.persist convert es).finish = .error err := by
  intro h
  have herrors : Builder.empty.errors .ok mismatched =
      [.malformed (.unmatchedEnd .entry (some .link))] :=
    rfl
  obtain ⟨err, herr⟩ := h .ok mismatched (by simp [herrors])
  cases herr

end OData
