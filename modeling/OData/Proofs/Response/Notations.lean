import OData.Proofs.Response.AtomDocument
import OData.Proofs.Response.Verbose

/-!
The three notations of one document. Their texts are read as the same node, but for what JSON has a use
of its own for: a member `__deferred`, and objects that lie too deep.
-/

namespace OData
namespace Source

open OfJson

theorem ofBody_text_of_deep {j : Json} (hj : j.Exact) (hdepth : Json.maxDepth < j.depth) :
    Node.ofBody .json j.text = .error .json := by
  have htext := Json.ofText?_text hj
  rw [if_neg (Nat.not_le_of_lt hdepth)] at htext
  rw [Node.ofBody, Node.ofBodyWith, PayloadFormat.signals, ofText, htext]
  rfl

/-- A text in JSON is read as what its content denotes, or refused for its depth. -/
theorem ofBody_text {j : Json} (hj : j.Exact) {p : Part} (hp : content j = .part p) {n : Node}
    (h : Denotes p n) :
    Node.ofBody .json j.text = if j.depth ≤ Json.maxDepth then .ok n else .error .json := by
  split
  · rename_i hdepth
    have htext := Json.ofText?_text hj
    rw [if_pos hdepth] at htext
    have hclean : ¬ (content j).HasStray := by
      rintro ⟨q, hq, item, hstray⟩
      obtain rfl := Content.part.inj (hp.symm.trans hq)
      exact h.clean item hstray
    rw [ofBody_of_ofText? htext, ofSignals_of_not_hasStray hclean, hp, ← h.node]
    rfl
  · rename_i hdepth
    exact ofBody_text_of_deep hj (Nat.lt_of_not_le hdepth)

/-- The three texts of a document are read as the same node, each name of it being plain in every
notation. Only a text in JSON that lies too deep is refused. -/
theorem ofBody_notations {d : Extent Item} (hd : WellFormed d) (hundeferred : Undeferred d) :
    ∃ n, (node d).Same n ∧
      Node.ofBody .json (light d).text =
        (if (light d).depth ≤ Json.maxDepth then .ok n else .error .json) ∧
      Node.ofBody .json (verbose d).text =
        (if (verbose d).depth ≤ Json.maxDepth then .ok (node d) else .error .json) ∧
      Node.ofBody .atom (atom d) = .ok (node d) := by
  obtain ⟨p, n, hlight, hp, hsame⟩ := exists_content_light hd hundeferred
  obtain ⟨q, hverbose, hq⟩ := exists_content_verbose hd hundeferred
  exact ⟨n, hsame, ofBody_text (exact_light hd) hlight hp, ofBody_text (exact_verbose hd) hverbose hq,
    ofBody_atom hd⟩

/-- A customer with one order; its last field has the name that verbose notation has at the root. -/
def customer : Item :=
  .mk {
    id := "Customers(1)"
    etag := some "W/1"
    links := [
      ("Orders", .feed ⟨some 1, none⟩
        [.mk { id := "Orders(7)", etag := none, links := [], fields := [("ID", .int32 7)] }]),
      ("Notes", .feed ⟨none, none⟩ [])]
    fields := [("d", .boolean true), ("Name", .string "Ana & Co"), ("Fax", .null)] }

theorem wellFormed_customer : customer.Every Shape.WellFormed := by
  refine .mk ⟨by decide, by decide, by decide, ?_⟩ ?_
  · intro name text htext
    have htext : text = "Ana & Co" := by
      simp at htext
      exact htext.2
    rw [htext]
    decide
  · refine List.forall_mem_cons.2 ⟨List.forall_mem_singleton.2 ?_, List.forall_mem_singleton.2 nofun⟩
    refine .mk ⟨by decide, by decide, by decide, ?_⟩ nofun
    intro name text htext
    simp at htext

theorem undeferred_customer : customer.Every Shape.Undeferred := by
  refine .mk ?_ ?_
  · intro name item hlink
    simp at hlink
  · refine List.forall_mem_cons.2 ⟨List.forall_mem_singleton.2 ?_, List.forall_mem_singleton.2 nofun⟩
    exact .mk nofun nofun

theorem ofBody_notations_customer : ∃ n, (node (.entry customer)).Same n ∧
    Node.ofBody .json (light (.entry customer)).text = .ok n ∧
    Node.ofBody .json (verbose (.entry customer)).text = .ok (node (.entry customer)) ∧
    Node.ofBody .atom (atom (.entry customer)) = .ok (node (.entry customer)) := by
  obtain ⟨n, hsame, hlight, hverbose, hatom⟩ := @ofBody_notations (.entry customer)
    (List.forall_mem_singleton.2 wellFormed_customer)
    (List.forall_mem_singleton.2 undeferred_customer)
  exact ⟨n, hsame, hlight.trans (if_pos (by decide)), hverbose.trans (if_pos (by decide)), hatom⟩

/-- The three texts of a document are read as the same node. -/
def Agrees (d : Extent Item) : Prop :=
  ∃ n n' n'', Node.ofBody .json (light d).text = .ok n ∧ Node.ofBody .json (verbose d).text = .ok n' ∧
    Node.ofBody .atom (atom d) = .ok n'' ∧ n''.Same n ∧ n''.Same n'

/-- An entry whose link leads to one with a field `__deferred`. -/
def deferring : Item :=
  .mk {
    id := "E"
    etag := none
    links := [("Nav", .entry
      (.mk { id := "F", etag := none, links := [], fields := [("__deferred", .int32 1)] }))]
    fields := [] }

/-- Entries inside each other. -/
def nested : Nat → Item
  | 0 => .mk ⟨"E", none, [], []⟩
  | depth + 1 => .mk ⟨"E", none, [("Nav", .entry (nested depth))], []⟩

theorem membersDepth_nested (depth : Nat) :
    Json.membersDepth ((nested depth).fold lightEntry) = depth := by
  induction depth with
  | zero => rfl
  | succ depth ih =>
    have hmembers : (nested (depth + 1)).fold lightEntry =
        [("@odata.id", .string "E"), ("@odata.editLink", .string "E"),
          ("Nav", .object ((nested depth).fold lightEntry))] := by
      rw [nested, Item.fold_mk]
      rfl
    rw [hmembers]
    simp only [Json.membersDepth, Json.depth, ih]
    omega

theorem wellFormed_deferring : deferring.Every Shape.WellFormed := by
  refine .mk ⟨by decide, by decide, by decide, nofun⟩ ?_
  refine List.forall_mem_singleton.2 (List.forall_mem_singleton.2 ?_)
  refine .mk ⟨by decide, by decide, by decide, ?_⟩ nofun
  intro name text htext
  simp at htext

theorem every_nested (depth : Nat) : (nested depth).Every fun s ↦ s.WellFormed ∧ s.Undeferred := by
  induction depth with
  | zero => exact .mk ⟨⟨by decide, by decide, by decide, nofun⟩, nofun⟩ nofun
  | succ depth ih =>
    have hnames : (nested depth).shape.names ⊆ ["Nav"] := by
      cases depth with
      | zero => exact nofun
      | succ depth => exact fun _ h ↦ h
    have hnav : IsFieldName "Nav" := by decide
    have hid : Xml.Unpadded "E".toList := by decide
    refine .mk ⟨⟨List.nodup_singleton _, List.forall_mem_singleton.2 hnav, hid, nofun⟩, ?_⟩ ?_
    · intro name item hlink
      obtain ⟨-, hitem⟩ := Prod.mk.inj (List.mem_singleton.1 hlink)
      obtain rfl := Extent.entry.inj hitem
      exact fun hmem ↦ absurd (hnames hmem) (by decide)
    · exact List.forall_mem_singleton.2 (List.forall_mem_singleton.2 ih)

theorem not_agrees_deferring : ¬ Agrees (.entry deferring) := by
  rintro ⟨n, n', n'', hlight, -, hatom, hsame, -⟩
  have hok : Node.ofBody .json (light (.entry deferring)).text =
      .ok (.entry ⟨[], ⟨{ id := some "E", editLink := some "E" }, []⟩⟩) := by
    cbv
  have hnode := ofBody_atom (d := .entry deferring) (List.forall_mem_singleton.2 wellFormed_deferring)
  obtain rfl := Except.ok.inj (hok.symm.trans hlight)
  obtain rfl := Except.ok.inj (hnode.symm.trans hatom)
  cases hsame with
  | entry hentry =>
    have hnav := hentry.data "Nav"
    have hfind : Fields.find? "Nav" deferring.entry.data = some (.record [("__deferred", .int32 1)]) :=
      rfl
    change Option.Rel Value.Same (Fields.find? "Nav" deferring.entry.data) none at hnav
    rw [hfind] at hnav
    cases hnav

theorem not_agrees_nested (depth : Nat) (hdepth : Json.maxDepth ≤ depth) :
    ¬ Agrees (.entry (nested depth)) := by
  rintro ⟨n, n', n'', hlight, -⟩
  have hexact : (light (.entry (nested depth))).Exact :=
    exact_light (List.forall_mem_singleton.2 ((every_nested depth).imp fun _ h ↦ h.1))
  have hlightDepth : (light (.entry (nested depth))).depth = depth + 1 :=
    congrArg (· + 1) (membersDepth_nested depth)
  have hrefused := ofBody_text_of_deep hexact (by rw [hlightDepth]; exact Nat.lt_succ_of_le hdepth)
  cases hrefused.symm.trans hlight

/-- JSON takes the field `__deferred` for the mark of a link that is not expanded, and it refuses
documents for their depth; Atom does neither. -/
theorem not_agrees : (WellFormed (.entry deferring) ∧ ¬ Agrees (.entry deferring)) ∧
    WellFormed (.entry (nested 127)) ∧ Undeferred (.entry (nested 127)) ∧
      ¬ Agrees (.entry (nested 127)) := by
  refine ⟨⟨?_, not_agrees_deferring⟩, ?_, ?_, not_agrees_nested 127 (by decide)⟩
  · exact List.forall_mem_singleton.2 wellFormed_deferring
  · exact List.forall_mem_singleton.2 ((every_nested 127).imp fun _ h ↦ h.1)
  · exact List.forall_mem_singleton.2 ((every_nested 127).imp fun _ h ↦ h.2)

end Source
end OData
