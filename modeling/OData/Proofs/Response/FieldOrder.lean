import OData.Proofs.Json.DistinctNames
import OData.Proofs.Response.RecordData

/-!
The order of the fields of records that are read from JSON. It is the order in which they were sent, unless
a `d` at the root, or `results` in an object that expands, stand before other members: they come last then,
and the last member takes their place.
-/

namespace OData
namespace OfJson

/-! ### Documents in which no member is moved -/

/-- Where there is a member of that name, it stands behind all others. -/
def StandsLast (name : String) (members : Members) : Prop :=
  name ∉ (members.map Prod.fst).dropLast

/-- An object that stays as it is when `results` are looked for. -/
def IsSettled (members : Members) : Prop :=
  (resultsFeed? members).isSome ∨ StandsLast "results" members

/-- The reader finds the members of a document in their places: at the root `d` stands last, and in every
object `results`, unless they are an array. -/
structure InPlace (doc : Json) : Prop where
  root : ∀ members, doc = .object members → StandsLast "d" members
  objects : ∀ members ∈ doc.objects, IsSettled members

theorem movedLast_eq_self {name : String} {members : Members} (h : StandsLast name members) :
    movedLast name members = members := by
  rcases members.eq_nil_or_concat' with rfl | ⟨before, ⟨n, v⟩, rfl⟩
  · rfl
  · rw [StandsLast, List.map_append, List.map_singleton, List.dropLast_concat] at h
    unfold movedLast
    by_cases hn : n = name
    · rw [hn, Fields.take?_append_of_not_mem h]
    · have hnone : Fields.take? name (before ++ [(n, v)]) = none := by
        rw [Fields.take?_eq_none, List.map_append, List.mem_append, not_or]
        exact ⟨h, fun hmem ↦ hn (List.mem_singleton.1 hmem).symm⟩
      rw [hnone]

/-- A member that does not stand last changes places: the last one moves to where it was, and it moves
behind them all. -/
theorem movedLast_append {name : String} {before : Members} (h : name ∉ before.map Prod.fst)
    (v : Json) (between : Members) (last : String × Json) :
    movedLast name (before ++ (name, v) :: (between ++ [last])) =
      before ++ last :: (between ++ [(name, v)]) := by
  rw [movedLast, Fields.take?_append h]
  exact (List.append_assoc ..).trans (congrArg (before ++ ·) (List.cons_append ..))

namespace Part

/-- The objects inside a part are settled. -/
def IsSettled : Part → Prop
  | entry members => ∀ m ∈ members, ∀ o ∈ m.2.objects, OfJson.IsSettled o
  | feed items _ => ∀ item ∈ items, ∀ o ∈ item.objects, OfJson.IsSettled o

theorem arranged_taken (v : Json) (p : Part) : p.arranged .taken v = p := rfl

theorem isSettled_ofObject {members : Members}
    (h : ∀ o ∈ (Json.object members).objects, OfJson.IsSettled o) : (ofObject members).IsSettled := by
  obtain ⟨-, hmembers⟩ := Json.forall_objects_object.1 h
  unfold ofObject
  split
  · rename_i hfeed
    exact Json.forall_objects_array.1 (hmembers _ (mem_of_resultsFeed? hfeed))
  · exact fun m hm ↦ hmembers m (mem_of_mem_movedLast hm)

theorem arranged_ofObject {members : Members} (h : OfJson.IsSettled members) (a : Arrangement) :
    (ofObject members).arranged a (.object members) = ofObject members := by
  cases a with
  | taken => rfl
  | sent =>
    unfold ofObject
    split
    · rfl
    · rename_i hnone
      rw [OfJson.IsSettled, hnone] at h
      rw [movedLast_eq_self (h.resolve_left Bool.false_ne_true)]
      rfl

theorem settled_of_memberPart? {annotated : List (List Char)} {name : String} {v : Json} {p : Part}
    (h : memberPart? annotated name v = some p) (hv : ∀ o ∈ v.objects, OfJson.IsSettled o) :
    p.arranged .sent v = p ∧ p.IsSettled := by
  cases expands_of_memberPart? h with
  | object =>
    exact ⟨arranged_ofObject (Json.forall_objects_object.1 hv).1 .sent, isSettled_ofObject hv⟩
  | array => exact ⟨rfl, Json.forall_objects_array.1 hv⟩

theorem isSettled_of_mem_children {p child : Part} (h : child ∈ p.children) (hp : p.IsSettled) :
    child.IsSettled := by
  cases p with
  | entry members =>
    obtain ⟨m, hm, hpart⟩ := mem_children_entry.1 h
    exact (settled_of_memberPart? hpart (hp m hm)).2
  | feed items notes =>
    obtain ⟨item, hitem, members, rfl, rfl⟩ := mem_children_feed.1 h
    exact (Json.forall_objects_object.1 (hp _ hitem)).2

theorem data_of_isSettled {p : Part} (hp : p.IsSettled) : partData .sent p = partData .taken p := by
  induction p using Part.induction with
  | h p ih =>
  have hchild : ∀ child ∈ p.children, partData .sent child = partData .taken child :=
    fun child hmem ↦ ih child hmem (isSettled_of_mem_children hmem hp)
  cases p with
  | entry members =>
    rw [partData_entry, partData_entry, entryData_eq, entryData_eq]
    congr 1
    refine List.filterMap_congr fun m hm ↦ ?_
    obtain ⟨name, v⟩ := m
    dsimp only
    cases hpart : memberPart? (annotatedProperties members) name v with
    | none => rw [memberData?_of_none _ hpart, memberData?_of_none _ hpart]
    | some child =>
      rw [memberData?_of_some _ hpart, memberData?_of_some _ hpart,
        (settled_of_memberPart? hpart (hp _ hm)).1, arranged_taken,
        hchild child (mem_children_entry.2 ⟨_, hm, hpart⟩)]
  | feed items notes =>
    rw [partData_feed, partData_feed]
    congr 1
    refine List.filterMap_congr fun item hitem ↦ ?_
    cases item with
    | object members =>
      have hentry := hchild _ (mem_children_feed.2 ⟨_, hitem, members, rfl, rfl⟩)
      rw [partData_entry, partData_entry] at hentry
      exact congrArg some hentry
    | _ => rfl

end Part

theorem settled_of_rootContent {members : Members} {p : Part} (h : rootContent members = .part p)
    (hmembers : ∀ m ∈ members, ∀ o ∈ m.2.objects, IsSettled o) :
    p.arranged .sent (.object members) = p ∧ p.IsSettled := by
  unfold rootContent at h
  split at h
  · rename_i htake
    split at h
    · split at h
      · split at h
        · obtain rfl := Content.part.inj h
          exact ⟨rfl, Json.forall_objects_array.1 (hmembers _ (Fields.mem_of_take? htake).1)⟩
        · contradiction
      · contradiction
    · obtain rfl := Content.part.inj h
      exact ⟨rfl, hmembers⟩
  · obtain rfl := Content.part.inj h
    exact ⟨rfl, hmembers⟩

theorem eq_entry_of_verboseObjectContent {members : Members} {p : Part}
    (h : verboseObjectContent members = .part p) : p = .entry members := by
  unfold verboseObjectContent at h
  split at h
  · split at h
    · contradiction
    · exact (Content.part.inj h).symm
  · exact (Content.part.inj h).symm

theorem settled_of_verboseContent {v : Json} {p : Part} (h : verboseContent v = .part p)
    (hv : ∀ o ∈ v.objects, IsSettled o) : p.arranged .sent v = p ∧ p.IsSettled := by
  unfold verboseContent at h
  split at h
  · obtain rfl := Content.part.inj h
    exact ⟨rfl, Json.forall_objects_array.1 hv⟩
  · rename_i members
    have hpart : p = Part.ofObject members := by
      unfold Part.ofObject
      split at h
      · exact (Content.part.inj h).symm
      · exact eq_entry_of_verboseObjectContent h
    rw [hpart]
    exact ⟨Part.arranged_ofObject (Json.forall_objects_object.1 hv).1 .sent,
      Part.isSettled_ofObject hv⟩
  · contradiction

theorem settled_of_content {doc : Json} {p : Part} (h : content doc = .part p) (hdoc : InPlace doc) :
    p.arranged .sent (payload doc) = p ∧ p.IsSettled := by
  have hobjects := hdoc.objects
  unfold content at h
  split at h
  · rename_i members
    have hmembers := (Json.forall_objects_object.1 hobjects).2
    split at h
    · rename_i v htake
      have hpayload : payload (.object members) = v := by
        rw [payload, htake]
      rw [hpayload]
      exact settled_of_verboseContent h (hmembers _ (Fields.mem_of_take? htake).1)
    · rename_i hlone
      have hpayload : payload (.object members) = .object members := by
        rw [payload]
        split
        · exact absurd ‹_› (hlone _)
        · rfl
      rw [hpayload]
      rw [movedLast_eq_self (hdoc.root members rfl)] at h
      exact settled_of_rootContent h hmembers
  · obtain rfl := Content.part.inj h
    exact ⟨rfl, Json.forall_objects_array.1 hobjects⟩
  · contradiction

theorem documentData_of_inPlace {doc : Json} (h : InPlace doc) :
    documentData .sent doc = documentData .taken doc := by
  unfold documentData
  split
  · rename_i p hcontent
    obtain ⟨harranged, hsettled⟩ := settled_of_content hcontent h
    rw [harranged, Part.arranged_taken, Part.data_of_isSettled hsettled]
  · rfl

/-- The values that are read from a JSON document, each with its fields in the order in which the reader
takes the members: it is the order in which they were sent, apart from a `d` at the root and `results` in
an object that expands, which change places unless they stand last. A document is not read only if an
array that is taken as a feed unchecked holds an item that is no object. -/
theorem ofBody_data {body : String} {doc : Json} (hbody : Json.ofText? body = some doc) :
    (∃ n, Node.ofBody .json body = .ok n ∧ n.data = documentData .taken doc ∧
        (InPlace doc → n.data = documentData .sent doc)) ∨
      ∃ items item err, TakenUnchecked doc items ∧ item ∈ items ∧ item.isObject = false ∧
        Node.ofBody .json body = .error err := by
  have hdata := documentData_taken (Json.distinctNames_of_ofText? hbody)
  rw [ofBody_of_ofText? hbody]
  by_cases hstray : (content doc).HasStray
  · obtain ⟨err, herr⟩ := ofSignals_of_hasStray hstray
    obtain ⟨p, hp, item, hitem⟩ := hstray
    obtain ⟨items, htaken, hmem, hobject⟩ := exists_hasStray_iff.1 ⟨p, hp, hitem⟩
    exact .inr ⟨items, item, err, htaken, hmem, hobject, herr⟩
  · refine .inl ⟨_, ofSignals_of_not_hasStray hstray, hdata, fun h ↦ ?_⟩
    rw [documentData_of_inPlace h]
    exact hdata

/-- A `d` that stands first is read last, and so are the `results` of an object inside. -/
theorem ofBody_data_last : ∃ n, Node.ofBody .json
    "\x7b\"d\":1,\"a\":\x7b\"x\":2,\"results\":3,\"y\":4,\"z\":5\x7d,\"b\":6\x7d" = .ok n ∧
    n.data = .record [("b", .int32 6), ("a", .record [("x", .int32 2), ("z", .int32 5),
      ("y", .int32 4), ("results", .int32 3)]), ("d", .int32 1)] := by
  have hinner : entryData .taken [("x", .integer 2), ("z", .integer 5), ("y", .integer 4),
      ("results", .integer 3)] = [("x", .int32 2), ("z", .int32 5), ("y", .int32 4),
      ("results", .int32 3)] := by
    rw [entryData_of_plain .taken (by decide)]
    rfl
  have houter : entryData .taken [("b", .integer 6), ("a", .object [("x", .integer 2),
      ("results", .integer 3), ("y", .integer 4), ("z", .integer 5)]), ("d", .integer 1)] =
      [("b", .int32 6), ("a", .record [("x", .int32 2), ("z", .int32 5), ("y", .int32 4),
        ("results", .int32 3)]), ("d", .int32 1)] := by
    have hpart (annotated : List (List Char)) : memberPart? annotated "a" (.object [("x", .integer 2),
        ("results", .integer 3), ("y", .integer 4), ("z", .integer 5)]) =
          some (.entry [("x", .integer 2), ("z", .integer 5), ("y", .integer 4),
            ("results", .integer 3)]) := rfl
    rw [entryData_eq]
    simp only [List.filterMap_cons, List.filterMap_nil]
    rw [memberData?_of_none .taken rfl, memberData?_of_some _ (hpart _), Part.arranged_taken,
      partData_entry, hinner, memberData?_of_none .taken rfl]
    rfl
  rcases @ofBody_data
    "\x7b\"d\":1,\"a\":\x7b\"x\":2,\"results\":3,\"y\":4,\"z\":5\x7d,\"b\":6\x7d"
    (.object [("d", .integer 1), ("a", .object [("x", .integer 2), ("results", .integer 3),
      ("y", .integer 4), ("z", .integer 5)]), ("b", .integer 6)]) (by cbv) with
    ⟨n, hn, hdata, -⟩ | ⟨_, _, err, -, -, -, herr⟩
  · refine ⟨n, hn, hdata.trans ?_⟩
    exact (partData_entry .taken _).trans (congrArg Value.record houter)
  · have hfalse : Except.isOk _ = false := congrArg Except.isOk herr
    exact absurd hfalse (by decide +kernel)

/-- Fields do not always keep the order in which they were sent. -/
theorem not_data_as_sent : ¬ ∀ (body : String) (doc : Json) (n : Node), Json.ofText? body = some doc →
    Node.ofBody .json body = .ok n → n.data = documentData .sent doc := by
  intro hall
  have hbody : Json.ofText? "\x7b\"d\":1,\"a\":2,\"b\":3\x7d" =
      some (.object [("d", .integer 1), ("a", .integer 2), ("b", .integer 3)]) := by
    cbv
  have hstray : ¬ (content (.object [("d", .integer 1), ("a", .integer 2),
      ("b", .integer 3)])).HasStray := by
    rintro ⟨p, hp, item, hitem⟩
    obtain rfl := Content.part.inj hp
    obtain ⟨child, hchild, -⟩ := Part.hasStray_entry.1 hitem
    exact absurd hchild (List.not_mem_nil)
  have hok := (ofBody_of_ofText? hbody).trans (ofSignals_of_not_hasStray hstray)
  have hdata := hall _ _ _ hbody hok
  rw [documentData_taken (Json.distinctNames_of_ofText? hbody)] at hdata
  have htaken : documentData .taken (.object [("d", .integer 1), ("a", .integer 2),
      ("b", .integer 3)]) = .record [("b", .int32 3), ("a", .int32 2), ("d", .int32 1)] :=
    (partData_entry .taken _).trans (congrArg Value.record (entryData_of_plain .taken (by decide)))
  have hsent : documentData .sent (.object [("d", .integer 1), ("a", .integer 2),
      ("b", .integer 3)]) = .record [("d", .int32 1), ("a", .int32 2), ("b", .int32 3)] :=
    (partData_entry .sent _).trans (congrArg Value.record (entryData_of_plain .sent (by decide)))
  rw [htaken, hsent] at hdata
  have hnames := congrArg (fun fields ↦ fields.map Prod.fst) (Value.record.inj hdata)
  exact absurd hnames (by decide)

end OfJson
end OData
