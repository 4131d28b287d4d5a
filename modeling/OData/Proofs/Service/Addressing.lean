import OData.Client
import OData.Proofs.Service.Binding
import OData.Proofs.Service.Request
import OData.Proofs.Service.Unlinking

/-!
An entity that is addressed by a command, and the same entity by its address. An address says nothing
of a collection, so navigations from it stand as they are named, and each leads to one entity; where a
navigation is just that, the requests are the same.
-/

namespace OData.Service

variable (s : Service)

/-- Where the resource of a command is. -/
def addressOf (resource : Resource) : String :=
  s.absolute (String.ofList resource.path)

/-- An address that is not joined to that of the service. -/
def IsAbsolute (uri : String) : Prop :=
  s.baseUrl = "" ∨ Text.occursIn "://".toList uri.toList

/-- A navigation that is named in its exact spelling and leads to one entity. -/
def IsPlain (collection : Option String) (navigation : String) : Prop :=
  s.navigation collection navigation = .ok (navigation, false)

/-- How what is written at an address compares to what is written by a command, for an entity of a
collection. -/
structure WritesAlike (pending : List PendingEntity) (collection : Option String)
    (address command : Target) : Prop where
  update : ∀ (entry : Record) (links : List Link),
    (∀ link ∈ links, s.IsPlain collection link.navigation) →
      s.updateRequest pending address entry links = s.updateRequest pending command entry links
  /-- Of updates only the bodies may differ. -/
  outline : ∀ (entry : Record) (links : List Link) (r r' : Request),
    s.updateRequest pending address entry links = .ok r →
      s.updateRequest pending command entry links = .ok r' → r = { r' with body := r.body }
  /-- By a command no reference of a navigation to several entities is lost. -/
  kept : ∀ (entry : Record) (links : List Link) (r : Request),
    s.updateRequest pending command entry links = .ok r →
      ∃ members, r.body = some (Json.object members).text ∧
        ∀ link ∈ links, ∀ exact, s.navigation collection link.navigation = .ok (exact, true) →
          ∃ location, s.locate pending link.target = .ok location ∧
            Holds true (s.binding exact location.uri).1 (s.binding exact location.uri).2 members
  link : ∀ (navigation : String) (target : Target),
    s.linkRequest pending address navigation target =
        s.linkRequest pending command navigation target ↔
      s.IsPlain collection navigation ∨ ∃ e, s.locate pending target = .error e
  unlink : ∀ (navigation : String) (multivalued : Bool) (target : Option Target),
    s.navigation collection navigation = .ok (navigation, multivalued) →
      (s.unlinkRequest pending address navigation target =
          s.unlinkRequest pending command navigation target ↔
        multivalued = false ∨ ∀ t, target = some t →
          ∃ location, s.locate pending t = .ok location ∧ s.memberAddress location = .ok none)

variable {s} {pending : List PendingEntity} {command : Command} {resource : Resource}
  {collection : Option String}

theorem locate_entity (h : s.formatting.checkedResource command = .ok resource) :
    s.locate pending (.entity command) =
      .ok ⟨s.addressOf resource, resource.collection, command.clauses.key⟩ := by
  rw [locate, Except.bind_of_eq_ok h]
  rfl

theorem locate_uri {uri : String} (h : s.IsAbsolute uri) :
    s.locate pending (.uri uri) = .ok ⟨uri, none, none⟩ := by
  rw [locate]
  split
  · rfl
  · rename_i hscheme
    rw [absolute, if_pos (h.resolve_right hscheme)]

theorem ne_of_locate_uri {uri : String} {location : Location} (h : ¬ s.IsAbsolute uri)
    (hlocation : s.locate pending (.uri uri) = .ok location) : location.uri ≠ uri := by
  obtain ⟨hbase, hscheme⟩ := not_or.1 h
  rw [locate] at hlocation
  obtain rfl := Except.ok.inj hlocation
  rw [if_neg hscheme, absolute, if_neg hbase]
  -- the joined address is longer by the slash at least
  intro hjoined
  have hlength := congrArg String.length hjoined
  rw [String.length_append, String.length_append, show "/".length = 1 from rfl] at hlength
  omega

/-- The request that updates what is at an address. -/
def change (s : Service) (uri body : String) : Request :=
  s.withPreference ((s.writeRequest (match s.version with | .v3 => .merge | .v4 => .patch) uri
    body).withHeader "If-Match" "*")

theorem body_change (uri body : String) : (s.change uri body).body = some body := by
  rw [change, body_withPreference]
  rfl

theorem change_eq (uri body body' : String) :
    s.change uri body = { s.change uri body' with body := (s.change uri body).body } := by
  rw [change, change, withPreference, withPreference]
  split
  · cases s.version <;> rfl
  · rfl

theorem updateRequest_of_locate {target : Target} {location : Location} {entry : Record}
    {links : List Link} (h : s.locate pending target = .ok location) :
    s.updateRequest pending target entry links =
      (s.entityBody pending location.collection entry links).map (s.change location.uri) := by
  rw [updateRequest, Except.bind_of_eq_ok h]
  rfl

theorem bindLinks_of_plain {links : List Link}
    (h : ∀ link ∈ links, s.IsPlain collection link.navigation) (body : List (String × Json)) :
    s.bindLinks pending none links body = s.bindLinks pending collection links body := by
  induction links generalizing body with
  | nil => rfl
  | cons link rest ih =>
    obtain ⟨hlink, hrest⟩ := List.forall_mem_cons.1 h
    have hnone : s.navigation none link.navigation = .ok (link.navigation, false) := rfl
    rw [bindLinks, bindLinks]
    refine congrArg (s.locate pending link.target >>= ·) (funext fun location ↦ ?_)
    rw [Except.bind_of_eq_ok hnone, Except.bind_of_eq_ok hlink]
    exact ih hrest _

theorem entityBody_of_plain {entry : Record} {links : List Link}
    (h : ∀ link ∈ links, s.IsPlain collection link.navigation) :
    s.entityBody pending none entry links = s.entityBody pending collection entry links := by
  rw [entityBody, entityBody, bindLinks_of_plain h]

theorem linkRequest_of_locate {source destination : Target} {origin target : Location}
    {navigation : String} (hsource : s.locate pending source = .ok origin)
    (htarget : s.locate pending destination = .ok target) :
    s.linkRequest pending source navigation destination =
      (s.navigation origin.collection navigation).map fun n ↦
        s.writeRequest (if n.2 then .post else .put) (s.referencesUri origin.uri n.1)
          (s.referenceBody target.uri) := by
  rw [linkRequest, Except.bind_of_eq_ok hsource, Except.bind_of_eq_ok htarget]
  cases s.navigation origin.collection navigation <;> rfl

theorem referencesUri_inj {source exact exact' : String}
    (h : s.referencesUri source exact = s.referencesUri source exact') : exact = exact' := by
  rw [referencesUri, referencesUri] at h
  cases hversion : s.version with
  | v4 =>
    rw [hversion] at h
    exact (String.append_right_inj _).1 ((String.append_left_inj _).1 h)
  | v3 =>
    rw [hversion] at h
    exact (String.append_right_inj _).1 h

/-- A navigation to one entity is taken out as a whole, whatever the target. -/
theorem unlinkRequest_of_locate {source : Target} {origin : Location} {navigation exact : String}
    {target : Option Target} (hsource : s.locate pending source = .ok origin)
    (hnavigation : s.navigation origin.collection navigation = .ok (exact, false)) :
    s.unlinkRequest pending source navigation target = .ok (s.removal origin.uri exact none) := by
  rw [unlinkRequest, Except.bind_of_eq_ok hsource, Except.bind_of_eq_ok hnavigation]
  rfl

section

variable {address source : Target} {uri : String} {key : Option Key}

theorem linkRequest_eq_iff (haddress : s.locate pending address = .ok ⟨uri, none, none⟩)
    (hsource : s.locate pending source = .ok ⟨uri, collection, key⟩) (navigation : String)
    (target : Target) :
    s.linkRequest pending address navigation target =
        s.linkRequest pending source navigation target ↔
      s.IsPlain collection navigation ∨ ∃ e, s.locate pending target = .error e := by
  cases htarget : s.locate pending target with
  | error e =>
    -- the target is located before the navigation is looked up, so both fail alike
    refine iff_of_true ?_ (.inr ⟨e, rfl⟩)
    rw [linkRequest, linkRequest, Except.bind_of_eq_ok haddress, Except.bind_of_eq_ok hsource,
      Except.bind_of_eq_error htarget, Except.bind_of_eq_error htarget]
  | ok location =>
    have hnone : s.navigation none navigation = .ok (navigation, false) := rfl
    rw [linkRequest_of_locate haddress htarget, linkRequest_of_locate hsource htarget, hnone]
    constructor
    · intro hsame
      obtain ⟨⟨exact, multivalued⟩, hnavigation, hrequest⟩ := Except.map_eq_ok.1 hsame.symm
      obtain rfl := referencesUri_inj (congrArg Request.uri hrequest)
      cases multivalued with
      | false => exact .inl hnavigation
      | true => cases congrArg Request.method hrequest
    · rintro (hplain | ⟨e, he⟩)
      · rw [show s.navigation collection navigation = .ok (navigation, false) from hplain]
      · contradiction

theorem unlinkRequest_eq_iff (haddress : s.locate pending address = .ok ⟨uri, none, none⟩)
    (hsource : s.locate pending source = .ok ⟨uri, collection, key⟩) {navigation : String}
    {multivalued : Bool}
    (hnavigation : s.navigation collection navigation = .ok (navigation, multivalued))
    (target : Option Target) :
    s.unlinkRequest pending address navigation target =
        s.unlinkRequest pending source navigation target ↔
      multivalued = false ∨ ∀ t, target = some t →
        ∃ location, s.locate pending t = .ok location ∧ s.memberAddress location = .ok none := by
  rw [unlinkRequest_of_locate haddress rfl]
  cases multivalued with
  | false => exact iff_of_true (unlinkRequest_of_locate hsource hnavigation).symm (.inl rfl)
  | true =>
    cases target with
    | none => exact iff_of_true (unlinkRequest_none hsource hnavigation).symm (.inr nofun)
    | some t =>
      constructor
      · intro hsame
        refine .inr fun t' ht ↦ ?_
        obtain rfl := Option.some.inj ht
        obtain ⟨location, address, hlocation, hmember, hremoval⟩ :=
          (unlinkRequest_some_eq_ok hsource hnavigation).1 hsame.symm
        obtain rfl := eq_of_removal_eq location hmember (.inl rfl) hremoval
        exact ⟨location, hlocation, hmember⟩
      · rintro (hfalse | hall)
        · contradiction
        · obtain ⟨location, hlocation, hmember⟩ := hall t rfl
          exact ((unlinkRequest_some_eq_ok hsource hnavigation).2
            ⟨location, none, hlocation, hmember, rfl⟩).symm

theorem kept_of_updateRequest {entry : Record} {links : List Link} {r : Request}
    (hsource : s.locate pending source = .ok ⟨uri, collection, key⟩)
    (h : s.updateRequest pending source entry links = .ok r) :
    ∃ members, r.body = some (Json.object members).text ∧
      ∀ link ∈ links, ∀ exact, s.navigation collection link.navigation = .ok (exact, true) →
        ∃ location, s.locate pending link.target = .ok location ∧
          Holds true (s.binding exact location.uri).1 (s.binding exact location.uri).2 members := by
  rw [updateRequest_of_locate hsource] at h
  obtain ⟨body, hbody, rfl⟩ := Except.map_eq_ok.1 h
  obtain ⟨members, hmembers, rfl⟩ := entityBody_eq_ok.1 hbody
  refine ⟨members, body_change _ _, fun link hlink exact hexact ↦ ?_⟩
  obtain ⟨i, hi⟩ := List.getElem?_of_mem hlink
  obtain ⟨location, hlocation, exact', m, hexact', hholds⟩ := binds_of_bindLinks hmembers hi
  obtain ⟨rfl, rfl⟩ := Prod.mk.inj (Except.ok.inj (hexact'.symm.trans hexact))
  exact ⟨location, hlocation, hholds (.inl rfl)⟩

theorem writesAlike_of_locate (haddress : s.locate pending address = .ok ⟨uri, none, none⟩)
    (hsource : s.locate pending source = .ok ⟨uri, collection, key⟩) :
    s.WritesAlike pending collection address source := by
  constructor
  case update =>
    intro entry links hplain
    rw [updateRequest_of_locate haddress, updateRequest_of_locate hsource]
    exact congrArg (Except.map _) (entityBody_of_plain hplain)
  case outline =>
    intro entry links r r' hr hr'
    rw [updateRequest_of_locate haddress] at hr
    rw [updateRequest_of_locate hsource] at hr'
    obtain ⟨body, -, rfl⟩ := Except.map_eq_ok.1 hr
    obtain ⟨body', -, rfl⟩ := Except.map_eq_ok.1 hr'
    exact change_eq _ body body'
  case kept =>
    intro entry links r
    exact kept_of_updateRequest hsource
  case link => exact linkRequest_eq_iff haddress hsource
  case unlink =>
    intro navigation multivalued target hnavigation
    exact unlinkRequest_eq_iff haddress hsource hnavigation target

end

variable {entry : Record} {links : List Link}

theorem updateRead_of_updateRequest {target : Target} {existing : Entry} {uri : String}
    (hedit : editUri existing = .ok uri)
    (h : s.updateRequest [] (.uri uri) entry links = s.updateRequest [] target entry links) :
    s.updateRead entry links existing = (do let _ ← s.updateEntry target entry links) := by
  have hupdate : s.updateEntry (.uri uri) entry links = s.updateEntry target entry links := by
    rw [updateEntry, updateEntry, h]
  rw [updateRead, hedit, ← hupdate]
  rfl

/-- Categories that lead to their products and to the one that each is below, at an address. -/
def shelf (baseUrl : String) : Service where
  formatting :=
    { resolver := (Schema.mk "NS" [⟨"Categories", [],
        [⟨"Products", "Products", true⟩, ⟨"Parent", "Categories", false⟩]⟩,
        ⟨"Products", [], []⟩] []).resolver
      version := .v4 }
  baseUrl := baseUrl

def secondCategory : Command :=
  .collection "Categories" { key := some (.single (.int32 2)) }

theorem checkedResource_secondCategory (baseUrl : String) :
    (shelf baseUrl).formatting.checkedResource secondCategory =
      .ok ⟨"Categories(2)".toList, some "Categories"⟩ := by
  rfl

theorem isAbsolute_host : (shelf "http://host").IsAbsolute "http://host/Categories(2)" := by
  exact .inr (by decide +kernel)

/-- A category below another, and so without products of its own. -/
def belowFirst : List Link :=
  [⟨"Parent", .uri "http://host/Categories(1)"⟩]

theorem isPlain_belowFirst (baseUrl : String) :
    ∀ link ∈ belowFirst, (shelf baseUrl).IsPlain (some "Categories") link.navigation := by
  intro link hlink
  obtain rfl := List.mem_singleton.1 hlink
  rfl

/-- Two products, each bound to a category. -/
def twoProducts : List Link :=
  [⟨"Products", .uri "http://host/Products(7)"⟩, ⟨"Products", .uri "http://host/Products(8)"⟩]

end OData.Service
