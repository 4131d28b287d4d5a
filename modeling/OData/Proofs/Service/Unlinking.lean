import OData.Proofs.Answer
import OData.Proofs.Text.Percent
import OData.Schema.Basic
import OData.Service.Request

/-!
Which of the entities that a navigation leads to a request takes out. The newer dialect tells them
apart by their addresses, the older one by their keys; there a target without a key is not told apart,
and the request is the one that takes out all of them.
-/

namespace OData.Service

/-- What an entity is told by from the others that a navigation leads to. -/
inductive MemberAddress
  | id (uri : String)
  | key (segment : String)
  deriving DecidableEq

/-- What stands for it behind the address of the navigation. -/
def MemberAddress.mark (mode : Text.EscapeMode) : MemberAddress → String
  | id uri => "?$id=" ++ Text.escape mode uri
  | key segment => segment

variable (s : Service)

/-- What a target is told by from the others, as far as it is known. -/
def memberAddress (target : Location) : Except FormatError (Option MemberAddress) :=
  match s.version, target.key with
  | .v4, _ => .ok (some (.id target.uri))
  | .v3, some key =>
    (s.formatting.key target.collection key).map fun segment ↦ some (.key (String.ofList segment))
  | .v3, none => .ok none

/-- The request that takes out what has an address among the others, or else all of them. -/
def removal (origin navigation : String) (address : Option MemberAddress) : Request :=
  s.request .delete
    (s.referencesUri origin navigation ++ address.elim "" (·.mark s.formatting.escapeMode))

variable {s} {target : Location}

theorem member_eq : s.member target =
    (s.memberAddress target).map (·.elim "" (·.mark s.formatting.escapeMode)) := by
  rw [member, memberAddress]
  cases s.version with
  | v4 => rfl
  | v3 =>
    cases target.key with
    | none => rfl
    | some key =>
      dsimp only
      cases s.formatting.key target.collection key <;> rfl

variable {pending : List PendingEntity} {source destination : Target} {origin : Location}
  {navigation exact : String}

theorem unlinkRequest_some (hsource : s.locate pending source = .ok origin)
    (hnavigation : s.navigation origin.collection navigation = .ok (exact, true))
    (htarget : s.locate pending destination = .ok target) :
    s.unlinkRequest pending source navigation (some destination) =
      (s.memberAddress target).map (s.removal origin.uri exact) := by
  rw [unlinkRequest, Except.bind_of_eq_ok hsource, Except.bind_of_eq_ok hnavigation]
  dsimp only
  rw [Except.bind_of_eq_ok htarget, member_eq]
  cases s.memberAddress target <;> rfl

theorem unlinkRequest_some_eq_ok {request : Request} (hsource : s.locate pending source = .ok origin)
    (hnavigation : s.navigation origin.collection navigation = .ok (exact, true)) :
    s.unlinkRequest pending source navigation (some destination) = .ok request ↔
      ∃ target address, s.locate pending destination = .ok target ∧
        s.memberAddress target = .ok address ∧ s.removal origin.uri exact address = request := by
  constructor
  · intro h
    have hlocate := h
    rw [unlinkRequest, Except.bind_of_eq_ok hsource, Except.bind_of_eq_ok hnavigation] at hlocate
    obtain ⟨target, htarget, -⟩ := Except.bind_eq_ok.1 hlocate
    rw [unlinkRequest_some hsource hnavigation htarget] at h
    obtain ⟨address, haddress, hremoval⟩ := Except.map_eq_ok.1 h
    exact ⟨target, address, htarget, haddress, hremoval⟩
  · rintro ⟨target, address, htarget, haddress, rfl⟩
    rw [unlinkRequest_some hsource hnavigation htarget, haddress]
    rfl

theorem unlinkRequest_none (hsource : s.locate pending source = .ok origin)
    (hnavigation : s.navigation origin.collection navigation = .ok (exact, true)) :
    s.unlinkRequest pending source navigation none = .ok (s.removal origin.uri exact none) := by
  rw [unlinkRequest, Except.bind_of_eq_ok hsource, Except.bind_of_eq_ok hnavigation]
  rfl

theorem exists_of_key {f : Formatting} {collection : Option String} {key : Key}
    {segment : List Char} (h : f.key collection key = .ok segment) :
    ∃ inner, segment = Filter.parenthesized inner := by
  unfold Formatting.key at h
  split at h
  · obtain ⟨inner, -, rfl⟩ := Except.map_eq_ok.1 h
    exact ⟨inner, rfl⟩
  · obtain ⟨inner, -, rfl⟩ := Except.map_eq_ok.1 h
    exact ⟨inner, rfl⟩
  · obtain ⟨clauses, -, h⟩ := Except.bind_eq_ok.1 h
    exact ⟨_, (Except.ok.inj h).symm⟩

theorem memberAddress_v3 {address : Option MemberAddress} (hversion : s.version = .v3)
    (h : s.memberAddress target = .ok address) :
    (target.key = none ∧ address = none) ∨
      ∃ inner, target.key.isSome ∧
        address = some (.key (String.ofList (Filter.parenthesized inner))) := by
  rw [memberAddress, hversion] at h
  cases hkey : target.key with
  | none =>
    rw [hkey] at h
    exact .inl ⟨rfl, (Except.ok.inj h).symm⟩
  | some key =>
    rw [hkey] at h
    obtain ⟨segment, hsegment, rfl⟩ := Except.map_eq_ok.1 h
    obtain ⟨inner, rfl⟩ := exists_of_key hsegment
    exact .inr ⟨inner, rfl, rfl⟩

theorem memberAddress_v4 {address : Option MemberAddress} (hversion : s.version = .v4)
    (h : s.memberAddress target = .ok address) : address = some (.id target.uri) := by
  rw [memberAddress, hversion] at h
  exact (Except.ok.inj h).symm

/-- A target is told apart except in the older dialect, where it takes a key. -/
theorem isSome_memberAddress {address : Option MemberAddress}
    (h : s.memberAddress target = .ok address) :
    address.isSome ↔ s.version = .v4 ∨ target.key.isSome := by
  cases hversion : s.version with
  | v4 => simp [memberAddress_v4 hversion h]
  | v3 =>
    rcases memberAddress_v3 hversion h with ⟨hkey, rfl⟩ | ⟨inner, hkey, rfl⟩
    · simp [hkey]
    · simp [hkey]

theorem mark_ne_empty {a : MemberAddress} (h : s.memberAddress target = .ok (some a)) :
    a.mark s.formatting.escapeMode ≠ "" := by
  cases hversion : s.version with
  | v4 =>
    obtain rfl := Option.some.inj (memberAddress_v4 hversion h)
    exact fun hempty ↦ absurd (String.append_eq_empty_iff.1 hempty).1 (by decide)
  | v3 =>
    rcases memberAddress_v3 hversion h with ⟨-, hnone⟩ | ⟨inner, -, hsome⟩
    · contradiction
    · obtain rfl := Option.some.inj hsome
      intro hempty
      have hnil : Filter.parenthesized inner = [] := String.ofList_injective hempty
      contradiction

/-- What two targets are told by is the same if it is written the same. -/
theorem eq_of_mark_eq {target' : Location} {a a' : MemberAddress}
    (h : s.memberAddress target = .ok (some a)) (h' : s.memberAddress target' = .ok (some a'))
    (hmark : a.mark s.formatting.escapeMode = a'.mark s.formatting.escapeMode) : a = a' := by
  cases hversion : s.version with
  | v4 =>
    obtain rfl := Option.some.inj (memberAddress_v4 hversion h)
    obtain rfl := Option.some.inj (memberAddress_v4 hversion h')
    rw [Text.escape_injective _ ((String.append_right_inj _).1 hmark)]
  | v3 =>
    rcases memberAddress_v3 hversion h with ⟨-, hnone⟩ | ⟨inner, -, hsome⟩
    · contradiction
    rcases memberAddress_v3 hversion h' with ⟨-, hnone⟩ | ⟨inner', -, hsome'⟩
    · contradiction
    obtain rfl := Option.some.inj hsome
    obtain rfl := Option.some.inj hsome'
    exact congrArg MemberAddress.key hmark

/-- The requests for two targets differ where the targets are not told by the same. -/
theorem eq_of_removal_eq (target' : Location) {address address' : Option MemberAddress}
    (h : s.memberAddress target = .ok address)
    (h' : address' = none ∨ s.memberAddress target' = .ok address')
    (hsame : s.removal origin.uri exact address = s.removal origin.uri exact address') :
    address = address' := by
  have hmark : address.elim "" (·.mark s.formatting.escapeMode) =
      address'.elim "" (·.mark s.formatting.escapeMode) :=
    (String.append_right_inj _).1 (congrArg Request.uri hsame)
  cases address with
  | none =>
    cases address' with
    | none => rfl
    | some a' => exact absurd hmark.symm (mark_ne_empty (h'.resolve_left nofun))
  | some a =>
    cases address' with
    | none => exact absurd hmark (mark_ne_empty h)
    | some a' => exact congrArg some (eq_of_mark_eq h (h'.resolve_left nofun) hmark)

/-- A request that takes out one of the entities that a navigation leads to says which one, except in
the older dialect for a target without a key: only there it is the request that takes out all of them.
Two targets have the same request just where they are told apart from the others by the same. -/
theorem unlinkRequest_tells_apart {request : Request} (hsource : s.locate pending source = .ok origin)
    (hnavigation : s.navigation origin.collection navigation = .ok (exact, true))
    (htarget : s.locate pending destination = .ok target)
    (h : s.unlinkRequest pending source navigation (some destination) = .ok request) :
    ∃ address, s.memberAddress target = .ok address ∧
      request = s.removal origin.uri exact address ∧
      (address.isSome ↔ s.version = .v4 ∨ target.key.isSome) ∧
      (s.unlinkRequest pending source navigation none = .ok request ↔ address = none) ∧
      ∀ destination' target', s.locate pending destination' = .ok target' →
        (s.unlinkRequest pending source navigation (some destination') = .ok request ↔
          s.memberAddress target' = .ok address) := by
  rw [unlinkRequest_some hsource hnavigation htarget] at h
  obtain ⟨address, haddress, rfl⟩ := Except.map_eq_ok.1 h
  refine ⟨address, haddress, rfl, isSome_memberAddress haddress, ?_, ?_⟩
  · rw [unlinkRequest_none hsource hnavigation]
    constructor
    · intro hsame
      exact eq_of_removal_eq target haddress (.inl rfl) (Except.ok.inj hsame).symm
    · rintro rfl
      rfl
  · intro destination' target' htarget'
    rw [unlinkRequest_some hsource hnavigation htarget', Except.map_eq_ok]
    constructor
    · rintro ⟨address', haddress', hsame⟩
      rw [haddress', eq_of_removal_eq target haddress' (.inr haddress) hsame]
    · intro haddress'
      exact ⟨address, haddress', rfl⟩

/-- A service in the older dialect, with categories that lead to their products. -/
def categories : Service where
  formatting :=
    { resolver := (Schema.mk "NS"
        [⟨"Categories", [], [⟨"Products", "Products", true⟩]⟩, ⟨"Products", [], []⟩] []).resolver
      version := .v3 }

def firstCategory : Target :=
  .entity (.collection "Categories" { key := some (.single (.int32 1)) })

def seventhProduct : Target :=
  .entity (.collection "Products" { key := some (.single (.int32 7)) })

theorem locate_firstCategory : categories.locate [] firstCategory =
    .ok ⟨"Categories(1)", some "Categories", some (.single (.int32 1))⟩ := by
  rfl

theorem locate_seventhProduct : categories.locate [] seventhProduct =
    .ok ⟨"Products(7)", some "Products", some (.single (.int32 7))⟩ := by
  rfl

theorem navigation_products :
    categories.navigation (some "Categories") "products" = .ok ("Products", true) := by
  rfl

theorem unlinkRequest_seventhProduct :
    categories.unlinkRequest [] firstCategory "products" (some seventhProduct) =
      .ok (categories.request .delete "Categories(1)/$links/Products(7)") := by
  rfl

theorem unlinkRequest_tells_apart_seventhProduct :
    ∃ address, categories.memberAddress
        ⟨"Products(7)", some "Products", some (.single (.int32 7))⟩ = .ok address ∧
      categories.request .delete "Categories(1)/$links/Products(7)" =
        categories.removal "Categories(1)" "Products" address ∧
      address.isSome ∧
      categories.unlinkRequest [] firstCategory "products" none ≠
        .ok (categories.request .delete "Categories(1)/$links/Products(7)") := by
  obtain ⟨address, haddress, hremoval, hsome, hnone, -⟩ := unlinkRequest_tells_apart
    locate_firstCategory navigation_products locate_seventhProduct unlinkRequest_seventhProduct
  have hisSome : address.isSome := hsome.2 (.inr rfl)
  refine ⟨address, haddress, hremoval, hisSome, fun hall ↦ ?_⟩
  rw [hnone.1 hall] at hisSome
  contradiction

/-- A product with an address only is taken out as all products are. -/
theorem not_unlinkRequest_ne_none : ¬ ∀ (s : Service) (pending : List PendingEntity)
    (source destination : Target) (origin target : Location) (navigation exact : String),
    s.locate pending source = .ok origin →
    s.navigation origin.collection navigation = .ok (exact, true) →
    s.locate pending destination = .ok target →
    s.unlinkRequest pending source navigation (some destination) ≠
      s.unlinkRequest pending source navigation none := by
  intro hall
  exact hall categories [] firstCategory (.uri "Products(7)") _ _ "products" "Products"
    locate_firstCategory navigation_products rfl rfl

end OData.Service
