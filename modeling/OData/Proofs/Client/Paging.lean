import Mathlib.Data.List.Forall2
import OData.Proofs.Client.Sending
import OData.Proofs.Service.Request

/-!
What is sent to update the entities that a command finds: the query, and one update for each entity of
the page that it is answered with. Pages that the answer names as the next ones are not asked for.
-/

namespace OData

theorem Exchange.bind_eq_ok {α β : Type} {x : Exchange α} {f : α → Exchange β} {b : β}
    {transport : Transport} {sent after : List Request} :
    (x >>= f) transport sent = (.ok b, after) ↔
      ∃ a middle, x transport sent = (.ok a, middle) ∧ f a transport middle = (.ok b, after) := by
  rw [run_bind]
  constructor
  · intro h
    split at h
    · rename_i a middle hx
      exact ⟨a, middle, hx, h⟩
    · cases (Prod.mk.inj h).1
  · rintro ⟨a, middle, hx, h⟩
    rw [hx]
    exact h

/-- Items that are each dealt with by one request are dealt with by as many requests, in order. -/
theorem Exchange.forall₂_of_forM {α : Type} {action : α → Exchange Unit} {R : α → Request → Prop}
    {transport : Transport}
    (haction : ∀ a sent after, action a transport sent = (.ok (), after) →
      ∃ r, after = sent ++ [r] ∧ R a r)
    {items : List α} {sent after : List Request}
    (h : items.forM action transport sent = (.ok (), after)) :
    ∃ requests, after = sent ++ requests ∧ List.Forall₂ R items requests := by
  induction items generalizing sent with
  | nil =>
    obtain rfl : sent = after := (Prod.mk.inj h).2
    exact ⟨[], (List.append_nil _).symm, .nil⟩
  | cons a items ih =>
    obtain ⟨_, middle, hfirst, hrest⟩ := bind_eq_ok.1 h
    obtain ⟨r, rfl, hr⟩ := haction a sent middle hfirst
    obtain ⟨requests, rfl, hrequests⟩ := ih hrest
    exact ⟨r :: requests, by rw [List.append_assoc, List.singleton_append], .cons hr hrequests⟩

namespace Service

variable (s : Service)

/-- A request that is answered with what reads as a feed, after the requests sent before. -/
def Gives (transport : Transport) (sent : List Request) (r : Request) (page : Feed) : Prop :=
  ∃ response node, transport sent (s.withVersion r) = .ok response ∧ response.isSuccess ∧
    s.nodeOf? response = .ok node ∧ feedOf node = .ok page

/-- The request for the page at an address that another page gave. -/
def pageRequest (address : String) : Request :=
  s.request .get (if Text.occursIn "://".toList address.toList then address else s.absolute address)

/-- A service that answers a request with the first of some pages, and each of them but the last with
the address of the next. -/
inductive HandsOut (transport : Transport) : List Request → Request → List Feed → Prop
  | last {sent : List Request} {r : Request} {page : Feed} (h : s.Gives transport sent r page)
    (hlast : page.annotations.nextLink = none) : HandsOut transport sent r [page]
  | more {sent : List Request} {r : Request} {page : Feed} {address : String} {rest : List Feed}
    (h : s.Gives transport sent r page) (hnext : page.annotations.nextLink = some address)
    (hrest : HandsOut transport (sent ++ [s.withVersion r]) (s.pageRequest address) rest) :
    HandsOut transport sent r (page :: rest)

/-- The method of a partial update. -/
def updateMethod : Method :=
  match s.version with
  | .v3 => .merge
  | .v4 => .patch

/-- A request that updates an entity at its edit link, or at its id where it has none. -/
structure Updates (entry : Record) (links : List Link) (existing : Entry) (r : Request) : Prop where
  method : r.method = s.updateMethod
  uri : ∃ address location,
    (existing.annotations.own.editLink <|> existing.annotations.own.id) = some address ∧
      s.locate [] (.uri address) = .ok location ∧ r.uri = location.uri
  body : ∃ text, s.entityBody [] none entry links = .ok text ∧ r.body = some text

/-- Of some requests those that update are one for each entity of some pages, in order; and `n` is the
number of these entities. -/
structure UpdatesAll (entry : Record) (links : List Link) (pages : List Feed)
    (requests : List Request) (n : Nat) : Prop where
  updates : List.Forall₂ (s.Updates entry links) (pages.flatMap Feed.entries)
    (requests.filter (·.method = s.updateMethod))
  count : n = (pages.flatMap Feed.entries).length

variable {s} {transport : Transport} {sent after : List Request} {r : Request}

theorem send_eq_ok {response : Response} :
    s.send r transport sent = (.ok response, after) ↔
      transport sent (s.withVersion r) = .ok response ∧ response.isSuccess ∧
        after = sent ++ [s.withVersion r] := by
  rw [send, Exchange.bind_eq_ok]
  constructor
  · rintro ⟨response', middle, htransmit, h⟩
    obtain ⟨hanswer, rfl⟩ := Prod.mk.inj htransmit
    split at h
    · rename_i hsuccess
      obtain ⟨hresponse, rfl⟩ := Prod.mk.inj h
      obtain rfl := Except.ok.inj hresponse
      exact ⟨Except.mapError_eq_ok.1 hanswer, hsuccess, rfl⟩
    · cases (Prod.mk.inj h).1
  · rintro ⟨hanswer, hsuccess, rfl⟩
    refine ⟨response, _, Prod.ext (Except.mapError_eq_ok.2 hanswer) rfl, ?_⟩
    rw [if_pos hsuccess]
    rfl

theorem ask_eq_ok {request : Except FormatError Request} {node : Option Node} :
    s.ask request transport sent = (.ok node, after) ↔
      ∃ r response, request = .ok r ∧ transport sent (s.withVersion r) = .ok response ∧
        response.isSuccess ∧ s.nodeOf? response = .ok node ∧ after = sent ++ [s.withVersion r] := by
  rw [ask, Exchange.bind_eq_ok]
  constructor
  · rintro ⟨r, middle, hformat, h⟩
    obtain ⟨hrequest, rfl⟩ := Prod.mk.inj hformat
    obtain ⟨response, middle, hsend, hread⟩ := Exchange.bind_eq_ok.1 h
    obtain ⟨hanswer, hsuccess, rfl⟩ := send_eq_ok.1 hsend
    obtain ⟨hnode, rfl⟩ := Prod.mk.inj hread
    exact ⟨r, response, Except.mapError_eq_ok.1 hrequest, hanswer, hsuccess, hnode, rfl⟩
  · rintro ⟨r, response, rfl, hanswer, hsuccess, hnode, rfl⟩
    refine ⟨r, sent, rfl, Exchange.bind_eq_ok.2 ⟨response, _, send_eq_ok.2 ⟨hanswer, hsuccess, rfl⟩, ?_⟩⟩
    exact Prod.ext hnode rfl

theorem findEntries_eq_ok {command : Command} {page : Feed} :
    s.findEntries command transport sent = (.ok page, after) ↔
      ∃ r, s.queryRequest command = .ok r ∧ s.Gives transport sent r page ∧
        after = sent ++ [s.withVersion r] := by
  rw [findEntries, Exchange.bind_eq_ok]
  constructor
  · rintro ⟨node, middle, hask, hfeed⟩
    obtain ⟨hpage, rfl⟩ := Prod.mk.inj hfeed
    obtain ⟨r, response, hr, hanswer, hsuccess, hnode, rfl⟩ := ask_eq_ok.1 hask
    exact ⟨r, hr, ⟨response, node, hanswer, hsuccess, hnode, hpage⟩, rfl⟩
  · rintro ⟨r, hr, ⟨response, node, hanswer, hsuccess, hnode, hpage⟩, rfl⟩
    exact ⟨node, _, ask_eq_ok.2 ⟨r, response, hr, hanswer, hsuccess, hnode, rfl⟩,
      Prod.ext hpage rfl⟩

variable {entry : Record} {links : List Link}

theorem method_of_updateRequest {pending : List PendingEntity} {target : Target}
    (h : s.updateRequest pending target entry links = .ok r) : r.method = s.updateMethod := by
  obtain ⟨location, -, h⟩ := Except.bind_eq_ok.1 h
  obtain ⟨body, -, h⟩ := Except.bind_eq_ok.1 h
  obtain rfl := Except.ok.inj h
  rw [method_withPreference]
  rfl

/-- An entity that was read is updated with one request. -/
theorem updates_of_updateRead {existing : Entry}
    (h : s.updateRead entry links existing transport sent = (.ok (), after)) :
    ∃ r, after = sent ++ [r] ∧ s.Updates entry links existing r := by
  obtain ⟨address, _, hedit, h⟩ := Exchange.bind_eq_ok.1 h
  obtain ⟨haddress, rfl⟩ := Prod.mk.inj hedit
  obtain ⟨_, _, hupdate, hdone⟩ := Exchange.bind_eq_ok.1 h
  obtain ⟨-, rfl⟩ := Prod.mk.inj hdone
  obtain ⟨_, _, hask, hfirst⟩ := Exchange.bind_eq_ok.1 hupdate
  obtain ⟨-, rfl⟩ := Prod.mk.inj hfirst
  obtain ⟨r, response, hr, -, -, -, rfl⟩ := ask_eq_ok.1 hask
  have hmethod := method_of_updateRequest hr
  obtain ⟨location, text, hlocation, htext, huri, hbody⟩ := of_updateRequest_eq_ok hr
  have hnone : location.collection = none := by
    obtain rfl := Except.ok.inj hlocation
    rfl
  rw [hnone] at htext
  refine ⟨s.withVersion r, rfl, hmethod, ⟨address, location, ?_, hlocation, huri⟩, text, htext, hbody⟩
  unfold editUri at haddress
  split at haddress
  · rename_i uri huri
    rw [huri, Except.ok.inj haddress]
  · cases haddress

theorem updateEntries_eq_ok {command : Command} {n : Nat} (hkey : command.clauses.key = none)
    (h : s.updateEntries command entry links transport sent = (.ok n, after)) :
    ∃ r page updates, s.queryRequest command = .ok r ∧ s.Gives transport sent r page ∧
      after = sent ++ s.withVersion r :: updates ∧
      List.Forall₂ (s.Updates entry links) page.entries updates ∧ n = page.entries.length := by
  rw [s.updateEntries_of_no_key hkey] at h
  obtain ⟨page, _, hfind, h⟩ := Exchange.bind_eq_ok.1 h
  obtain ⟨r, hr, hgives, rfl⟩ := findEntries_eq_ok.1 hfind
  obtain ⟨_, _, hloop, hdone⟩ := Exchange.bind_eq_ok.1 h
  obtain ⟨hn, rfl⟩ := Prod.mk.inj hdone
  obtain ⟨updates, rfl, hupdates⟩ :=
    Exchange.forall₂_of_forM (fun existing sent after ↦ updates_of_updateRead) hloop
  refine ⟨r, page, updates, hr, hgives, ?_, hupdates, (Except.ok.inj hn).symm⟩
  rw [List.append_assoc, List.singleton_append]

theorem Gives.unique {page page' : Feed} (h : s.Gives transport sent r page)
    (h' : s.Gives transport sent r page') : page = page' := by
  obtain ⟨response, node, hanswer, -, hnode, hpage⟩ := h
  obtain ⟨response', node', hanswer', -, hnode', hpage'⟩ := h'
  obtain rfl := Except.ok.inj (hanswer.symm.trans hanswer')
  obtain rfl := Except.ok.inj (hnode.symm.trans hnode')
  exact Except.ok.inj (hpage.symm.trans hpage')

theorem HandsOut.exists_cons {pages : List Feed} (h : s.HandsOut transport sent r pages) :
    ∃ page rest, pages = page :: rest ∧ s.Gives transport sent r page := by
  cases h with
  | last h hlast => exact ⟨_, [], rfl, h⟩
  | more h hnext hrest => exact ⟨_, _, rfl, h⟩

/-- A query is none of the updates. -/
theorem method_of_queryRequest {command : Command} (h : s.queryRequest command = .ok r) :
    r.method ≠ s.updateMethod := by
  obtain ⟨uri, -, h⟩ := Except.bind_eq_ok.1 h
  obtain rfl := Except.ok.inj h
  rw [updateMethod]
  cases s.version <;> exact Method.noConfusion

theorem filter_updates {existing : List Entry} {updates : List Request}
    (h : List.Forall₂ (s.Updates entry links) existing updates) :
    updates.filter (·.method = s.updateMethod) = updates := by
  induction h with
  | nil => rfl
  | cons hupdate _ ih =>
    rw [List.filter_cons, ih, if_pos (decide_eq_true hupdate.method)]

/-- An update of all that a command finds sends one request for each entity of the first page, in order;
so nothing is left out just where the further pages are without entities. -/
theorem updateEntries_first_page {command : Command} {pages : List Feed} {n : Nat}
    (hkey : command.clauses.key = none) (hquery : s.queryRequest command = .ok r)
    (hpages : s.HandsOut transport sent r pages)
    (hrun : s.updateEntries command entry links transport sent = (.ok n, after)) :
    ∃ page rest updates, pages = page :: rest ∧ after = sent ++ s.withVersion r :: updates ∧
      List.Forall₂ (s.Updates entry links) page.entries updates ∧ n = page.entries.length ∧
      (s.UpdatesAll entry links pages (s.withVersion r :: updates) n ↔
        ∀ further ∈ rest, further.entries = []) := by
  obtain ⟨page, rest, rfl, hfirst⟩ := hpages.exists_cons
  obtain ⟨r', page', updates, hquery', hgives, rfl, hupdates, rfl⟩ := updateEntries_eq_ok hkey hrun
  obtain rfl := Except.ok.inj (hquery.symm.trans hquery')
  obtain rfl := hgives.unique hfirst
  refine ⟨page', rest, updates, rfl, rfl, hupdates, rfl, ?_⟩
  have hfurther : (∀ further ∈ rest, further.entries = []) ↔ rest.flatMap Feed.entries = [] :=
    List.flatMap_eq_nil_iff.symm
  have hfilter : (s.withVersion r :: updates).filter (·.method = s.updateMethod) = updates := by
    rw [List.filter_cons, filter_updates hupdates, if_neg]
    rw [decide_eq_true_eq]
    exact (method_of_queryRequest hquery : r.method ≠ s.updateMethod)
  rw [hfurther]
  constructor
  · rintro ⟨-, hcount⟩
    rw [List.flatMap_cons, List.length_append] at hcount
    exact List.eq_nil_of_length_eq_zero (by omega)
  · intro hnil
    have hall : (page' :: rest).flatMap Feed.entries = page'.entries := by
      rw [List.flatMap_cons, hnil, List.append_nil]
    exact ⟨by rw [hall, hfilter]; exact hupdates, by rw [hall]⟩

/-- A response with a body in JSON. -/
def jsonResponse (body : String) : Response :=
  ⟨200, [("Content-Type", "application/json")], body⟩

theorem nodeOf?_jsonResponse {body : String} {node : Node}
    (hbody : Text.trim (jsonResponse body).body.toList ≠ [])
    (h : Node.ofBody .json body = .ok node) :
    s.nodeOf? (jsonResponse body) = .ok (some node) := by
  have hformat : ((jsonResponse body).header? "Content-Type").bind PayloadFormat.ofContentType? =
      some .json := by
    cbv
  have hread : Node.ofBody .json (jsonResponse body).body = .ok node := h
  rw [nodeOf?, if_neg hbody, Response.payloadFormat, hformat, Option.getD_some, hread]
  rfl

/-- An entity that nothing but its id is known of. -/
def identified (id : String) : Entry :=
  ⟨[], ⟨{ id := some id }, []⟩⟩

def firstPage : Feed :=
  ⟨[identified "Products(1)"], { nextLink := some "Products?page=2" }⟩

def secondPage : Feed :=
  ⟨[identified "Products(2)"], {}⟩

def firstBody : String :=
  "\x7b\"@odata.nextLink\":\"Products?page=2\",\"value\":[\x7b\"@odata.id\":\"Products(1)\"\x7d]\x7d"

def secondBody : String :=
  "\x7b\"value\":[\x7b\"@odata.id\":\"Products(2)\"\x7d]\x7d"

/-- A transport that hands out the products in two pages, and accepts every update. -/
def inPages : Transport := fun _ r ↦
  .ok <|
    if r.uri = "Products" then jsonResponse firstBody
    else if r.uri = "Products?page=2" then jsonResponse secondBody
    else ⟨204, [], ""⟩

theorem ofBody_firstBody : Node.ofBody .json firstBody = .ok (.feed firstPage) := by cbv

theorem ofBody_secondBody : Node.ofBody .json secondBody = .ok (.feed secondPage) := by cbv

open ClientCall (catalogue)

/-- The query that finds the products. -/
def productsRequest : Request :=
  catalogue.request .get "Products"

theorem handsOut_inPages :
    catalogue.HandsOut inPages [] productsRequest [firstPage, secondPage] := by
  refine .more ⟨jsonResponse firstBody, some (.feed firstPage), rfl, rfl, ?_, rfl⟩ rfl
    (.last ⟨jsonResponse secondBody, some (.feed secondPage), rfl, rfl, ?_, rfl⟩ rfl)
  · exact nodeOf?_jsonResponse (by decide +kernel) ofBody_firstBody
  · exact nodeOf?_jsonResponse (by decide +kernel) ofBody_secondBody

/-- The request that updates the first of the products. -/
def firstUpdate : Request where
  method := .patch
  uri := "Products(1)"
  headers := [("Accept", "application/json"), ("Content-Type", "application/json"),
    ("If-Match", "*"), ("OData-Version", "4.0"), ("OData-MaxVersion", "4.0")]
  body := some "\x7b\x7d"

theorem queryRequest_products :
    catalogue.queryRequest (.collection "Products" {}) = .ok productsRequest := by
  rfl

theorem updateEntries_inPages :
    catalogue.updateEntries (.collection "Products" {}) [] [] inPages [] =
      (.ok 1, [catalogue.withVersion productsRequest, firstUpdate]) := by
  have hgives : catalogue.Gives inPages [] productsRequest firstPage := by
    obtain ⟨_, _, hpages, hgives⟩ := handsOut_inPages.exists_cons
    obtain ⟨rfl, -⟩ := List.cons.inj hpages
    exact hgives
  rw [updateEntries_of_no_key _ rfl]
  refine Exchange.bind_eq_ok.2
    ⟨firstPage, _, findEntries_eq_ok.2 ⟨_, queryRequest_products, hgives, rfl⟩, ?_⟩
  rfl

theorem updateEntries_first_page_products : ∃ page rest updates,
    [firstPage, secondPage] = page :: rest ∧
      [catalogue.withVersion productsRequest, firstUpdate] =
        catalogue.withVersion productsRequest :: updates ∧
      List.Forall₂ (catalogue.Updates [] []) page.entries updates ∧ 1 = page.entries.length ∧
      (catalogue.UpdatesAll [] [] [firstPage, secondPage]
          (catalogue.withVersion productsRequest :: updates) 1 ↔
        ∀ further ∈ rest, further.entries = []) :=
  updateEntries_first_page rfl queryRequest_products handsOut_inPages updateEntries_inPages

/-- The product on the second page is found, and not updated. -/
theorem not_updatesAll_of_pages : ¬ ∀ (s : Service) (command : Command) (entry : Record)
    (links : List Link) (transport : Transport) (sent requests : List Request) (r : Request)
    (pages : List Feed) (n : Nat), command.clauses.key = none → s.queryRequest command = .ok r →
    s.HandsOut transport sent r pages →
    (∀ page ∈ pages, ∀ existing ∈ page.entries, ∃ address, editUri existing = .ok address) →
    s.updateEntries command entry links transport sent = (.ok n, sent ++ requests) →
    s.UpdatesAll entry links pages requests n := by
  intro hall
  have haddressed : ∀ page ∈ [firstPage, secondPage], ∀ existing ∈ page.entries,
      ∃ address, editUri existing = .ok address := by
    simp [firstPage, secondPage, identified, editUri]
  obtain ⟨-, hcount⟩ := hall catalogue (.collection "Products" {}) [] [] inPages [] _ _ _ 1 rfl
    queryRequest_products handsOut_inPages haddressed updateEntries_inPages
  contradiction

end Service
end OData
