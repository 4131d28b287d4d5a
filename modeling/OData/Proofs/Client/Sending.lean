import Mathlib
import OData.Client
import OData.Proofs.Answer
import OData.Schema.Basic

/-!
When a client sends. A call formats its request, sends it once, and reads the answer; only a call that
updates what it has read formats again behind an answer, and so can fail in formatting too late.
-/

namespace OData

theorem Session.run_bind {α β : Type} (x : Session α) (f : α → Session β) (transport : Transport)
    (sent : List Request) :
    (x >>= f) transport sent = f (x transport sent).1 transport (x transport sent).2 :=
  rfl

namespace Exchange

variable {α β : Type}

theorem run_bind (x : Exchange α) (f : α → Exchange β) (transport : Transport)
    (sent : List Request) :
    (x >>= f) transport sent =
      match x transport sent with
      | (.ok a, after) => f a transport after
      | (.error e, after) => (.error e, after) := by
  show (ExceptT.bind x f : Exchange β) transport sent = _
  simp only [ExceptT.bind, ExceptT.mk, bind, ReaderT.bind, StateT.bind]
  rcases x transport sent with ⟨_ | a, after⟩ <;> rfl

theorem run_tryCatch (x : Exchange α) (f : ClientError → Exchange α) (transport : Transport)
    (sent : List Request) :
    (tryCatch x f) transport sent =
      match x transport sent with
      | (.ok a, after) => (.ok a, after)
      | (.error e, after) => f e transport after := by
  show (ExceptT.tryCatch x f : Exchange α) transport sent = _
  simp only [ExceptT.tryCatch, ExceptT.mk, bind, ReaderT.bind, StateT.bind]
  rcases x transport sent with ⟨_ | a, after⟩ <;> rfl

/-- Nothing is sent. -/
def Silent (x : Exchange α) : Prop :=
  ∀ transport sent, (x transport sent).2 = sent

/-- Formatting does not fail. -/
def Formatted (x : Exchange α) : Prop :=
  ∀ transport sent e, (x transport sent).1 ≠ .error (.format e)

/-- Where formatting fails, nothing has been sent. -/
def FormatsFirst (x : Exchange α) : Prop :=
  ∀ transport sent e, (x transport sent).1 = .error (.format e) → (x transport sent).2 = sent

/-- Unless formatting fails, one request is sent. -/
def SendsOnce (x : Exchange α) : Prop :=
  ∀ transport sent, (∀ e, (x transport sent).1 ≠ .error (.format e)) →
    ∃ r, (x transport sent).2 = sent ++ [r]

/-- What reads an answer neither sends nor formats. -/
structure Reads (x : Exchange α) : Prop where
  silent : Silent x
  formatted : Formatted x

/-- A call with one request, which is formatted before it is sent. -/
structure Single (x : Exchange α) : Prop where
  formatsFirst : FormatsFirst x
  sendsOnce : SendsOnce x

variable {x : Exchange α} {f : α → Exchange β}

theorem silent_ofFormat (answer : Except FormatError α) : Silent (Exchange.ofFormat answer) :=
  fun _ _ ↦ rfl

theorem reads_ofExcept {answer : Except ClientError α} (h : ∀ e, answer ≠ .error (.format e)) :
    Reads (Exchange.ofExcept answer) :=
  ⟨fun _ _ ↦ rfl, fun _ _ ↦ h⟩

theorem reads_pure (a : α) : Reads (pure a : Exchange α) :=
  have h : ∀ e, (.ok a : Except ClientError α) ≠ .error (.format e) := nofun
  reads_ofExcept h

theorem Silent.formatsFirst (h : Silent x) : FormatsFirst x :=
  fun transport sent _ _ ↦ h transport sent

theorem Formatted.formatsFirst (h : Formatted x) : FormatsFirst x :=
  fun transport sent e he ↦ absurd he (h transport sent e)

theorem Formatted.bind (hx : Formatted x) (hf : ∀ a, Formatted (f a)) : Formatted (x >>= f) := by
  intro transport sent e he
  have hfirst := hx transport sent e
  rw [run_bind] at he
  rcases hrun : x transport sent with ⟨err | a, after⟩
  · rw [hrun] at he hfirst
    obtain rfl := Except.error.inj he
    exact hfirst rfl
  · rw [hrun] at he
    exact hf a transport after e he

theorem FormatsFirst.bind (hx : FormatsFirst x) (hf : ∀ a, Formatted (f a)) :
    FormatsFirst (x >>= f) := by
  intro transport sent e he
  have hfirst := hx transport sent e
  rw [run_bind] at he ⊢
  rcases hrun : x transport sent with ⟨err | a, after⟩
  · rw [hrun] at he hfirst
    obtain rfl := Except.error.inj he
    exact hfirst rfl
  · rw [hrun] at he
    exact absurd he (hf a transport after e)

theorem SendsOnce.bind (hx : SendsOnce x) (hf : ∀ a, Silent (f a)) : SendsOnce (x >>= f) := by
  intro transport sent hne
  have hfirst := hx transport sent
  rw [run_bind] at hne ⊢
  rcases hrun : x transport sent with ⟨err | a, after⟩
  · rw [hrun] at hne hfirst
    exact hfirst fun e he ↦ hne e (congrArg Except.error (Except.error.inj he))
  · rw [hrun] at hfirst
    obtain ⟨r, hr⟩ := hfirst nofun
    exact ⟨r, (hf a transport after).trans hr⟩

theorem Single.bind (hx : Single x) (hf : ∀ a, Reads (f a)) : Single (x >>= f) :=
  ⟨hx.formatsFirst.bind fun a ↦ (hf a).formatted, hx.sendsOnce.bind fun a ↦ (hf a).silent⟩

/-- A request that cannot be formatted is the failure that `SendsOnce` leaves out. -/
theorem SendsOnce.ofFormat_bind {answer : Except FormatError α} (hf : ∀ a, SendsOnce (f a)) :
    SendsOnce (Exchange.ofFormat answer >>= f) := by
  intro transport sent
  cases answer with
  | error e => exact fun hne ↦ absurd rfl (hne e)
  | ok a => exact hf a transport sent

theorem formatsFirst_discard : FormatsFirst (do let _ ← x) ↔ FormatsFirst x := by
  have hrun : ∀ transport sent e,
      ((do let _ ← x : Exchange Unit) transport sent).2 = (x transport sent).2 ∧
        (((do let _ ← x : Exchange Unit) transport sent).1 = .error (.format e) ↔
          (x transport sent).1 = .error (.format e)) := by
    intro transport sent e
    rw [run_bind]
    rcases x transport sent with ⟨err | a, after⟩
    · exact ⟨rfl, fun h ↦ congrArg _ (Except.error.inj h), fun h ↦ congrArg _ (Except.error.inj h)⟩
    · exact ⟨rfl, nofun, nofun⟩
  constructor
  · intro h transport sent e he
    rw [← (hrun transport sent e).1]
    exact h transport sent e ((hrun transport sent e).2.2 he)
  · intro h transport sent e he
    rw [(hrun transport sent e).1]
    exact h transport sent e ((hrun transport sent e).2.1 he)

theorem single_throw (e : FormatError) : Single (throw (.format e) : Exchange α) :=
  ⟨Silent.formatsFirst fun _ _ ↦ rfl, fun _ _ hne ↦ absurd rfl (hne e)⟩

/-- Another answer to a failure of the exchange; a failure in formatting has no other. -/
theorem Single.tryCatch {handle : ClientError → Exchange α} (hx : Single x)
    (hs : ∀ e, Silent (handle e))
    (hf : ∀ e e' transport sent, (handle e transport sent).1 = .error (.format e') ↔
      e = .format e') : Single (tryCatch x handle) := by
  constructor
  case formatsFirst =>
    intro transport sent e he
    have hfirst := hx.formatsFirst transport sent e
    rw [run_tryCatch] at he ⊢
    rcases hrun : x transport sent with ⟨err | a, after⟩
    · rw [hrun] at he hfirst
      exact (hs err transport after).trans (hfirst (congrArg _ ((hf ..).1 he)))
    · rw [hrun] at he
      contradiction
  case sendsOnce =>
    intro transport sent hne
    have hfirst := hx.sendsOnce transport sent
    rw [run_tryCatch] at hne ⊢
    rcases hrun : x transport sent with ⟨err | a, after⟩
    · rw [hrun] at hne hfirst
      obtain ⟨r, hr⟩ := hfirst fun e he ↦ hne e ((hf ..).2 (Except.error.inj he))
      exact ⟨r, (hs err transport after).trans hr⟩
    · rw [hrun] at hfirst
      exact hfirst nofun

end Exchange

namespace Service

open Exchange (FormatsFirst SendsOnce Silent Formatted Reads Single)

variable (s : Service)

theorem sendsOnce_send (r : Request) : SendsOnce (s.send r) := by
  intro transport sent _
  refine ⟨s.withVersion r, ?_⟩
  rw [send, Exchange.run_bind, Exchange.transmit, ExceptT.mk]
  rcases transport sent (s.withVersion r) with fault | response
  · rfl
  · dsimp only [Except.mapError]
    cases response.isSuccess <;> rfl

theorem formatted_send (r : Request) : Formatted (s.send r) := by
  intro transport sent e
  rw [send, Exchange.run_bind, Exchange.transmit, ExceptT.mk]
  rcases transport sent (s.withVersion r) with fault | response
  · exact fun he ↦ ClientError.noConfusion (Except.error.inj he)
  · dsimp only [Except.mapError]
    cases response.isSuccess with
    | true => nofun
    | false => exact fun he ↦ ClientError.noConfusion (Except.error.inj he)

theorem single_send (r : Request) : Single (s.send r) :=
  ⟨(s.formatted_send r).formatsFirst, s.sendsOnce_send r⟩

theorem single_request {α : Type} (request : Except FormatError Request)
    {read : Response → Exchange α} (h : ∀ response, Reads (read response)) :
    Single (Exchange.ofFormat request >>= fun r ↦ s.send r >>= read) := by
  constructor
  case formatsFirst =>
    refine (Exchange.silent_ofFormat request).formatsFirst.bind fun r ↦ ?_
    exact (s.formatted_send r).bind fun response ↦ (h response).formatted
  case sendsOnce =>
    exact .ofFormat_bind fun r ↦ ((s.single_send r).bind h).sendsOnce

theorem reads_nodeOf? (response : Response) : Reads (Exchange.ofExcept (s.nodeOf? response)) := by
  refine Exchange.reads_ofExcept fun e he ↦ ?_
  unfold nodeOf? at he
  split at he
  · contradiction
  · rw [Except.map_eq_error, Except.mapError_eq_error] at he
    obtain ⟨_, -, he⟩ := he
    contradiction

theorem single_ask (request : Except FormatError Request) : Single (s.ask request) :=
  s.single_request request s.reads_nodeOf?

theorem single_tell (request : Except FormatError Request) : Single (s.tell request) :=
  s.single_request request fun _ ↦ Exchange.reads_pure ()

theorem reads_feedOf (node : Option Node) : Reads (Exchange.ofExcept (feedOf node)) := by
  refine Exchange.reads_ofExcept fun e he ↦ ?_
  unfold feedOf at he
  split at he
  case h_3 => exact ClientError.noConfusion (Except.error.inj he)
  all_goals contradiction

theorem single_findEntries (command : Command) : Single (s.findEntries command) :=
  (s.single_ask _).bind reads_feedOf

theorem single_findEntry (command : Command) : Single (s.findEntry command) := by
  refine Single.tryCatch ((s.single_ask _).bind fun node ↦ Exchange.reads_pure (firstOf? node)) ?_ ?_
  · intro e
    split <;> exact fun _ _ ↦ rfl
  · intro e e' transport sent
    split
    · exact ⟨nofun, nofun⟩
    · exact ⟨Except.error.inj, congrArg _⟩

theorem single_count (command : Command) : Single (s.count command) := by
  refine s.single_request _ fun response ↦ Exchange.reads_ofExcept fun e he ↦ ?_
  rw [countOf, Except.mapError_eq_error] at he
  obtain ⟨_, -, he⟩ := he
  contradiction

theorem single_insertEntry (collection : String) (entry : Record) (links : List Link) :
    Single (s.insertEntry collection entry links) :=
  (s.single_ask _).bind fun _ ↦ Exchange.reads_pure _

theorem single_updateEntry (target : Target) (entry : Record) (links : List Link) :
    Single (s.updateEntry target entry links) :=
  (s.single_ask _).bind fun _ ↦ Exchange.reads_pure _

theorem single_executeFunction (command : Command) : Single (s.executeFunction command) := by
  unfold executeFunction
  split
  · exact Exchange.single_throw _
  · exact (s.single_ask _).bind fun _ ↦ Exchange.reads_pure _

/-- The request for updating what has an address fails only with its body. -/
theorem exists_updateRequest_uri (uri : String) (entry : Record) (links : List Link) :
    ∃ ofBody : String → Request, s.updateRequest [] (.uri uri) entry links =
      (s.entityBody [] none entry links).map ofBody := by
  have hmap : ∀ (x : Except FormatError String) (g : String → Request),
      (x >>= fun body ↦ .ok (g body)) = x.map g := by
    intro x g
    cases x <;> rfl
  exact ⟨_, hmap (s.entityBody [] none entry links) _⟩

/-- An entity that was read can be updated without a failure in formatting. -/
theorem formatted_updateRead {entry : Record} {links : List Link} {body : String}
    (h : s.entityBody [] none entry links = .ok body) (existing : Entry) :
    Formatted (s.updateRead entry links existing) := by
  have huri : Reads (Exchange.ofExcept (editUri existing)) := by
    refine Exchange.reads_ofExcept fun e he ↦ ?_
    unfold editUri at he
    split at he
    · contradiction
    · exact ClientError.noConfusion (Except.error.inj he)
  refine huri.formatted.bind fun uri ↦ ?_
  obtain ⟨ofBody, hrequest⟩ := s.exists_updateRequest_uri uri entry links
  have hask : Formatted (s.updateEntry (.uri uri) entry links) := by
    rw [updateEntry, ask, hrequest, h]
    refine Formatted.bind ?_ fun _ ↦ (Exchange.reads_pure _).formatted
    exact (s.formatted_send (ofBody body)).bind fun response ↦ (s.reads_nodeOf? response).formatted
  exact hask.bind fun _ ↦ (Exchange.reads_pure ()).formatted

theorem formatted_forM {α : Type} {action : α → Exchange Unit} (h : ∀ a, Formatted (action a))
    (items : List α) : Formatted (items.forM action) := by
  induction items with
  | nil => exact (Exchange.reads_pure ()).formatted
  | cons a items ih => exact (h a).bind fun _ ↦ ih

theorem updateEntries_of_no_key {command : Command} (h : command.clauses.key = none)
    (entry : Record) (links : List Link) :
    s.updateEntries command entry links = (do
      let feed ← s.findEntries command
      feed.entries.forM (s.updateRead entry links)
      return feed.entries.length) := by
  rw [updateEntries, h]

def foundEntry : Entry :=
  ⟨[], ⟨⟨some "E", none, none, none, none, none, none, none, none⟩, []⟩⟩

def foundResponse : Response :=
  ⟨200, [("Content-Type", "application/json")], "\x7b\"@odata.id\":\"E\"\x7d"⟩

/-- A transport that finds one entity, whatever it is asked. -/
def found : Transport :=
  fun _ _ ↦ .ok foundResponse

theorem nodeOf?_foundResponse : s.nodeOf? foundResponse = .ok (some (.entry foundEntry)) := by
  have hbody : Text.trim foundResponse.body.toList ≠ [] := by decide +kernel
  have hformat : (foundResponse.header? "Content-Type").bind PayloadFormat.ofContentType? =
      some .json := by
    decide +kernel
  have hnode : Node.ofBody .json foundResponse.body = .ok (.entry foundEntry) := by cbv
  rw [nodeOf?, if_neg hbody, Response.payloadFormat, hformat, Option.getD_some, hnode]
  rfl

theorem findEntries_found {command : Command} {r : Request} (h : s.queryRequest command = .ok r)
    (sent : List Request) :
    s.findEntries command found sent = (.ok ⟨[foundEntry], {}⟩, sent ++ [s.withVersion r]) := by
  have hask : s.ask (.ok r) found sent =
      (s.nodeOf? foundResponse, sent ++ [s.withVersion r]) := rfl
  rw [findEntries, h, Exchange.run_bind, hask, nodeOf?_foundResponse]
  rfl

/-- The entity is found, and then its update cannot be formatted. -/
theorem updateEntries_found {command : Command} (hkey : command.clauses.key = none) {r : Request}
    (hr : s.queryRequest command = .ok r) {entry : Record} {links : List Link} {e : FormatError}
    (he : s.entityBody [] none entry links = .error e) (sent : List Request) :
    s.updateEntries command entry links found sent =
      (.error (.format e), sent ++ [s.withVersion r]) := by
  obtain ⟨ofBody, hrequest⟩ := s.exists_updateRequest_uri "E" entry links
  have hupdate (after : List Request) :
      s.updateEntry (.uri "E") entry links found after = (.error (.format e), after) := by
    rw [updateEntry, hrequest, he]
    rfl
  have hread (after : List Request) :
      s.updateRead entry links foundEntry found after = (.error (.format e), after) := by
    have huri : Exchange.ofExcept (editUri foundEntry) found after = (.ok "E", after) := rfl
    rw [updateRead, Exchange.run_bind, huri]
    dsimp only
    rw [Exchange.run_bind, hupdate]
  rw [s.updateEntries_of_no_key hkey, Exchange.run_bind, s.findEntries_found hr]
  dsimp only [List.forM]
  rw [Exchange.run_bind, Exchange.run_bind, hread]

/-- Updating what a command finds formats before it sends, unless the command can be formatted and
the update of what it finds cannot. -/
theorem formatsFirst_updateEntries {command : Command} (h : command.clauses.key = none)
    (entry : Record) (links : List Link) :
    FormatsFirst (s.updateEntries command entry links) ↔
      ∀ r, s.queryRequest command = .ok r → ∃ body, s.entityBody [] none entry links = .ok body := by
  rw [s.updateEntries_of_no_key h]
  constructor
  · intro hfirst r hr
    cases hbody : s.entityBody [] none entry links with
    | ok body => exact ⟨body, rfl⟩
    | error e =>
      have hlate := s.updateEntries_found h hr hbody []
      rw [s.updateEntries_of_no_key h] at hlate
      have hsent := hfirst found [] e (by rw [hlate])
      rw [hlate] at hsent
      contradiction
  · intro hbody
    cases hquery : s.queryRequest command with
    | error e =>
      have hquery : ∀ transport sent,
          s.findEntries command transport sent = (.error (.format e), sent) := by
        intro transport sent
        rw [findEntries, hquery]
        rfl
      intro transport sent _ _
      rw [Exchange.run_bind, hquery]
    | ok r =>
      obtain ⟨body, hbody⟩ := hbody r hquery
      refine (s.single_findEntries command).formatsFirst.bind fun feed ↦ ?_
      refine (formatted_forM (s.formatted_updateRead hbody) feed.entries).bind fun _ ↦ ?_
      exact (Exchange.reads_pure _).formatted

end Service

section

variable {κ : Type}

theorem correlatePart_ne_format {slot : Slot Nat} {part : ResponsePart}
    {outcomes : List (Option PartOutcome)} (e : FormatError) :
    correlatePart outcomes slot part ≠ .error (.format e) := by
  unfold correlatePart
  split
  case h_2 => split <;> nofun
  all_goals nofun

theorem correlateParts_ne_format {slots : List (Slot Nat)} {parts : List ResponsePart}
    {outcomes : List (Option PartOutcome)} (e : FormatError) :
    correlateParts slots parts outcomes ≠ .error (.format e) := by
  induction slots generalizing parts outcomes with
  | nil => nofun
  | cons slot slots ih =>
    cases parts with
    | nil => nofun
    | cons part parts =>
      intro h
      rw [correlateParts] at h
      cases hpart : correlatePart outcomes slot part with
      | error e' =>
        rw [hpart] at h
        obtain rfl := Except.error.inj h
        exact correlatePart_ne_format e hpart
      | ok outcomes' =>
        rw [hpart] at h
        exact ih h

theorem PartOutcome.result_ne_format {index : Nat} {outcome : Option PartOutcome}
    (e : FormatError) : PartOutcome.result index outcome ≠ .error (.format e) := by
  unfold PartOutcome.result
  split
  case h_1 => split <;> nofun
  all_goals nofun

theorem dispatchFrom_ne_format {index : Nat} {outcomes : List (Option PartOutcome)}
    {callbacks : List (Option κ)} (e : FormatError) :
    (dispatchFrom index outcomes callbacks).result ≠ .error (.format e) := by
  induction outcomes generalizing index callbacks with
  | nil => nofun
  | cons outcome outcomes ih =>
    cases callbacks with
    | nil => nofun
    | cons callback callbacks =>
      intro h
      rw [dispatchFrom] at h
      cases hresult : PartOutcome.result index outcome with
      | error e' =>
        rw [hresult] at h
        obtain rfl := Except.error.inj h
        exact PartOutcome.result_ne_format e hresult
      | ok response =>
        rw [hresult] at h
        exact ih (Except.map_eq_error.1 h)

/-- The response to a batch has nothing to do with formatting. -/
theorem Batch.dispatch_ne_format (b : Batch κ) (contentType body : String) (e : FormatError) :
    (b.dispatch contentType body).result ≠ .error (.format e) := by
  intro h
  rw [dispatch] at h
  cases houtcomes : b.outcomes contentType body with
  | ok outcomes =>
    rw [houtcomes] at h
    exact dispatchFrom_ne_format e h
  | error e' =>
    rw [houtcomes] at h
    obtain rfl := Except.error.inj h
    rw [outcomes, BatchError.ofMultipart] at houtcomes
    cases hparts : ResponsePart.ofBody contentType body with
    | error fault =>
      rw [hparts] at houtcomes
      exact BatchError.noConfusion (Except.error.inj houtcomes)
    | ok parts =>
      rw [hparts] at houtcomes
      have hcorrelate : correlate b.layout parts b.size = .error (.format e) := houtcomes
      rw [correlate] at hcorrelate
      split at hcorrelate
      · exact correlateParts_ne_format e hcorrelate
      · exact BatchError.noConfusion (Except.error.inj hcorrelate)

end

theorem ClientError.ofBatch_eq_format {e : BatchError} {e' : FormatError} :
    ClientError.ofBatch e = .format e' ↔ e = .format e' := by
  cases e <;> simp [ClientError.ofBatch]

namespace Service

open Exchange (FormatsFirst SendsOnce Silent Formatted Reads Single)

variable (s : Service) {κ : Type}

/-- What an answer to a batch comes to. -/
def readBatch (b : Batch κ) (response : Response) : Except ClientError (List PartResponse) :=
  match response.header? "Content-Type" with
  | none => .error (.batch (.malformed .noContentType))
  | some contentType => (b.dispatch contentType response.body).result.mapError .ofBatch

theorem reads_readBatch (b : Batch κ) (response : Response) :
    Reads (Exchange.ofExcept (readBatch b response)) := by
  refine Exchange.reads_ofExcept fun e he ↦ ?_
  unfold readBatch at he
  split at he
  · exact ClientError.noConfusion (Except.error.inj he)
  · rw [Except.mapError_eq_error] at he
    obtain ⟨e', hresult, he'⟩ := he
    rw [ClientError.ofBatch_eq_format] at he'
    exact b.dispatch_ne_format _ _ e (he' ▸ hresult)

/-- A batch that is not empty is sent, and its answer read. -/
theorem executeBatch_eq (b : Batch κ) (h : b.isEmpty = false) :
    (ExceptT.mk (do return (← s.executeBatch b).result) : Exchange (List PartResponse)) = (do
      let response ← s.send (s.batchRequest b.payload.contentType b.payload.body)
      Exchange.ofExcept (readBatch b response)) := by
  funext transport sent
  rw [Exchange.run_bind, ExceptT.mk, Session.run_bind, executeBatch, if_neg (by simp [h]),
    Session.run_bind, ExceptT.run]
  rcases s.send (s.batchRequest b.payload.contentType b.payload.body) transport sent with
    ⟨e | response, after⟩
  · rfl
  · dsimp only
    rw [readBatch]
    cases response.header? "Content-Type" <;> rfl

theorem single_executeBatch (b : Batch κ) (h : b.isEmpty = false) :
    Single (ExceptT.mk (do return (← s.executeBatch b).result) : Exchange (List PartResponse)) := by
  rw [s.executeBatch_eq b h]
  exact (s.single_send _).bind (reads_readBatch b)

end Service

/-- What a client can be asked to do. The operations of a batch have been queued before. -/
inductive ClientCall (κ : Type)
  | findEntries (command : Command)
  | findEntry (command : Command)
  | count (command : Command)
  | insertEntry (collection : String) (entry : Record) (links : List Link)
  | updateEntry (target : Target) (entry : Record) (links : List Link)
  | updateEntries (command : Command) (entry : Record) (links : List Link)
  | deleteEntry (target : Target)
  | linkEntry (source : Target) (navigation : String) (target : Target)
  | unlinkEntry (source : Target) (navigation : String) (target : Option Target)
  | executeFunction (command : Command)
  | executeAction (command : Command) (arguments : Record)
  | executeBatch (b : Batch κ)

namespace ClientCall

variable {κ : Type}

/-- Makes a call for a service; its answer is dropped. -/
def perform (s : Service) : ClientCall κ → Exchange Unit
  | findEntries command => do let _ ← s.findEntries command
  | findEntry command => do let _ ← s.findEntry command
  | count command => do let _ ← s.count command
  | insertEntry collection entry links => do let _ ← s.insertEntry collection entry links
  | updateEntry target entry links => do let _ ← s.updateEntry target entry links
  | updateEntries command entry links => do let _ ← s.updateEntries command entry links
  | deleteEntry target => s.deleteEntry target
  | linkEntry source navigation target => s.linkEntry source navigation target
  | unlinkEntry source navigation target => s.unlinkEntry source navigation target
  | executeFunction command => do let _ ← s.executeFunction command
  | executeAction command arguments => do let _ ← s.executeAction command arguments
  | executeBatch b => do
    let _ ← (ExceptT.mk do return (← s.executeBatch b).result : Exchange (List PartResponse))

/-- Calls of one request: all but updating what a command finds, and an empty batch. -/
def isSingle : ClientCall κ → Bool
  | updateEntries _ _ _ => false
  | executeBatch b => !b.isEmpty
  | _ => true

variable (s : Service)

theorem single_perform {call : ClientCall κ} (h : call.isSingle) :
    Exchange.Single (call.perform s) := by
  have hdone {α : Type} (_ : α) : Exchange.Reads (pure () : Exchange Unit) :=
    Exchange.reads_pure ()
  cases call with
  | findEntries command => exact (s.single_findEntries command).bind hdone
  | findEntry command => exact (s.single_findEntry command).bind hdone
  | count command => exact (s.single_count command).bind hdone
  | insertEntry collection entry links =>
    exact (s.single_insertEntry collection entry links).bind hdone
  | updateEntry target entry links => exact (s.single_updateEntry target entry links).bind hdone
  | updateEntries command entry links => contradiction
  | deleteEntry target => exact s.single_tell _
  | linkEntry source navigation target => exact s.single_tell _
  | unlinkEntry source navigation target => exact s.single_tell _
  | executeFunction command => exact (s.single_executeFunction command).bind hdone
  | executeAction command arguments => exact (s.single_ask _).bind hdone
  | executeBatch b => exact (s.single_executeBatch b (by simpa [isSingle] using h)).bind hdone

theorem formatsFirst_perform_updateEntries (command : Command) (entry : Record)
    (links : List Link) :
    Exchange.FormatsFirst ((updateEntries command entry links : ClientCall κ).perform s) ↔
      (command.clauses.key = none → ∀ r, s.queryRequest command = .ok r →
        ∃ body, s.entityBody [] none entry links = .ok body) := by
  rw [perform, Exchange.formatsFirst_discard]
  cases hkey : command.clauses.key with
  | none => simp [s.formatsFirst_updateEntries hkey]
  | some key =>
    have hupdate : s.updateEntries command entry links = (do
        let _ ← s.updateEntry (.entity command) entry links
        return 1) := by
      rw [Service.updateEntries, hkey]
    rw [hupdate]
    refine iff_of_true ?_ nofun
    exact ((s.single_updateEntry _ entry links).bind fun _ ↦ Exchange.reads_pure 1).formatsFirst

/-- A call that fails in formatting has sent nothing, but for updating what a command finds with a
body that cannot be formatted; and every call of one request sends it once, unless formatting
fails. -/
theorem formats_before_sending (call : ClientCall κ) :
    (Exchange.FormatsFirst (call.perform s) ↔
      ∀ command entry links, call = .updateEntries command entry links →
        command.clauses.key = none → ∀ r, s.queryRequest command = .ok r →
          ∃ body, s.entityBody [] none entry links = .ok body) ∧
    (call.isSingle → Exchange.SendsOnce (call.perform s)) := by
  refine ⟨?_, fun h ↦ (single_perform s h).sendsOnce⟩
  cases call with
  | updateEntries command entry links =>
    rw [formatsFirst_perform_updateEntries]
    constructor
    · rintro h _ _ _ ⟨⟩
      exact h
    · intro h
      exact h command entry links rfl
  | executeBatch b =>
    refine iff_of_true ?_ nofun
    cases hempty : b.isEmpty with
    | true =>
      have hrun : s.executeBatch b = pure ⟨[], .ok []⟩ := by
        rw [Service.executeBatch, if_pos hempty]
      rw [perform, hrun]
      exact Exchange.Silent.formatsFirst fun _ _ ↦ rfl
    | false => exact (single_perform s (by simp [isSingle, hempty])).formatsFirst
  | _ => exact iff_of_true (single_perform s rfl).formatsFirst nofun

/-- A service with products. -/
def catalogue : Service where
  formatting :=
    { resolver := (Schema.mk "NS" [⟨"Products", [], []⟩] []).resolver, version := .v4 }

/-- The products are read before it turns out that their category has not been inserted. -/
theorem not_formatsFirst : ¬ ∀ (s : Service) (call : ClientCall Unit),
    Exchange.FormatsFirst (call.perform s) := by
  intro hall
  have hfirst := hall catalogue
    (.updateEntries (.collection "Products" {}) [] [⟨"Category", .pending ⟨1⟩⟩])
  rw [formatsFirst_perform_updateEntries] at hfirst
  obtain ⟨body, hbody⟩ := hfirst rfl _ (by rfl)
  contradiction

end ClientCall
end OData
