import OData.Batch.Dispatch
import OData.Client.Exchange

/-!
What a client does with a service: reading and writing entities, links between them, functions and
actions, and batches. Every call formats its request before it sends anything.
-/

namespace OData.Service

variable (s : Service)

/-- What a response says; one without a body says nothing. -/
def nodeOf? (r : Response) : Except ClientError (Option Node) :=
  if Text.trim r.body.toList = [] then .ok none
  else ((Node.ofBody (r.payloadFormat s.format) r.body).mapError .read).map some

/-- Sends a request, if it can be formatted, and reads what is answered. -/
def ask (request : Except FormatError Request) : Exchange (Option Node) := do
  let response ← s.send (← Exchange.ofFormat request)
  Exchange.ofExcept (s.nodeOf? response)

/-- Sends a request, if it can be formatted. -/
def tell (request : Except FormatError Request) : Exchange Unit := do
  let _ ← s.send (← Exchange.ofFormat request)

def firstOf? (node : Option Node) : Option Entry :=
  node.bind fun n ↦ n.entries.head?

/-- What was answered as a feed: an entity is a feed of one, and no answer is an empty feed. -/
def feedOf : Option Node → Except ClientError Feed
  | some (.feed feed) => .ok feed
  | some (.entry e) => .ok ⟨[e], {}⟩
  | some (.value v) => .error (.read (.malformed (.valueForFeed v.typeName)))
  | none => .ok ⟨[], {}⟩

def findEntries (command : Command) : Exchange Feed := do
  let node ← s.ask (s.queryRequest command)
  Exchange.ofExcept (feedOf node)

/-- The first entity that a command asks for; there is none where the service finds nothing. -/
def findEntry (command : Command) : Exchange (Option Entry) :=
  tryCatch (firstOf? <$> s.ask (s.queryRequest command)) fun e ↦
    match e with
    | .remoteOperation 404 _ => return none
    | e => throw e

def countOf (body : String) : Except ClientError Nat :=
  let text := Text.trim body.toList
  (Number.readNatural (UInt64.size - 1) text).mapError fun fault ↦
    .read (.malformed (.invalidCount (String.ofList text) fault.message))

def count (command : Command) : Exchange Nat := do
  let command := command.withClauses { command.clauses with count := .only }
  let response ← s.send (← Exchange.ofFormat (s.queryRequest command))
  Exchange.ofExcept (countOf response.body)

/-- Inserts an entity, and answers it as the service sends it back. -/
def insertEntry (collection : String) (entry : Record) (links : List Link) :
    Exchange (Option Entry) := do
  let node ← s.ask ((s.insertRequest [] collection entry links).map Prod.fst)
  return firstOf? node

/-- Changes an entity, and answers it as the service sends it back. -/
def updateEntry (target : Target) (entry : Record) (links : List Link) :
    Exchange (Option Entry) := do
  let node ← s.ask (s.updateRequest [] target entry links)
  return firstOf? node

/-- The address at which an entity that was read can be changed. -/
def editUri (e : Entry) : Except ClientError String :=
  match e.annotations.own.editLink <|> e.annotations.own.id with
  | some uri => .ok uri
  | none => .error (.read (.malformed .noAddress))

def updateRead (entry : Record) (links : List Link) (existing : Entry) : Exchange Unit := do
  let uri ← Exchange.ofExcept (editUri existing)
  let _ ← s.updateEntry (.uri uri) entry links

/-- Changes every entity that a command asks for, and answers how many there were. One with a key is
changed without being read. -/
def updateEntries (command : Command) (entry : Record) (links : List Link) : Exchange Nat :=
  match command.clauses.key with
  | some _ => do
    let _ ← s.updateEntry (.entity command) entry links
    return 1
  | none => do
    let feed ← s.findEntries command
    feed.entries.forM (s.updateRead entry links)
    return feed.entries.length

def deleteEntry (target : Target) : Exchange Unit :=
  s.tell (s.deleteRequest [] target)

def linkEntry (source : Target) (navigation : String) (target : Target) : Exchange Unit :=
  s.tell (s.linkRequest [] source navigation target)

def unlinkEntry (source : Target) (navigation : String) (target : Option Target) : Exchange Unit :=
  s.tell (s.unlinkRequest [] source navigation target)

/-- Calls the function of a command; no answer is the null value. -/
def executeFunction (command : Command) : Exchange Node :=
  match command.clauses.function with
  | none => throw (.format (.malformedCommand .noFunction))
  | some _ => do
    let node ← s.ask (s.queryRequest command)
    return node.getD (.value .null)

def executeAction (command : Command) (arguments : Record) : Exchange (Option Node) :=
  s.ask (s.actionRequest command arguments)

variable {κ : Type}

def startBatch (boundary changesetBoundary : String) : Batch κ :=
  { service := s, boundary, changesetBoundary }

/-- Sends a batch and brings the response back to its operations. An empty batch is not sent. -/
def executeBatch (b : Batch κ) : Session (Dispatch κ ClientError) := do
  if b.isEmpty then return ⟨[], .ok []⟩
  match ← (s.send (s.batchRequest b.payload.contentType b.payload.body)).run with
  | .error e => return ⟨[], .error e⟩
  | .ok response =>
    match response.header? "Content-Type" with
    | none => return ⟨[], .error (.batch (.malformed .noContentType))⟩
    | some contentType =>
      let d := b.dispatch contentType response.body
      return ⟨d.notifications, d.result.mapError .ofBatch⟩

end OData.Service
