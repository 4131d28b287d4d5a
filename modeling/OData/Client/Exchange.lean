import OData.Client.Error
import OData.Service.Request

/-!
Exchanges with a service. A transport answers each request by what has been sent before it, so that
the requests that were sent are all there is to know of the state of a session.
-/

namespace OData

/-- How a request is answered after those sent before. -/
abbrev Transport := (sent : List Request) → Request → Except TransportFault Response

/-- What is done over a transport; the state is the requests sent so far, in order. -/
abbrev Session := ReaderT Transport (StateM (List Request))

/-- What may fail on the way. -/
abbrev Exchange := ExceptT ClientError Session

namespace Exchange

variable {α : Type}

/-- What does not depend on the transport. -/
def ofExcept (answer : Except ClientError α) : Exchange α :=
  ExceptT.mk (pure answer)

def ofFormat (answer : Except FormatError α) : Exchange α :=
  ofExcept (answer.mapError .format)

def transmit (r : Request) : Exchange Response :=
  ExceptT.mk fun transport sent ↦
    ((transport sent r).mapError .transport, sent ++ [r])

end Exchange

namespace Service

variable (s : Service)

/-- A request with the version that it is written in, which is also the highest that is understood.
-/
def withVersion (r : Request) : Request :=
  (r.withHeader s.version.headerName s.version.headerValue).withHeader
    s.version.maxHeaderName s.version.headerValue

/-- Sends a request once. Only a success is an answer. -/
def send (r : Request) : Exchange Response := do
  let response ← Exchange.transmit (s.withVersion r)
  if response.isSuccess then return response
  else throw (.remoteOperation response.status response.body)

end Service
end OData
