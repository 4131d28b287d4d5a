import OData.Text.AsciiCase

/-!
Requests to a service and the responses to them.
-/

namespace OData

inductive Method
  | get
  | post
  | put
  | patch
  /-- A partial update in the older dialect. -/
  | merge
  | delete
  deriving DecidableEq, Repr

def Method.name : Method → String
  | get => "GET"
  | post => "POST"
  | put => "PUT"
  | patch => "PATCH"
  | merge => "MERGE"
  | delete => "DELETE"

/-- Headers in order. A name may occur more than once. -/
abbrev Headers := List (String × String)

/-- The first value under a name in any letter case. -/
def Headers.value? (name : String) : Headers → Option String
  | [] => none
  | (n, value) :: rest => if Text.sameIgnoringCase n name then some value else value? name rest

structure Request where
  method : Method
  uri : String
  headers : Headers := []
  body : Option String := none
  deriving DecidableEq, Repr

def Request.header? (r : Request) (name : String) : Option String :=
  Headers.value? name r.headers

/-- A request with one more header, behind all others. -/
def Request.withHeader (r : Request) (name value : String) : Request :=
  { r with headers := r.headers ++ [(name, value)] }

structure Response where
  status : Nat
  headers : Headers
  body : String
  deriving DecidableEq, Repr

def Response.header? (r : Response) (name : String) : Option String :=
  Headers.value? name r.headers

def Response.isSuccess (r : Response) : Bool :=
  200 ≤ r.status && r.status < 300

end OData
