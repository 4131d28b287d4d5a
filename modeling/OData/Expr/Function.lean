import OData.Text.AsciiCase
import OData.Version

/-!
The functions that filters may call. A function has a logical name and a number of arguments beside
its target; each dialect that knows it has a name for it and a place for the target among the
arguments.
-/

namespace OData

/-- Where the target of a call stands among the arguments. -/
inductive TargetPlace
  | first
  | last
  | only
  deriving DecidableEq, Repr

/-- A function as a dialect knows it. -/
structure FunctionForm where
  name : String
  target : TargetPlace
  deriving DecidableEq, Repr

/-- A function with its form in each dialect. -/
structure FunctionEntry where
  name : String
  arity : Nat
  v3 : Option FunctionForm
  v4 : Option FunctionForm
  deriving DecidableEq, Repr

namespace FunctionEntry

/-- A function that both dialects know alike. -/
def shared (name : String) (arity : Nat) (protocolName : String) (target : TargetPlace) :
    FunctionEntry :=
  ⟨name, arity, some ⟨protocolName, target⟩, some ⟨protocolName, target⟩⟩

/-- A function of the newer dialect that has only a target. -/
def onlyV4 (name protocolName : String) : FunctionEntry :=
  ⟨name, 0, none, some ⟨protocolName, .only⟩⟩

def form? (e : FunctionEntry) : Version → Option FunctionForm
  | .v3 => e.v3
  | .v4 => e.v4

def table : List FunctionEntry :=
  [⟨"Contains", 1, some ⟨"substringof", .last⟩, some ⟨"contains", .first⟩⟩,
    shared "StartsWith" 1 "startswith" .first,
    shared "EndsWith" 1 "endswith" .first,
    shared "IndexOf" 1 "indexof" .first,
    shared "Replace" 2 "replace" .first,
    shared "Substring" 1 "substring" .first,
    shared "Substring" 2 "substring" .first,
    shared "Concat" 1 "concat" .first,
    shared "Length" 0 "length" .only,
    shared "ToLower" 0 "tolower" .only,
    shared "ToUpper" 0 "toupper" .only,
    shared "Trim" 0 "trim" .only,
    shared "Year" 0 "year" .only,
    shared "Month" 0 "month" .only,
    shared "Day" 0 "day" .only,
    shared "Hour" 0 "hour" .only,
    shared "Minute" 0 "minute" .only,
    shared "Second" 0 "second" .only,
    onlyV4 "FractionalSeconds" "fractionalseconds",
    onlyV4 "Date" "date",
    onlyV4 "Time" "time",
    onlyV4 "TotalOffsetMinutes" "totaloffsetminutes",
    shared "Round" 0 "round" .only,
    shared "Floor" 0 "floor" .only,
    shared "Ceiling" 0 "ceiling" .only]

end FunctionEntry

/-- The form of a function in a dialect; the case of its name does not count. -/
def lookupFunction (version : Version) (name : String) (arity : Nat) : Option FunctionForm :=
  (FunctionEntry.table.find? fun e ↦ e.arity = arity && Text.sameIgnoringCase e.name name).bind
    (·.form? version)

/-- Whether a name may end a path as a function of what stands before it. -/
def isSegmentFunction (version : Version) (name : String) : Bool :=
  (lookupFunction version name 0).isSome

def supportedFunctions (version : Version) : List (String × Nat × FunctionForm) :=
  FunctionEntry.table.filterMap fun e ↦ (e.form? version).map fun form ↦ (e.name, e.arity, form)

end OData
