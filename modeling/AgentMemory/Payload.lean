import AgentMemory.Event.Basic
import AgentMemory.Json.Decoder
import AgentMemory.Text.Quoted

/-!
# The registry of payloads

The arguments of a tool call name their kind, and the registry says which schema a kind has. The
engine never looks into the arguments itself.
-/

namespace AgentMemory

open Json (Decoder Fault)

/-- The form of a kind of arguments. -/
structure PayloadSchema where
  name : String
  /-- Reads data of this form, and writes what has been read. -/
  normalize : Decoder Json

/-- Why arguments are not accepted. -/
inductive PayloadError where
  | unknownKind (kind : String)
  | typeMismatch (kind registered requested : String)
  | invalid (kind : String) (fault : Fault)
  deriving DecidableEq

def PayloadError.kind : PayloadError → String
  | unknownKind _ => "UnknownKind"
  | typeMismatch .. => "TypeMismatch"
  | invalid .. => "Invalid"

def PayloadError.message : PayloadError → String
  | unknownKind kind => "unknown payload kind: " ++ kind
  | typeMismatch kind registered requested =>
    "payload kind '" ++ kind ++ "' is registered as " ++ registered ++ ", not " ++ requested
  | invalid kind fault => "invalid '" ++ kind ++ "' payload: " ++ fault.details

/-- The schemas of kinds, in the order of the kinds. -/
structure PayloadRegistry where
  schemas : List (String × PayloadSchema) := []

namespace PayloadRegistry

def insert (kind : String) (schema : PayloadSchema) :
    List (String × PayloadSchema) → List (String × PayloadSchema)
  | [] => [(kind, schema)]
  | (k, x) :: rest =>
    if kind < k then (kind, schema) :: (k, x) :: rest
    else if k < kind then (k, x) :: insert kind schema rest
    else (kind, schema) :: rest

/-- The registry with a further kind. -/
def register (r : PayloadRegistry) (kind : String) (schema : PayloadSchema) : PayloadRegistry :=
  ⟨insert kind schema r.schemas⟩

def kinds (r : PayloadRegistry) : List String := r.schemas.map (·.1)

def isRegistered (r : PayloadRegistry) (kind : String) : Bool := kind ∈ r.kinds

def schema (r : PayloadRegistry) (kind : String) : Except PayloadError PayloadSchema :=
  match r.schemas.find? (·.1 = kind) with
  | some (_, schema) => .ok schema
  | none => .error (.unknownKind kind)

/-- The arguments as their schema writes them. -/
def normalized (schema : PayloadSchema) (p : ToolPayload) : Except PayloadError Json :=
  (Decoder.ofJson schema.normalize p.data).mapError (.invalid p.kind)

/-- Checks arguments against the schema of their kind. -/
def validate (r : PayloadRegistry) (p : ToolPayload) : Except PayloadError Unit := do
  let _ ← normalized (← r.schema p.kind) p

/-- Reads arguments in the form of a schema, which must be that of their kind. -/
def decode (r : PayloadRegistry) (requested : PayloadSchema) (p : ToolPayload) :
    Except PayloadError Json := do
  let schema ← r.schema p.kind
  if schema.name ≠ requested.name then
    .error (.typeMismatch p.kind schema.name requested.name)
  else normalized requested p

def describe (r : PayloadRegistry) : String :=
  "PayloadRegistry \x7b kinds: [" ++ ", ".intercalate (r.kinds.map Text.quoted) ++ "] \x7d"

end PayloadRegistry
end AgentMemory
