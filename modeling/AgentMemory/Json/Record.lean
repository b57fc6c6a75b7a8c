import AgentMemory.Json.Decoder

/-!
# Records

The fields of a record are declared in order, each with its key, its decoder and what it takes when
it is absent. A record is read from an object, whose members may come in any order, or from an array
of its fields in declaration order. Either way the fields come out as a tuple in that order, from
which the record is built.
-/

namespace AgentMemory.Json

/-- The declared fields of a record. A field without a value for `whenAbsent` must be given. -/
inductive Fields : List Type → Type 1 where
  | nil : Fields []
  | cons {α : Type} {αs : List Type} (key : String) (decode : Decoder α) (whenAbsent : Option α)
      (rest : Fields αs) : Fields (α :: αs)

/-- One value for each field. -/
def Tuple : List Type → Type
  | [] => Unit
  | α :: αs => α × Tuple αs

/-- The values of the fields read so far. -/
def Slots : List Type → Type
  | [] => Unit
  | α :: αs => Option α × Slots αs

namespace Fields

variable {α β : Type}

def required {αs : List Type} (key : String) (d : Decoder α) (rest : Fields αs) :
    Fields (α :: αs) :=
  .cons key d none rest

/-- A field with a default. -/
def defaulted {αs : List Type} (key : String) (d : Decoder α) (default : α) (rest : Fields αs) :
    Fields (α :: αs) :=
  .cons key d (some default) rest

/-- A field that may be null or absent. -/
def omittable {αs : List Type} (key : String) (d : Decoder α) (rest : Fields αs) :
    Fields (Option α :: αs) :=
  .cons key d.option (some none) rest

def empty : {αs : List Type} → Fields αs → Slots αs
  | _, .nil => ()
  | _, .cons _ _ _ rest => (none, rest.empty)

/-- Reads a member into its slot. Nothing comes out for a key that no field has; a field given
twice is a mismatch. -/
def store (key : String) (doc : Doc) :
    {αs : List Type} → Fields αs → Slots αs → Except Fault (Option (Slots αs))
  | _, .nil, _ => .ok none
  | _, .cons k d _ rest, (slot, slots) =>
    if k == key then
      if slot.isSome then .error .mismatch
      else do return some (some (← d doc), slots)
    else do return (← store key doc rest slots).map fun slots => (slot, slots)

/-- Reads the members of an object. A key that no field has is passed over, or refused if the record
is `strict`. -/
def storeAll {αs : List Type} (strict : Bool) (fields : Fields αs) (slots : Slots αs) :
    List (Doc.Key × Doc) → Except Fault (Slots αs)
  | [] => .ok slots
  | (key, doc) :: rest => do
    match ← fields.store (← Doc.keyText key) doc slots with
    | some slots => storeAll strict fields slots rest
    | none =>
      if strict then .error .mismatch
      else
        doc.skip
        storeAll strict fields slots rest

/-- Fills the slots left empty with what the fields take when absent. -/
def complete : {αs : List Type} → Fields αs → Slots αs → Except Fault (Tuple αs)
  | _, .nil, _ => .ok ()
  | _, .cons _ _ whenAbsent rest, (slot, slots) =>
    match slot <|> whenAbsent with
    | none => .error .mismatch
    | some a => do return (a, ← rest.complete slots)

/-- Reads the fields from the items of an array. An item may be missing at the end for a field that
may be absent, a superfluous one never. -/
def ofItems (ending : Ending) :
    {αs : List Type} → Fields αs → List Doc → Except Fault (Tuple αs)
  | _, .nil, [] => do
    ending.check
    return ()
  | _, .nil, _ :: _ => .error .malformed
  | _, .cons _ d _ rest, doc :: docs => do
    let a ← d doc
    return (a, ← rest.ofItems ending docs)
  | _, .cons _ _ whenAbsent rest, [] => do
    ending.check
    match whenAbsent with
    | some a => return (a, ← rest.ofItems ending [])
    | none => .error .mismatch

/-- The fields of a document. -/
def decode {αs : List Type} (strict : Bool) (fields : Fields αs) : Decoder (Tuple αs)
  | .object false members ending => do
    let slots ← fields.storeAll strict fields.empty members
    ending.check
    fields.complete slots
  | .array false docs ending => fields.ofItems ending docs
  | .object true _ _ | .array true _ _ => .error .malformed
  | doc => .error (Decoder.reject doc)

/-- A record built from its fields. Unknown members are passed over. -/
def record {αs : List Type} (fields : Fields αs) (build : Tuple αs → β) : Decoder β :=
  (fields.decode false : Decoder _).map build

/-- A record built from its fields. Unknown members are refused. -/
def strictRecord {αs : List Type} (fields : Fields αs) (build : Tuple αs → β) : Decoder β :=
  (fields.decode true : Decoder _).map build

end Fields

/-! ## Writing records -/

/-- A member that is left out when there is no value. -/
def member? (key : String) (value : Option Json) : List (String × Json) :=
  match value with
  | some j => [(key, j)]
  | none => []

end AgentMemory.Json
