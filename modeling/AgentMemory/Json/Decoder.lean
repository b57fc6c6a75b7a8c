import AgentMemory.Json.Document

/-!
# Decoders

A decoder reads a document as a value of a type, or reports the first fault in the order of the
text. A value of the wrong kind is a mismatch, but a number or a quoted text that is itself at fault
is reported for that. `ofText` decodes a text, `ofJson` a value that has been read before; the
latter knows no fault but a mismatch.
-/

namespace AgentMemory.Json

/-- A reading of documents. -/
abbrev Decoder (α : Type) := Doc → Except Fault α

namespace Decoder

variable {α β : Type}

/-! ## Running a decoder -/

/-- Decodes a text. Only blanks may follow the value. -/
def ofText (d : Decoder α) (s : String) : Except Fault α :=
  match Doc.parse s with
  | (doc, trailing) => do
    let a ← d doc
    if trailing then .error .malformed else .ok a

def ofJson? (d : Decoder α) (j : Json) : Option α :=
  match d (Doc.ofJson j) with
  | .ok a => some a
  | .error _ => none

/-- Decodes a value; every fault is a mismatch. -/
def ofJson (d : Decoder α) (j : Json) : Except Fault α :=
  match d.ofJson? j with
  | some a => .ok a
  | none => .error .mismatch

/-- The fault of a document of the wrong kind: its own, if it has one. -/
def reject : Doc → Fault
  | .number none | .text none => .malformed
  | .broken b => b.asValue
  | _ => .mismatch

/-! ## Single values -/

def string : Decoder String
  | .text (some s) => .ok s
  | doc => .error (reject doc)

def bool : Decoder Bool
  | .bool b => .ok b
  | doc => .error (reject doc)

/-- A natural number below a bound. -/
def natBelow (bound : Nat) : Decoder Nat
  | .number (some (.int n)) => if 0 ≤ n ∧ n < bound then .ok n.toNat else .error .mismatch
  | doc => .error (reject doc)

def nat : Decoder Nat := natBelow (Nat.pow 2 64)

/-- Any value, in canonical form. -/
def json : Decoder Json := fun doc => doc.content.map canonical

def map (f : α → β) (d : Decoder α) : Decoder β := fun doc => (d doc).map f

/-- A text that a function accepts. -/
def parsed (f : String → Option α) : Decoder α := fun doc => do
  match f (← string doc) with
  | some a => .ok a
  | none => .error .mismatch

/-- A value, or nothing where there is null. -/
def option (d : Decoder α) : Decoder (Option α)
  | .null => .ok none
  | doc => (d doc).map some

/-! ## Arrays -/

/-- The items of an array, read in turn. -/
def items (d : Decoder α) : List Doc → Except Fault (List α)
  | [] => .ok []
  | doc :: docs => do
    let a ← d doc
    let as ← items d docs
    return a :: as

def list (d : Decoder α) : Decoder (List α)
  | .array false docs ending => do
    let as ← items d docs
    ending.check
    return as
  | .array true _ _ => .error .malformed
  | doc => .error (reject doc)

/-! ## Choices -/

/-- Looks up a name. -/
def named (choices : List (String × α)) (name : String) : Except Fault α :=
  match choices.find? (·.1 == name) with
  | some (_, a) => .ok a
  | none => .error .mismatch

def nothing : Decoder Unit
  | .null => .ok ()
  | doc => .error (reject doc)

/-- Nothing, inside a case of a union: null, or an object without members. -/
def nothingWithin : Decoder Unit
  | .object false [] .closed => .ok ()
  | doc => nothing doc

/-- One of the given names, as a text or as the only key of an object that holds nothing else. -/
def choiceWith (nothing : Decoder Unit) (choices : List (String × α)) : Decoder α
  | .text (some s) => named choices s
  | .object true _ _ => .error .malformed
  | .object false [] _ => .error .malformed
  | .object false ((key, doc) :: rest) ending => do
    let a ← named choices (← Doc.keyName key)
    nothing doc
    if rest.isEmpty then ending.check else .error .malformed
    return a
  | .broken b => .error b.asName
  | _ => .error .malformed

def choice (choices : List (String × α)) : Decoder α := choiceWith nothing choices

/-- One of the given names, inside a case of a union. -/
def choiceWithin (choices : List (String × α)) : Decoder α := choiceWith nothingWithin choices

/-! ## Tagged unions -/

/-- The cases of a union by their names. -/
abbrev Cases (α : Type) := List (String × Decoder α)

/-- The case that a tag names. -/
def pickCase (cases : Cases α) (doc : Doc) : Except Fault (Decoder α) := do
  named cases (← string doc)

/-- The case that a tag names inside a case of another union, where it may also give the position of
the case. -/
def pickCaseWithin (cases : Cases α) : Doc → Except Fault (Decoder α)
  | .number (some (.int (.ofNat n))) =>
    match cases[n]? with
    | some (_, d) => .ok d
    | none => .error .mismatch
  | doc => pickCase cases doc

/-- The members of an object apart from the tag, and the decoder that the tag picks. -/
def tagMembers (tag : String) (pick : Doc → Except Fault (Decoder α))
    (picked : Option (Decoder α)) :
    List (Doc.Key × Doc) → Except Fault (Option (Decoder α) × List (String × Json))
  | [] => .ok (picked, [])
  | (key, doc) :: rest => do
    let key ← Doc.keyText key
    if key == tag then
      if picked.isSome then .error .mismatch
      else do tagMembers tag pick (some (← pick doc)) rest
    else
      let j ← doc.content
      let (picked, members) ← tagMembers tag pick picked rest
      return (picked, (key, j) :: members)

/-- A union whose cases are told apart by a member of their object. The other members are read
before the case is decoded, wherever the tag stands. As an array, the tag comes first. -/
def taggedWith (tag : String) (pick : Doc → Except Fault (Decoder α)) : Decoder α
  | .object false members ending => do
    let (picked, members) ← tagMembers tag pick none members
    ending.check
    match picked with
    | some d => d.ofJson (.object members)
    | none => .error .mismatch
  | .array false docs ending => do
    match docs with
    | [] =>
      ending.check
      .error .mismatch
    | doc :: docs =>
      let d ← pick doc
      let js ← Doc.contentItems docs
      ending.check
      d.ofJson (.array js)
  | .object true _ _ | .array true _ _ => .error .malformed
  | doc => .error (reject doc)

/-- A union of named cases. -/
def tagged (tag : String) (cases : Cases α) : Decoder α := taggedWith tag (pickCase cases)

/-- A union of named cases, inside a case of another union. -/
def taggedWithin (tag : String) (cases : Cases α) : Decoder α :=
  taggedWith tag (pickCaseWithin cases)

end Decoder
end AgentMemory.Json
