import AgentMemory.Event.Codec
import AgentMemory.Storage.Error
import AgentMemory.Text.Basic
import AgentMemory.Warning

/-!
# Storage in a directory

A file for each event, named for its position in the log, then its id, and one for the sidecar. A
file is replaced as a whole. Loading goes by the numbers in the names: they must be those from zero
on, each once. They are padded to five digits, but any digits are read, as is a plus sign before
them. Names that are no text belong to no file of the storage and are not held.
-/

namespace AgentMemory.Storage

/-! ## Names of files -/

/-- What the names of event files begin with. -/
def eventPrefix : String := "event-"

/-- What the names of event files end with. -/
def eventSuffix : String := ".json"

/-- The name of the sidecar, which holds everything that is no event. -/
def baseFileName : String := "base_state.json"

/-- The name of the file of an event. -/
def eventFileName (sequence : Nat) (id : EventId) : String :=
  eventPrefix ++ Text.padded 5 sequence ++ "-" ++ id.text ++ eventSuffix

/-- What is left of a text after some characters at its front. -/
def dropFront : List Char → List Char → Option (List Char)
  | [], cs => some cs
  | _ :: _, [] => none
  | x :: xs, c :: cs => if x = c then dropFront xs cs else none

/-- What is left of a text before some characters at its end. -/
def dropBack (xs cs : List Char) : Option (List Char) :=
  (dropFront xs.reverse cs.reverse).map List.reverse

/-- The sequence number in the name of an event file: what stands before the first dash. -/
def sequence? (name : String) : Option Nat := do
  let rest ← dropBack eventSuffix.toList (← dropFront eventPrefix.toList name.toList)
  if '-' ∈ rest then Text.unsigned? (String.ofList (rest.takeWhile (· ≠ '-'))) else none

def looksLikeEvent (name : String) : Bool := (dropFront eventPrefix.toList name.toList).isSome

/-! ## Files of events -/

/-- A directory. -/
structure Directory where
  path : String
  /-- The entries in the order in which they are listed; nothing when there is no such directory. -/
  entries : Option (List (String × File)) := some []

/-- An event file as it is listed, with the number in its name. -/
structure EventFile where
  sequence : Nat
  name : String
  file : File

/-- Whether a file comes before another: by number, then by name. -/
def EventFile.le (a b : EventFile) : Bool :=
  a.sequence < b.sequence || (a.sequence = b.sequence && !(b.name < a.name))

/-- The event in a file that is expected at a position. -/
def EventFile.read (expected : Nat) (f : EventFile) : Except StoreError Event := do
  if f.sequence ≠ expected then
    .error (.corruptFile f.name (.wrongSequence expected f.sequence))
  else
    let content ← f.file.read.mapError .io
    (Json.Decoder.ofText Event.decoder content).mapError
      fun fault => .corruptFile f.name (.undecodable fault)

namespace Directory

/-! ## Entries -/

/-- The directory, made if it is not there. -/
def opened (d : Directory) : Directory := { d with entries := some (d.entries.getD []) }

/-- The entry of a name. -/
def entry? (d : Directory) (name : String) : Option File :=
  ((d.entries.getD []).find? (·.1 = name)).map (·.2)

/-- Puts an entry in the place of the one of the same name, or after all others. -/
def replace (name : String) (file : File) : List (String × File) → List (String × File)
  | [] => [(name, file)]
  | (n, f) :: rest => if n = name then (name, file) :: rest else (n, f) :: replace name file rest

/-- Whether a name leads out of a directory. -/
def leadsOut (name : String) : Bool := '/' ∈ name.toList

/-- The directory after an entry has been put there from outside. A folder is not replaced, and
replaces nothing. -/
def put (d : Directory) (name : String) (file : File) : Directory :=
  let taken : Bool := match file with
    | .folder => (d.entry? name).isSome
    | _ => d.entry? name = some .folder
  if taken || leadsOut name then d else { d with entries := d.entries.map (replace name file) }

/-- The directory after a file has been removed from outside. -/
def remove (d : Directory) (name : String) : Directory :=
  if d.entry? name = some .folder then d
  else { d with entries := d.entries.map (·.filter (·.1 ≠ name)) }

/-- Writes a file. There must be a directory, the name must not lead out of it, and a folder is not
replaced. -/
def write (d : Directory) (name content : String) : Except StoreError Directory :=
  match d.entries with
  | none => .error (.io .notFound)
  | some entries =>
    if leadsOut name then .error (.io .notFound)
    else if d.entry? name = some .folder then .error (.io .isADirectory)
    else .ok { d with entries := some (replace name (.text content) entries) }

/-! ## Events -/

def persist (d : Directory) (sequence : Nat) (e : Event) : Except StoreError Directory :=
  d.write (eventFileName sequence e.id) e.toJson.pretty

/-- The event files among some entries. -/
def eventFiles (entries : List (String × File)) : List EventFile :=
  entries.filterMap fun (name, file) => (sequence? name).map fun sequence => ⟨sequence, name, file⟩

/-- The events in files that are expected from a position on. -/
def readFrom (position : Nat) : List EventFile → Except StoreError (List Event)
  | [] => .ok []
  | f :: fs => do
    let e ← f.read position
    let es ← readFrom (position + 1) fs
    return e :: es

/-- The stored events in order. -/
def load (d : Directory) : Except StoreError (List Event) :=
  match d.entries with
  | none => .error (.io .notFound)
  | some entries => readFrom 0 ((eventFiles entries).mergeSort EventFile.le)

/-- The reports of entries that are named almost like event files. -/
def loadWarnings (d : Directory) : List Warning :=
  (d.entries.getD []).filterMap fun (name, _) =>
    if (sequence? name).isNone && looksLikeEvent name then some (.unrecognizedFileName name)
    else none

/-! ## The sidecar -/

def writeBase (d : Directory) (base : Json) : Except StoreError Directory :=
  d.write baseFileName base.pretty

def readBase (d : Directory) : Except StoreError (Option Json) := do
  match d.entry? baseFileName with
  | none => return none
  | some file =>
    let content ← file.read.mapError .io
    let base ← (Json.Decoder.ofText .json content).mapError .json
    return some base

end Directory
end AgentMemory.Storage
