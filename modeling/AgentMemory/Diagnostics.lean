import AgentMemory.Text.Quoted

/-!
# Captured diagnostics

A capture keeps every diagnostic event in the order in which they are emitted: its level, its
message and its fields, each field as text. Messages are searched for by a part of them.
-/

namespace AgentMemory.Diagnostics

/-- How much an event matters. -/
inductive Level where
  | trace
  | debug
  | info
  | warn
  | error
  deriving DecidableEq

def Level.name : Level → String
  | trace => "TRACE"
  | debug => "DEBUG"
  | info => "INFO"
  | warn => "WARN"
  | error => "ERROR"

/-- All levels, those that matter least first. -/
def Level.all : List Level := [trace, debug, info, warn, error]

/-- The value of a field. -/
inductive FieldValue where
  | text (s : String)
  | number (n : Int)
  | flag (b : Bool)
  /-- A text shown in quotes. -/
  | quoted (s : String)

def FieldValue.shown : FieldValue → String
  | text s => s
  | number n => toString n
  | flag true => "true"
  | flag false => "false"
  | quoted s => Text.quoted s

/-- A diagnostic event. -/
structure Record where
  level : Level
  message : String
  fields : List (String × String) := []

/-- The first field of a name. -/
def Record.field? (r : Record) (name : String) : Option String :=
  (r.fields.find? (·.1 = name)).map (·.2)

/-- Whether a text occurs in another. -/
def occursIn (part whole : List Char) : Bool :=
  match whole with
  | [] => part.isEmpty
  | _ :: rest => part.isPrefixOf whole || occursIn part rest

/-- Whether a part of the message is as given. -/
def Record.mentions (r : Record) (part : String) : Bool := occursIn part.toList r.message.toList

/-- The events captured so far. -/
structure Capture where
  records : List Record := []

namespace Capture

/-- Captures an event with its fields. -/
def emit (c : Capture) (level : Level) (message : String) (fields : List (String × FieldValue)) :
    Capture :=
  ⟨c.records ++ [⟨level, message, fields.map fun (name, value) => (name, value.shown)⟩]⟩

def clear (_ : Capture) : Capture := {}

def hasMessage (c : Capture) (part : String) : Bool := c.records.any (·.mentions part)

/-- Whether an event of a level mentions a text. -/
def hasEvent (c : Capture) (level : Level) (part : String) : Bool :=
  c.records.any fun r => r.level = level && r.mentions part

def count (c : Capture) (level : Level) : Nat := (c.records.filter (·.level = level)).length

end Capture
end AgentMemory.Diagnostics
