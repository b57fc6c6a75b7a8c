import AgentMemory.Storage.Directory

/-!
# Storage

Where the events and the sidecar of one conversation are kept: in memory, in a directory, or with a
backend of another make. Storage in memory accepts only the event that comes next.
-/

namespace AgentMemory

namespace Storage

/-- Storage in memory: the events in order, and the sidecar. -/
structure Memory where
  events : List Event := []
  base : Option Json := none

def Memory.persist (m : Memory) (sequence : Nat) (e : Event) : Except StoreError Memory :=
  if sequence ≠ m.events.length then .error (.refused (.outOfOrder sequence m.events.length))
  else .ok { m with events := m.events ++ [e] }

/-- A backend of another make. It can refuse events and the sidecar, each for a reason of its own;
what it takes it keeps as storage in memory does. -/
structure Backend where
  label : String
  kept : Memory := {}
  /-- Why it takes no events, if it takes none. -/
  eventFault : Option String := none
  /-- Why it takes no sidecar, if it takes none. -/
  baseFault : Option String := none

namespace Backend

def persist (b : Backend) (sequence : Nat) (e : Event) : Except StoreError Backend :=
  match b.eventFault with
  | some reason => .error (.refused (.failed reason))
  | none => (b.kept.persist sequence e).map fun kept => { b with kept }

def writeBase (b : Backend) (base : Json) : Except StoreError Backend :=
  match b.baseFault with
  | some reason => .error (.refused (.failed reason))
  | none => .ok { b with kept := { b.kept with base := some base } }

end Backend
end Storage

/-- The storage of a conversation. -/
inductive Storage where
  | memory (m : Storage.Memory)
  | directory (d : Storage.Directory)
  | backend (b : Storage.Backend)

namespace Storage

def persist (s : Storage) (sequence : Nat) (e : Event) : Except StoreError Storage :=
  match s with
  | memory m => (m.persist sequence e).map memory
  | directory d => (d.persist sequence e).map directory
  | backend b => (b.persist sequence e).map backend

/-- The stored events in order. -/
def load : Storage → Except StoreError (List Event)
  | memory m => .ok m.events
  | directory d => d.load
  | backend b => .ok b.kept.events

/-- What is reported when the events are loaded. -/
def loadWarnings : Storage → List Warning
  | directory d => d.loadWarnings
  | memory _ | backend _ => []

/-- Replaces the sidecar. -/
def writeBase (s : Storage) (base : Json) : Except StoreError Storage :=
  match s with
  | memory m => .ok (memory { m with base := some base })
  | directory d => (d.writeBase base).map directory
  | backend b => (b.writeBase base).map backend

/-- The sidecar, if there is one. -/
def readBase : Storage → Except StoreError (Option Json)
  | memory m => .ok m.base
  | directory d => d.readBase
  | backend b => .ok b.kept.base

def describe : Storage → String
  | memory _ => "memory"
  | directory d => "file:" ++ d.path
  | backend b => b.label

end Storage
end AgentMemory
