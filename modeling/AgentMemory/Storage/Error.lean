import AgentMemory.File
import AgentMemory.Ident
import AgentMemory.Json.Token

/-!
# Errors of logs and their storage
-/

namespace AgentMemory

/-- What is wrong with an event file. -/
inductive Corruption where
  /-- The sequence number in its name is not the next one. -/
  | wrongSequence (expected found : Nat)
  /-- Its content is no event. -/
  | undecodable (fault : Json.Fault)
  deriving DecidableEq

def Corruption.message : Corruption → String
  | wrongSequence expected found =>
    "expected sequence " ++ toString expected ++ ", found " ++ toString found
  | undecodable fault => fault.details

/-- Why a write is not accepted. -/
inductive Refusal where
  | outOfOrder (sequence stored : Nat)
  /-- For a reason of the storage's own. -/
  | failed (reason : String)
  deriving DecidableEq

def Refusal.message : Refusal → String
  | outOfOrder sequence stored =>
    "out-of-order persist: sequence " ++ toString sequence ++ ", stored " ++ toString stored
  | failed reason => reason

/-- Why a log or its storage cannot do what is asked. -/
inductive StoreError where
  | eventNotFound (id : EventId)
  | duplicateEvent (id : EventId)
  | io (fault : FileFault)
  | json (fault : Json.Fault)
  | corruptFile (name : String) (reason : Corruption)
  | refused (reason : Refusal)
  deriving DecidableEq

def StoreError.kind : StoreError → String
  | eventNotFound _ => "EventNotFound"
  | duplicateEvent _ => "DuplicateEvent"
  | io _ => "Io"
  | json _ => "Serde"
  | corruptFile .. => "CorruptEventFile"
  | refused _ => "InvalidOperation"

def StoreError.message : StoreError → String
  | eventNotFound id => "event not found: " ++ id.text
  | duplicateEvent id => "duplicate event id: " ++ id.text
  | io fault => "persistence I/O error: " ++ fault.name
  | json fault => "serde error: " ++ fault.details
  | corruptFile name reason => "corrupt event file " ++ name ++ ": " ++ reason.message
  | refused reason => "invalid operation: " ++ reason.message

end AgentMemory
