import AgentMemory.Condenser
import AgentMemory.Payload
import AgentMemory.Storage.Error

/-!
# Errors of conversations

Only an error of a condensation or of a payload leaves the conversation as it is meant to be; after
any other one it needs attention.
-/

namespace AgentMemory

/-- Why a conversation cannot do what is asked. -/
inductive ConversationError where
  | store (error : StoreError)
  | condenser (error : CondenserError)
  /-- The tools of the configuration are not those of the recorded system prompt. -/
  | toolsChanged (added removed : List String)
  | missingSystemPrompt
  | payload (error : PayloadError)
  /-- The sidecar is no state of a conversation. -/
  | baseState (fault : Json.Fault)
  deriving DecidableEq

namespace ConversationError

def message : ConversationError → String
  | store error => "store error: " ++ error.message
  | condenser error => "context error: " ++ error.message
  | toolsChanged added removed =>
    "tool set changed across restore (added: [" ++ ", ".intercalate added ++ "] removed: [" ++
      ", ".intercalate removed ++ "])"
  | missingSystemPrompt => "stored conversation has no system prompt"
  | payload error => "payload rejected: " ++ error.message
  | baseState fault => "invalid base state: " ++ fault.details

/-- Whether the conversation can go on as if nothing had been asked. -/
def isRecoverable : ConversationError → Bool
  | condenser _ | payload _ => true
  | store _ | toolsChanged .. | missingSystemPrompt | baseState _ => false

def kind : ConversationError → String
  | store error => "Store." ++ error.kind
  | condenser error => "Context." ++ error.kind
  | toolsChanged .. => "RestoreIncompatible"
  | missingSystemPrompt => "MissingSystemPrompt"
  | payload error => "Payload." ++ error.kind
  | baseState _ => "BaseState"

def category : ConversationError → String
  | store _ => "store"
  | condenser _ => "context"
  | toolsChanged .. => "restore_incompatible"
  | missingSystemPrompt => "missing_system_prompt"
  | payload _ => "payload"
  | baseState _ => "base_state"

end ConversationError
end AgentMemory
