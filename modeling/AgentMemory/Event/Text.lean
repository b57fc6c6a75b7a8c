import AgentMemory.Event.Basic
import AgentMemory.Json.Printer

/-!
# Events as text

The one-line text of an event, as summaries and token estimates see it. A text is estimated at one
token for every four bytes, rounded up.
-/

namespace AgentMemory

/-- The kind of a payload, followed by its data unless that is null. -/
def ToolPayload.text (p : ToolPayload) : String :=
  match p.data with
  | .null => p.kind
  | data => p.kind ++ " " ++ data.compact

def Body.kindName : Body → String
  | systemPrompt _ => "system_prompt"
  | message _ => "message"
  | action _ => "action"
  | observation _ => "observation"
  | agentError _ => "agent_error"
  | condensation _ => "condensation"
  | condensationRequest _ => "condensation_request"
  | condensationSummary _ => "condensation_summary"

namespace Event

def kindName (e : Event) : String := e.body.kindName

def text (e : Event) : String :=
  match e.body with
  | .systemPrompt p => "[system] " ++ p.prompt
  | .message { role := .user, content, .. } => "[user] " ++ content
  | .message { role := .agent, content, .. } => "[agent] " ++ content
  | .action a => "[action " ++ a.tool ++ " " ++ a.call.text ++ "] " ++ a.payload.text
  | .observation o => "[result " ++ o.tool ++ " " ++ o.call.text ++ "] " ++ o.content
  | .agentError r => "[error " ++ r.tool ++ " " ++ r.call.text ++ "] " ++ r.error
  | .condensation c => "[condensation] forgot " ++ toString c.forgotten.length ++ " events"
  | .condensationRequest _ => "[condensation request]"
  | .condensationSummary s => "[summary] " ++ s

end Event

/-! ## Tokens -/

def estimateTokens (s : String) : Nat := (s.utf8ByteSize + 3) / 4

def Event.tokens (e : Event) : Nat := estimateTokens e.text

def totalTokens (events : List Event) : Nat := (events.map Event.tokens).foldr (· + ·) 0

/-- The most tokens a view may take. -/
structure TokenBudget where
  maxTokens : Nat
  deriving DecidableEq

/-- Whether a number of tokens is over the budget. -/
def TokenBudget.isExceededBy (b : TokenBudget) (tokens : Nat) : Bool := b.maxTokens < tokens

end AgentMemory
