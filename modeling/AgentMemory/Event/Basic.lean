import AgentMemory.Ident
import AgentMemory.Timestamp
import AgentMemory.Json.Value

/-!
# Events

Everything that happens in a conversation is an event: prompts and messages, tool calls and their
results, and the control events by which history is condensed. An event is never changed once it is
in the log.
-/

namespace AgentMemory

/-- Who caused an event. -/
inductive Source where
  | user
  | agent
  | environment
  deriving DecidableEq, Inhabited

/-- Who speaks in a message. -/
inductive Role where
  | user
  | agent
  deriving DecidableEq, Inhabited

/-- A tool as it is offered to the model. -/
structure ToolSpec where
  name : String
  description : String := ""
  parameters : Json := .null
  deriving Inhabited

/-- The arguments of a tool call: a kind that names their schema, and the data. -/
structure ToolPayload where
  kind : String
  data : Json
  deriving Inhabited

/-- A piece of the model's reasoning, readable or opaque. -/
inductive ReasoningBlock where
  | thinking (text : String) (signature : Option String)
  | redacted (data : String)
  deriving DecidableEq, Inhabited

def ReasoningBlock.text? : ReasoningBlock → Option String
  | .thinking text _ => some text
  | .redacted _ => none

/-- The system prompt and the tools offered with it. -/
structure SystemPrompt where
  prompt : String
  tools : List ToolSpec

/-- A message of the user or the agent. -/
structure Message where
  role : Role
  content : String
  batch : Option BatchId := none

/-- A tool call of the agent. -/
structure Action where
  batch : BatchId
  call : ToolCallId
  tool : String
  reasoning : List ReasoningBlock := []
  payload : ToolPayload

/-- The result of a tool call that succeeded. -/
structure Observation where
  call : ToolCallId
  action : EventId
  tool : String
  content : String

/-- The result of a tool call that failed. -/
structure AgentError where
  call : ToolCallId
  action : EventId
  tool : String
  error : String
  interrupted : Bool := false

/-- Forgets events and puts a summary in their place. -/
structure Condensation where
  /-- Every event forgotten so far. -/
  forgotten : List EventId
  summary : Option String := none
  /-- How many of the events still visible come before the summary. -/
  offset : Option Nat := none
  /-- The turn in which the condensation was made. -/
  turn : Option BatchId := none

/-- What an event holds. -/
inductive Body where
  | systemPrompt (p : SystemPrompt)
  | message (m : Message)
  | action (a : Action)
  | observation (o : Observation)
  | agentError (e : AgentError)
  | condensation (c : Condensation)
  | condensationRequest (reason : Option String)
  | condensationSummary (summary : String)
  deriving Inhabited

/-- One event of a conversation. -/
structure Event where
  id : EventId
  time : Timestamp
  source : Source
  body : Body
  deriving Inhabited

/-- What the result of a tool call answers, and whether the call succeeded. -/
structure Answer where
  call : ToolCallId
  action : EventId
  success : Bool
  deriving DecidableEq

/-- What a new event is given when it is made: an identity and a time. -/
structure Stamp where
  id : EventId
  time : Timestamp

namespace Event

/-! ## Projections -/

def asSystemPrompt? (e : Event) : Option SystemPrompt :=
  match e.body with
  | .systemPrompt p => some p
  | _ => none

def asMessage? (e : Event) : Option Message :=
  match e.body with
  | .message m => some m
  | _ => none

def asAction? (e : Event) : Option Action :=
  match e.body with
  | .action a => some a
  | _ => none

def asCondensation? (e : Event) : Option Condensation :=
  match e.body with
  | .condensation c => some c
  | _ => none

def isCondensationRequest (e : Event) : Bool :=
  match e.body with
  | .condensationRequest _ => true
  | _ => false

def isSummary (e : Event) : Bool :=
  match e.body with
  | .condensationSummary _ => true
  | _ => false

def batch? (e : Event) : Option BatchId :=
  match e.body with
  | .action a => some a.batch
  | .message m => m.batch
  | _ => none

def call? (e : Event) : Option ToolCallId :=
  match e.body with
  | .action a => some a.call
  | .observation o => some o.call
  | .agentError e => some e.call
  | _ => none

/-- What the event answers, if it is a result. -/
def answer? (e : Event) : Option Answer :=
  match e.body with
  | .observation o => some ⟨o.call, o.action, true⟩
  | .agentError e => some ⟨e.call, e.action, false⟩
  | _ => none

def hasReasoning (e : Event) : Bool :=
  match e.body with
  | .action a => !a.reasoning.isEmpty
  | _ => false

/-- Whether the model can be shown the event: all but the control events. -/
def isShowable (e : Event) : Bool :=
  match e.body with
  | .condensation _ | .condensationRequest _ => false
  | _ => true

/-! ## New events -/

def systemPrompt (s : Stamp) (prompt : String) (tools : List ToolSpec) : Event :=
  ⟨s.id, s.time, .agent, .systemPrompt { prompt, tools }⟩

def userMessage (s : Stamp) (content : String) : Event :=
  ⟨s.id, s.time, .user, .message { role := .user, content }⟩

def agentMessage (s : Stamp) (content : String) (batch : Option BatchId) : Event :=
  ⟨s.id, s.time, .agent, .message { role := .agent, content, batch }⟩

def action (s : Stamp) (batch : BatchId) (call : ToolCallId) (tool : String)
    (payload : ToolPayload) : Event :=
  ⟨s.id, s.time, .agent, .action { batch, call, tool, payload }⟩

/-- The same event with other reasoning; only a tool call carries any. -/
def withReasoning (e : Event) (blocks : List ReasoningBlock) : Event :=
  match e.body with
  | .action a => { e with body := .action { a with reasoning := blocks } }
  | _ => e

def observationFor (s : Stamp) (e : Event) (content : String) : Option Event :=
  e.asAction?.map fun a => ⟨s.id, s.time, .environment,
    .observation { call := a.call, action := e.id, tool := a.tool, content }⟩

def agentErrorFor (s : Stamp) (e : Event) (error : String) (interrupted : Bool) : Option Event :=
  e.asAction?.map fun a => ⟨s.id, s.time, .environment,
    .agentError { call := a.call, action := e.id, tool := a.tool, error, interrupted }⟩

def condensation (s : Stamp) (c : Condensation) : Event :=
  ⟨s.id, s.time, .environment, .condensation c⟩

def condensationRequest (s : Stamp) (reason : Option String) : Event :=
  ⟨s.id, s.time, .user, .condensationRequest reason⟩

def condensationSummary (s : Stamp) (summary : String) : Event :=
  ⟨s.id, s.time, .environment, .condensationSummary summary⟩

end Event
end AgentMemory
