import AgentMemory.Event.Codec
import AgentMemory.View

/-!
# Wire messages

The messages sent to the model for a view. Adjacent messages and actions of the agent that share a
batch become one assistant message; every other event becomes a message of its own. A message of the
agent without a batch is never joined with another.
-/

namespace AgentMemory.Wire

open Json (Decoder Fields member?)

/-- Who speaks in a wire message. -/
inductive Role where
  | system
  | user
  | assistant
  | tool
  deriving DecidableEq

/-- A tool call in an assistant message. -/
structure ToolCall where
  id : ToolCallId
  name : String
  arguments : Json

/-- One message for the model. -/
structure Message where
  role : Role
  content : String
  toolCalls : List ToolCall := []
  reasoning : List ReasoningBlock := []
  answers : Option ToolCallId := none

/-- What stands before the summary of forgotten events. -/
def summaryHeading : String := "[Summary of earlier conversation]"

/-! ## Messages of single events -/

/-- The message of an event that is not part of an assistant message. -/
def single? (e : Event) : Option Message :=
  match e.body with
  | .systemPrompt p => some { role := .system, content := p.prompt }
  | .message { role := .user, content, .. } => some { role := .user, content }
  | .observation o => some { role := .tool, content := o.content, answers := some o.call }
  | .agentError r => some { role := .tool, content := r.error, answers := some r.call }
  | .condensationSummary s => some { role := .user, content := summaryHeading ++ "\n\n" ++ s }
  | .message { role := .agent, .. } | .action _ | .condensation _ | .condensationRequest _ => none

/-- Whether an event is part of an assistant message. -/
def isAssistant (e : Event) : Bool :=
  match e.body with
  | .message { role := .agent, .. } | .action _ => true
  | _ => false

/-- Adds an event to an assistant message. Texts are separated by line breaks once there is any. -/
def Message.extend (m : Message) (e : Event) : Message :=
  match e.body with
  | .message t =>
    { m with content := (if m.content.isEmpty then "" else m.content ++ "\n") ++ t.content }
  | .action a =>
    { m with
      reasoning := m.reasoning ++ a.reasoning
      toolCalls := m.toolCalls ++ [{ id := a.call, name := a.tool, arguments := a.payload.data }] }
  | _ => m

/-! ## The messages of a sequence -/

/-- The messages so far, the last one first, and the batch of the last one if it is an assistant
message that can still grow. -/
structure Progress where
  messages : List Message := []
  batch : Option BatchId := none

/-- Adds an event. -/
def Progress.push (p : Progress) (e : Event) : Progress :=
  match single? e with
  | some m => { messages := m :: p.messages }
  | none =>
    if isAssistant e then
      match p.messages with
      | last :: rest =>
        if e.batch?.isSome && p.batch == e.batch? then { p with messages := last.extend e :: rest }
        else begin p e
      | [] => begin p e
    else p
where
  /-- Begins an assistant message. -/
  begin (p : Progress) (e : Event) : Progress :=
    { messages := ({ role := .assistant, content := "" } : Message).extend e :: p.messages
      batch := e.batch? }

/-- The messages of a sequence of events. -/
def ofEvents (events : List Event) : List Message :=
  (events.foldl Progress.push {}).messages.reverse

/-! ## Messages as JSON -/

namespace Role
def name : Role → String
  | system => "system"
  | user => "user"
  | assistant => "assistant"
  | tool => "tool"
def decoder : Decoder Role :=
  Decoder.choice
    [("system", system), ("user", user), ("assistant", assistant), ("tool", tool)]
end Role

namespace ToolCall
def toJson (c : ToolCall) : Json :=
  .object [("id", c.id.toJson), ("name", .string c.name), ("arguments", c.arguments)]
def decoder : Decoder ToolCall :=
  (Fields.required "id" ToolCallId.decoder <| .required "name" .string <|
    .required "arguments" .json .nil).record
    fun (id, name, arguments, ()) => { id, name, arguments }
end ToolCall

/-- A list, left out when it is empty. -/
def nonempty? (js : List Json) : Option Json := if js.isEmpty then none else some (.array js)

namespace Message
def toJson (m : Message) : Json :=
  .object ([("role", .string m.role.name), ("content", .string m.content)] ++
    member? "toolCalls" (nonempty? (m.toolCalls.map ToolCall.toJson)) ++
    member? "reasoningBlocks" (nonempty? (m.reasoning.map ReasoningBlock.toJson)) ++
    member? "toolCallId" (m.answers.map ToolCallId.toJson))
def decoder : Decoder Message :=
  (Fields.required "role" Role.decoder <| .required "content" .string <|
    .defaulted "toolCalls" (.list ToolCall.decoder) [] <|
    .defaulted "reasoningBlocks" (.list ReasoningBlock.decoder) [] <|
    .omittable "toolCallId" ToolCallId.decoder .nil).record
    fun (role, content, toolCalls, reasoning, answers, ()) =>
      { role, content, toolCalls, reasoning, answers }
end Message

end AgentMemory.Wire

namespace AgentMemory

def View.wire (v : View) : List Wire.Message := Wire.ofEvents v.events

end AgentMemory
