import AgentMemory.Event.Text
import AgentMemory.Json.Record

/-!
# Events as JSON

The stored form of events. Members are written in a fixed order, those without a value are left out
where that is harmless, and what is written is read back as the same event.
-/

namespace AgentMemory

open Json (Decoder Fields member?)

/-! ## Identifiers and enumerations -/

namespace EventId
def toJson (id : EventId) : Json := .string id.text
def decoder : Decoder EventId := Decoder.string.map EventId.mk
end EventId

namespace ToolCallId
def toJson (id : ToolCallId) : Json := .string id.text
def decoder : Decoder ToolCallId := Decoder.string.map ToolCallId.mk
end ToolCallId

namespace BatchId
def toJson (id : BatchId) : Json := .string id.text
def decoder : Decoder BatchId := Decoder.string.map BatchId.mk
end BatchId

namespace ConversationId
def toJson (id : ConversationId) : Json := .string id.text
def decoder : Decoder ConversationId := Decoder.string.map ConversationId.mk
end ConversationId

namespace Timestamp
def toJson (t : Timestamp) : Json := .string t.text
def decoder : Decoder Timestamp := Decoder.parsed Timestamp.parse
end Timestamp

namespace Source
def name : Source → String
  | user => "user"
  | agent => "agent"
  | environment => "environment"
def toJson (s : Source) : Json := .string s.name
def decoder : Decoder Source :=
  Decoder.choice [("user", user), ("agent", agent), ("environment", environment)]
end Source

namespace Role
def name : Role → String
  | user => "user"
  | agent => "agent"
def toJson (r : Role) : Json := .string r.name
/-- A role stands only in the body of a message. -/
def decoder : Decoder Role := Decoder.choiceWithin [("user", user), ("agent", agent)]
end Role

/-! ## Parts of events -/

namespace ToolSpec
def toJson (t : ToolSpec) : Json :=
  .object [("name", .string t.name), ("description", .string t.description),
    ("parameters", t.parameters)]
def decoder : Decoder ToolSpec :=
  (Fields.required "name" .string <| .defaulted "description" .string "" <|
    .defaulted "parameters" .json .null .nil).record
    fun (name, description, parameters, ()) => { name, description, parameters }
end ToolSpec

namespace ToolPayload
def toJson (p : ToolPayload) : Json := .object [("kind", .string p.kind), ("data", p.data)]
def decoder : Decoder ToolPayload :=
  (Fields.required "kind" .string <| .defaulted "data" .json .null .nil).record
    fun (kind, data, ()) => { kind, data }
end ToolPayload

namespace ReasoningBlock
def toJson : ReasoningBlock → Json
  | thinking text signature =>
    .object ([("type", .string "thinking"), ("thinking", .string text)] ++
      member? "signature" (signature.map .string))
  | redacted data => .object [("type", .string "redacted_thinking"), ("data", .string data)]

def cases : Decoder.Cases ReasoningBlock :=
  [("thinking",
      (Fields.required "thinking" .string <| .omittable "signature" .string .nil).record
        fun (text, signature, ()) => thinking text signature),
    ("redacted_thinking",
      (Fields.required "data" .string .nil).record fun (data, ()) => redacted data)]

def decoder : Decoder ReasoningBlock := Decoder.tagged "type" cases
end ReasoningBlock

namespace Condensation
def members (c : Condensation) : List (String × Json) :=
  ("forgotten_event_ids", .array (c.forgotten.map EventId.toJson)) ::
    (member? "summary" (c.summary.map .string) ++
      member? "summary_offset" (c.offset.map .nat) ++
      member? "originating_turn_id" (c.turn.map BatchId.toJson))
def toJson (c : Condensation) : Json := .object c.members
def decoder : Decoder Condensation :=
  (Fields.required "forgotten_event_ids" (.list EventId.decoder) <|
    .omittable "summary" .string <| .omittable "summary_offset" .nat <|
    .omittable "originating_turn_id" BatchId.decoder .nil).record
    fun (forgotten, summary, offset, turn, ()) => { forgotten, summary, offset, turn }
end Condensation

/-! ## Bodies -/

namespace Body

/-- The members of a body apart from its kind. -/
def members : Body → List (String × Json)
  | systemPrompt p =>
    [("prompt", .string p.prompt), ("tools", .array (p.tools.map ToolSpec.toJson))]
  | message m =>
    [("role", m.role.toJson), ("content", .string m.content)] ++
      member? "batch_id" (m.batch.map BatchId.toJson)
  | action a =>
    [("batch_id", a.batch.toJson), ("tool_call_id", a.call.toJson),
      ("tool_name", .string a.tool)] ++
      member? "reasoning_blocks" (if a.reasoning.isEmpty then none
        else some (.array (a.reasoning.map ReasoningBlock.toJson))) ++
      [("payload", a.payload.toJson)]
  | observation o =>
    [("tool_call_id", o.call.toJson), ("action_id", o.action.toJson),
      ("tool_name", .string o.tool), ("content", .string o.content)]
  | agentError r =>
    [("tool_call_id", r.call.toJson), ("action_id", r.action.toJson),
      ("tool_name", .string r.tool), ("error", .string r.error),
      ("interrupted", .bool r.interrupted)]
  | condensation c => c.members
  | condensationRequest reason => member? "reason" (reason.map .string)
  | condensationSummary summary => [("summary", .string summary)]

def toJson (b : Body) : Json := .object (("type", .string b.kindName) :: b.members)

def systemPromptDecoder : Decoder Body :=
  (Fields.required "prompt" .string <| .defaulted "tools" (.list ToolSpec.decoder) [] .nil).record
    fun (prompt, tools, ()) => systemPrompt { prompt, tools }

def messageDecoder : Decoder Body :=
  (Fields.required "role" Role.decoder <| .required "content" .string <|
    .omittable "batch_id" BatchId.decoder .nil).record
    fun (role, content, batch, ()) => message { role, content, batch }

def actionDecoder : Decoder Body :=
  (Fields.required "batch_id" BatchId.decoder <| .required "tool_call_id" ToolCallId.decoder <|
    .required "tool_name" .string <|
    .defaulted "reasoning_blocks" (.list (.taggedWithin "type" ReasoningBlock.cases)) [] <|
    .required "payload" ToolPayload.decoder .nil).record
    fun (batch, call, tool, reasoning, payload, ()) =>
      action { batch, call, tool, reasoning, payload }

def observationDecoder : Decoder Body :=
  (Fields.required "tool_call_id" ToolCallId.decoder <| .required "action_id" EventId.decoder <|
    .required "tool_name" .string <| .required "content" .string .nil).record
    fun (call, issuer, tool, content, ()) => observation { call, action := issuer, tool, content }

def agentErrorDecoder : Decoder Body :=
  (Fields.required "tool_call_id" ToolCallId.decoder <| .required "action_id" EventId.decoder <|
    .required "tool_name" .string <| .required "error" .string <|
    .defaulted "interrupted" .bool false .nil).record
    fun (call, issuer, tool, error, interrupted, ()) =>
      agentError { call, action := issuer, tool, error, interrupted }

def condensationRequestDecoder : Decoder Body :=
  (Fields.omittable "reason" .string .nil).record fun (reason, ()) => condensationRequest reason

def condensationSummaryDecoder : Decoder Body :=
  (Fields.required "summary" .string .nil).record fun (summary, ()) => condensationSummary summary

def cases : Decoder.Cases Body :=
  [("system_prompt", systemPromptDecoder), ("message", messageDecoder), ("action", actionDecoder),
    ("observation", observationDecoder), ("agent_error", agentErrorDecoder),
    ("condensation", Condensation.decoder.map condensation),
    ("condensation_request", condensationRequestDecoder),
    ("condensation_summary", condensationSummaryDecoder)]

def decoder : Decoder Body := Decoder.tagged "type" cases

end Body

/-! ## Events -/

namespace Event
def toJson (e : Event) : Json :=
  .object [("id", e.id.toJson), ("timestamp", e.time.toJson), ("source", e.source.toJson),
    ("kind", e.body.toJson)]
def decoder : Decoder Event :=
  (Fields.required "id" EventId.decoder <| .required "timestamp" Timestamp.decoder <|
    .required "source" Source.decoder <| .required "kind" Body.decoder .nil).record
    fun (id, time, source, body, ()) => { id, time, source, body }
end Event

namespace TokenBudget
def toJson (b : TokenBudget) : Json := .object [("max_tokens", .nat b.maxTokens)]
def decoder : Decoder TokenBudget :=
  (Fields.required "max_tokens" .nat .nil).record fun (maxTokens, ()) => { maxTokens }
end TokenBudget

end AgentMemory
