import AgentMemory.Conversation.Error
import AgentMemory.Event.Codec
import AgentMemory.Settings.Basic

/-!
# Configurations and their history

The configuration of an agent, and the document that is stored beside the events of a conversation:
its identity and every configuration it has had. A configuration that equals the present one is not
recorded again. The first system prompt of a log says which tools the conversation was begun with; a
configuration fits if it has tools of the same names.
-/

namespace AgentMemory

open Json (Decoder Fields member?)

def ToolSpec.same (a b : ToolSpec) : Bool :=
  a.name == b.name && a.description == b.description && a.parameters == b.parameters

/-- How an agent is set up. -/
structure AgentConfig where
  model : String
  condenser : CondenserSettings := {}
  skills : List String := []
  securityPolicy : Option String := none
  tools : List ToolSpec := []
  deriving Inhabited

namespace AgentConfig

/-- The names of the tools in order, each once. -/
def toolNames (c : AgentConfig) : List String := distinctTexts (c.tools.map (·.name))

/-- The system prompt that offers the tools. -/
def systemPrompt (c : AgentConfig) (s : Stamp) (prompt : String) : Event :=
  .systemPrompt s prompt c.tools

def sameTools : List ToolSpec → List ToolSpec → Bool
  | [], [] => true
  | a :: as, b :: bs => a.same b && sameTools as bs
  | _, _ => false

def same (a b : AgentConfig) : Bool :=
  a.model == b.model && a.condenser == b.condenser && a.skills == b.skills &&
    a.securityPolicy == b.securityPolicy && sameTools a.tools b.tools

def toJson (c : AgentConfig) : Json :=
  .object ([("model", .string c.model), ("condenser", c.condenser.toJson),
      ("skills", .strings c.skills)] ++
    member? "securityPolicy" (c.securityPolicy.map .string) ++
    [("tools", .array (c.tools.map ToolSpec.toJson))])

def decoder : Decoder AgentConfig :=
  (Fields.required "model" .string <| .defaulted "condenser" CondenserSettings.decoder {} <|
    .defaulted "skills" (.list .string) [] <| .omittable "securityPolicy" .string <|
    .defaulted "tools" (.list ToolSpec.decoder) [] .nil).record
    fun (model, condenser, skills, securityPolicy, tools, ()) =>
      { model, condenser, skills, securityPolicy, tools }

end AgentConfig

/-- A configuration and when it was recorded. -/
structure ConfigSnapshot where
  time : Timestamp
  config : AgentConfig

namespace ConfigSnapshot
def toJson (s : ConfigSnapshot) : Json :=
  .object [("recordedAt", s.time.toJson), ("config", s.config.toJson)]
def decoder : Decoder ConfigSnapshot :=
  (Fields.required "recordedAt" Timestamp.decoder <|
    .required "config" AgentConfig.decoder .nil).record
    fun (time, config, ()) => { time, config }
end ConfigSnapshot

/-- The identity of a conversation and its configurations, the oldest first. -/
structure BaseState where
  id : ConversationId
  history : List ConfigSnapshot := []

namespace BaseState

/-- The state of a new conversation. -/
def start (id : ConversationId) (config : AgentConfig) (now : Timestamp) : BaseState :=
  ⟨id, [⟨now, config⟩]⟩

def current? (b : BaseState) : Option AgentConfig := b.history.getLast?.map (·.config)

/-- Whether a configuration equals the present one. -/
def isCurrent (b : BaseState) (config : AgentConfig) : Bool := b.current?.any (·.same config)

/-- Records a configuration unless it equals the present one. -/
def record (b : BaseState) (config : AgentConfig) (now : Timestamp) : BaseState :=
  if b.isCurrent config then b else { b with history := b.history ++ [⟨now, config⟩] }

def toJson (b : BaseState) : Json :=
  .object [("conversationId", b.id.toJson),
    ("configHistory", .array (b.history.map ConfigSnapshot.toJson))]

def decoder : Decoder BaseState :=
  (Fields.required "conversationId" ConversationId.decoder <|
    .defaulted "configHistory" (.list ConfigSnapshot.decoder) [] .nil).record
    fun (id, history, ()) => { id, history }

end BaseState

/-! ## Tools of a recorded conversation -/

/-- The first system prompt of a log. -/
def recordedPrompt? (events : List Event) : Option SystemPrompt :=
  events.findSome? Event.asSystemPrompt?

/-- Checks that a configuration has the tools of a system prompt. -/
def checkTools (recorded : SystemPrompt) (config : AgentConfig) : Except ConversationError Unit :=
  let stored := distinctTexts (recorded.tools.map (·.name))
  let added := config.toolNames.filter (· ∉ stored)
  let removed := stored.filter (· ∉ config.toolNames)
  if added.isEmpty && removed.isEmpty then .ok () else .error (.toolsChanged added removed)

/-- Checks that a configuration fits stored events. If there are any, there must be a system prompt
among them. -/
def checkToolCompatibility (events : List Event) (config : AgentConfig) :
    Except ConversationError Unit :=
  if events.isEmpty then .ok ()
  else match recordedPrompt? events with
    | none => .error .missingSystemPrompt
    | some recorded => checkTools recorded config

end AgentMemory
