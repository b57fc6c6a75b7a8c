import AgentMemory.Compliance.Monitor
import AgentMemory.Conversation.Config
import AgentMemory.Conversation.Error
import AgentMemory.Conversation.Execution
import AgentMemory.Conversation.Subscribers
import AgentMemory.EventLog
import AgentMemory.Storage.Basic

/-!
# Conversations

A conversation is a log of events with what is derived from it: the events as subscribers see them,
the state of the compliance monitor and the violations it has found. Beside the log it has a history
of configurations, actions and messages that are blocked, an execution, and perhaps storage that
keeps step with it and a registry of payloads.
-/

namespace AgentMemory

open Compliance (Monitor Violation)
open Json (Decoder Fields)

/-- The reasons why events are blocked. -/
abbrev BlockReasons := List (EventId × String)

/-- The reasons with a further one, in the place of one for the same event. -/
def BlockReasons.block (reasons : BlockReasons) (id : EventId) (reason : String) : BlockReasons :=
  (id, reason) :: reasons.filter (·.1 ≠ id)

/-- The reason why an event is blocked. -/
def BlockReasons.reason? (reasons : BlockReasons) (id : EventId) : Option String :=
  (reasons.find? (·.1 = id)).map (·.2)

/-- The reasons without that of an event. -/
def BlockReasons.unblock (reasons : BlockReasons) (id : EventId) : BlockReasons :=
  reasons.filter (·.1 ≠ id)

/-- A conversation. -/
structure Conversation where
  id : ConversationId
  log : EventLog
  /-- The events as subscribers see them. -/
  timeline : List Event
  monitor : Monitor
  violations : List Violation
  base : BaseState
  blockedActions : BlockReasons := []
  blockedMessages : BlockReasons := []
  subscribers : Subscribers := {}
  execution : Execution := .initial
  storage : Option Storage := none
  payloads : Option PayloadRegistry := none

/-- What comes of an operation on a conversation. -/
structure Outcome (α : Type) where
  result : Except ConversationError α
  state : Conversation
  warnings : List Warning := []
  deliveries : List Delivery := []

/-- The outcome with its result passed through a function. -/
def Outcome.map {α β : Type} (f : α → β) (o : Outcome α) : Outcome β :=
  { o with result := o.result.map f }

namespace Conversation

/-! ## Reading -/

def size (c : Conversation) : Nat := c.timeline.length

def isEmpty (c : Conversation) : Bool := c.size = 0

def eventsSince (c : Conversation) (position : Nat) : List Event := c.timeline.drop position

def get (c : Conversation) (id : EventId) : Except ConversationError Event :=
  (c.log.get id).mapError .store

def page (c : Conversation) (cursor : Option EventId) (limit : Nat) (order : PageOrder) :
    Except ConversationError Page :=
  (c.log.page cursor limit order).mapError .store

def config? (c : Conversation) : Option AgentConfig := c.base.current?

def view (c : Conversation) : View := .ofEvents c.log.toList

/-- The reason why an event is blocked; that of an action goes before that of a message. -/
def blockReason? (c : Conversation) (id : EventId) : Option String :=
  c.blockedActions.reason? id <|> c.blockedMessages.reason? id

def describe (c : Conversation) : String :=
  "ConversationState \x7b id: ConversationId(" ++ Text.quoted c.id.text ++ "), events: " ++
    toString c.size ++ ", subscribers: " ++ toString c.subscribers.registered.length ++
    ", status: " ++ c.execution.status.title ++ ", .. \x7d"

/-! ## Subscribers -/

/-- A further subscriber, which is given all events so far. -/
def subscribe (c : Conversation) : Conversation × SubscriptionId × List Delivery :=
  let (subscribers, id, deliveries) := c.subscribers.subscribe c.timeline
  ({ c with subscribers }, id, deliveries)

def unsubscribe (c : Conversation) (id : SubscriptionId) : Conversation × Bool :=
  let (subscribers, found) := c.subscribers.unsubscribe id
  ({ c with subscribers }, found)

/-! ## Blocking -/

def blockAction (c : Conversation) (id : EventId) (reason : String) : Conversation :=
  { c with blockedActions := c.blockedActions.block id reason }

def blockMessage (c : Conversation) (id : EventId) (reason : String) : Conversation :=
  { c with blockedMessages := c.blockedMessages.block id reason }

/-- Unblocks an action, and gives the reason why it was blocked. -/
def popBlockedAction (c : Conversation) (id : EventId) : Conversation × Option String :=
  ({ c with blockedActions := c.blockedActions.unblock id }, c.blockedActions.reason? id)

/-- Unblocks a message, and gives the reason why it was blocked. -/
def popBlockedMessage (c : Conversation) (id : EventId) : Conversation × Option String :=
  ({ c with blockedMessages := c.blockedMessages.unblock id }, c.blockedMessages.reason? id)

end Conversation

/-! ## Figures -/

/-- The figures of a conversation. -/
structure ConversationStats where
  events : Nat
  visible : Nat
  pendingCalls : Nat
  violations : Nat
  condensations : Nat
  estimatedTokens : Nat
  status : ExecutionStatus

namespace ConversationStats
def toJson (s : ConversationStats) : Json :=
  .object [("events", .nat s.events), ("visible", .nat s.visible),
    ("pendingToolCalls", .nat s.pendingCalls), ("violations", .nat s.violations),
    ("condensations", .nat s.condensations), ("estimatedTokens", .nat s.estimatedTokens),
    ("status", .string s.status.name)]
def decoder : Decoder ConversationStats :=
  (Fields.required "events" .nat <| .required "visible" .nat <|
    .required "pendingToolCalls" .nat <| .required "violations" .nat <|
    .required "condensations" .nat <| .required "estimatedTokens" .nat <|
    .required "status" ExecutionStatus.decoder .nil).record
    fun (events, visible, pendingCalls, violations, condensations, estimatedTokens, status, ()) =>
      { events, visible, pendingCalls, violations, condensations, estimatedTokens, status }
end ConversationStats

/-- The figures of a conversation. -/
def Conversation.stats (c : Conversation) : ConversationStats :=
  let view := c.view
  { events := c.log.size
    visible := view.size
    pendingCalls := c.monitor.pending.length
    violations := c.violations.length
    condensations := (c.log.toList.filter (·.asCondensation?.isSome)).length
    estimatedTokens := view.tokens
    status := c.execution.status }

end AgentMemory
