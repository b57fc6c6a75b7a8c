import AgentMemory.Conversation.Basic
import AgentMemory.Conversation.Config

/-!
# Changing conversations

Every event goes through `add`: the payload of an action is checked, the event is appended, the
monitor moves on, the event is stored, and the subscribers are given it. A failed write is reported,
but the event stays in the log. A condensation is planned on the view as it is, and its event is
added when the summary is there, whatever has been added in the meantime.
-/

namespace AgentMemory.Conversation

open Compliance (Violation)

/-! ## Adding events -/

/-- Why the payload of an event is not accepted. -/
def payloadError? (c : Conversation) (e : Event) : Option PayloadError :=
  match c.payloads, e.asAction? with
  | some registry, some a =>
    match registry.validate a.payload with
    | .error error => some error
    | .ok () => none
  | _, _ => none

/-- Stores an event, if there is storage. -/
def persist (storage : Option Storage) (position : Nat) (e : Event) :
    Option Storage × Except StoreError Unit :=
  match storage with
  | none => (none, .ok ())
  | some s =>
    match s.persist position e with
    | .ok s => (some s, .ok ())
    | .error error => (some s, .error error)

/-- An event that the log has accepted reaches everything derived from the log. -/
def absorb (c : Conversation) (log : EventLog) (e : Event) : Outcome EventId :=
  let verdict := c.monitor.step e
  let timeline := c.timeline ++ [e]
  let (storage, persisted) := persist c.storage c.log.size e
  let (subscribers, deliveries) := c.subscribers.dispatch timeline
  { result := (persisted.mapError .store).map fun () => e.id
    state :=
      { c with
        log, timeline, storage, subscribers
        monitor := verdict.monitor
        violations := c.violations ++ verdict.violations }
    warnings := verdict.violations.map (fun _ => .complianceViolation) ++ verdict.warnings
    deliveries }

/-- Adds an event; one without an id is given a fresh one. -/
def add (c : Conversation) (fresh : EventId) (e : Event) : Outcome EventId :=
  match c.payloadError? e with
  | some error =>
    { result := .error (.payload error), state := c, warnings := [.payloadRejected] }
  | none =>
    match c.log.append fresh e with
    | .error error => { result := .error (.store error), state := c }
    | .ok log => c.absorb log (e.identified fresh)

/-- Adds the result of a tool call, unless results are not accepted. -/
def acceptResult (c : Conversation) (fresh : EventId) (e : Event) : Outcome (Option EventId) :=
  if c.execution.status.acceptsResults then (c.add fresh e).map some
  else { result := .ok none, state := c }

/-- Asks for a condensation. -/
def requestCondensation (c : Conversation) (s : Stamp) (reason : Option String) : Outcome EventId :=
  c.add s.id (.condensationRequest s reason)

/-! ## Condensing -/

/-- A condensation under way: the view that it was planned on, and what is to be forgotten. -/
structure CondensationPlan where
  view : View
  range : ForgottenRange

def CondensationPlan.request (p : CondensationPlan) : SummaryRequest :=
  Condenser.request p.view p.range

/-- Plans the condensation of the view; nothing if none is called for. -/
def planCondensation (c : Conversation) (k : Condenser) :
    Except ConversationError (Option CondensationPlan) :=
  let view := c.view
  if (k.trigger? view none).isNone then .ok none
  else ((k.select view).map fun range => some ⟨view, range⟩).mapError .condenser

/-- Adds the event of a planned condensation, once the summary is there. -/
def concludeCondensation (c : Conversation) (s : Stamp) (p : CondensationPlan)
    (summary : Except SummarizerError String) : Outcome (Option EventId) :=
  match summary with
  | .error e => { result := .error (.condenser (.summarization e)), state := c }
  | .ok text =>
    (c.add s.id (.condensation s (Condenser.condensation p.view p.range text))).map some

/-- Condenses the view if that is called for. -/
def condense (c : Conversation) (k : Condenser) (s : Stamp) (summarize : Summarizer) :
    Outcome (Option EventId) :=
  match c.planCondensation k with
  | .error e => { result := .error e, state := c }
  | .ok none => { result := .ok none, state := c }
  | .ok (some p) => c.concludeCondensation s p (summarize p.request)

/-! ## The configuration -/

/-- Checks that a configuration fits the system prompt of the log, if there is one. -/
def checkConfig (c : Conversation) (config : AgentConfig) : Except ConversationError Unit :=
  match recordedPrompt? c.log.toList with
  | some recorded => checkTools recorded config
  | none => .ok ()

def writeBase (storage : Option Storage) (base : BaseState) :
    Option Storage × Except StoreError Unit :=
  match storage with
  | none => (none, .ok ())
  | some s =>
    match s.writeBase base.toJson with
    | .ok s => (some s, .ok ())
    | .error error => (some s, .error error)

/-- Records a configuration, and tells whether it is another one than before. It is recorded before
the sidecar is written, and stays so if that fails. -/
def updateConfig (c : Conversation) (config : AgentConfig) (now : Timestamp) : Outcome Bool :=
  match c.checkConfig config with
  | .error e => { result := .error e, state := c }
  | .ok () =>
    if c.base.isCurrent config then { result := .ok false, state := c }
    else
      let base := c.base.record config now
      let (storage, written) := writeBase c.storage base
      { result := (written.mapError .store).map fun () => true, state := { c with base, storage } }

end AgentMemory.Conversation
