import AgentMemory.Batching.Model
import AgentMemory.Event.Text

/-!
# Views: what the model sees of a log

The view of a log is computed from the log alone. The latest condensation decides what is forgotten;
control events are left out; of the results of one tool call only the best stays, the first success
or else the first failure; a batching model drops what can no longer stand; and the summary of the
condensation is put at its offset as an event of its own.
-/

namespace AgentMemory

/-- What the model sees of a log. -/
structure View where
  events : List Event
  /-- The boundaries at which the events may be cut. -/
  cuts : List Nat
  /-- Whether a condensation has been asked for since the latest one. -/
  requested : Bool
  /-- The ids that the latest condensation forgets. -/
  forgotten : List EventId
  /-- The text of the summary in the view. -/
  summary : Option String

namespace View

open Batching (Model)

/-! ## The latest condensation -/

/-- The latest condensation of a log, with its event. -/
def latest? (log : List Event) : Option (Event × Condensation) :=
  log.reverse.findSome? fun e => e.asCondensation?.map (e, ·)

/-- The events after the latest condensation, in reverse; the whole log when there is none. -/
def sinceLatest (log : List Event) : List Event :=
  log.reverse.takeWhile fun e => e.asCondensation?.isNone

/-- Whether a condensation has been asked for since the latest one. -/
def isRequested (log : List Event) : Bool := (sinceLatest log).any Event.isCondensationRequest

/-- The ids that the latest condensation forgets. -/
def forgottenIds (log : List Event) : List EventId :=
  match latest? log with
  | some (_, c) => c.forgotten
  | none => []

/-! ## Results of one call -/

/-- The answers to a call, each with the id of its result. -/
def answersTo (call : ToolCallId) (events : List Event) : List (EventId × Answer) :=
  events.filterMap fun e => e.answer?.bind fun a => if a.call = call then some (e.id, a) else none

/-- The result that stands for a call: the first success, or else the first failure. -/
def best? (call : ToolCallId) (events : List Event) : Option EventId :=
  let answers := answersTo call events
  (answers.find? (·.2.success) <|> answers.head?).map (·.1)

/-- The results that stand for the calls of a sequence. -/
def winners (events : List Event) : List EventId :=
  ((events.filterMap Event.answer?).map (·.call)).eraseDups.filterMap (best? · events)

/-- The events without the results that do not stand for their call. -/
def dedupe (events : List Event) : List Event :=
  let keep := winners events
  events.filter fun e => e.answer?.isNone || e.id ∈ keep

/-! ## The projection -/

/-- The events that are shown unless a rule drops them. -/
def candidates (log : List Event) : List Event :=
  dedupe (log.filter fun e => e.isShowable && e.id ∉ forgottenIds log)

/-- The events of the log that the model sees. -/
def retained (m : Model) (log : List Event) : List Event :=
  let shown := candidates log
  let removed := m.enforce shown log
  shown.filter (·.id ∉ removed)

/-- The event that a condensation's summary shows as. -/
def summaryEvent (e : Event) (text : String) : Event :=
  ⟨e.id.summary, e.time, .environment, .condensationSummary text⟩

/-- Puts an event after the first `offset` ones, or at the end. -/
def insertAt (offset : Nat) (e : Event) (events : List Event) : List Event :=
  events.take offset ++ e :: events.drop offset

/-- Puts the summary of a condensation among the events. -/
def splice (condensation : Option (Event × Condensation)) (events : List Event) : List Event :=
  match condensation with
  | some (e, c) =>
    match c.summary with
    | some text => insertAt (c.offset.getD 0) (summaryEvent e text) events
    | none => events
  | none => events

/-- The view of a log under a batching model. -/
def ofEventsWith (m : Model) (log : List Event) : View :=
  let condensation := latest? log
  let events := splice condensation (retained m log)
  { events
    cuts := m.cuts events
    requested := isRequested log
    forgotten := forgottenIds log
    summary := condensation.bind (·.2.summary) }

/-- The view of a log under the standard model. -/
def ofEvents (log : List Event) : View := ofEventsWith .standard log

/-! ## Measures -/

def size (v : View) : Nat := v.events.length

def lastBatch? (v : View) : Option BatchId := v.events.reverse.findSome? Event.batch?

def tokens (v : View) : Nat := totalTokens v.events

end View
end AgentMemory
