import AgentMemory.Settings.Basic
import AgentMemory.Summary
import AgentMemory.View

/-!
# Condensers

A condenser decides when a view has outgrown its bounds and what of it to forget. It keeps the first
`keepFirst` events and as many at the end as lead to half the allowed size, with one place set aside
for the summary; what lies between is forgotten. Both ends of that range move forward to the next
place where the view may be cut, so nothing that belongs together is parted. When a condensation has
been asked for, half of the present size is aimed at instead.
-/

namespace AgentMemory

/-- Why a view is not condensed. -/
inductive CondenserError where
  /-- The sizes leave no events at the end. -/
  | noTail (maxSize keepFirst : Nat)
  | summarization (error : SummarizerError)
  | nothingToCondense
  deriving DecidableEq

/-- The largest signed 64-bit number. -/
def maxSigned : Nat := Nat.pow 2 63 - 1

/-- The number of events that sizes leave at the end, each size cut to a signed 64-bit number. -/
def reportedTail (maxSize keepFirst : Nat) : Int :=
  (min (maxSize / 2) maxSigned : Nat) - (min keepFirst maxSigned : Nat) - 1

def CondenserError.kind : CondenserError → String
  | noTail .. => "Configuration"
  | summarization error => "Summarization." ++ error.kind
  | nothingToCondense => "NothingToCondense"

def CondenserError.message : CondenserError → String
  | noTail maxSize keepFirst =>
    "invalid condenser configuration: tail_count = " ++ toString maxSize ++ "/2 - " ++
      toString keepFirst ++ " - 1 = " ++ toString (reportedTail maxSize keepFirst) ++
      " must be positive"
  | summarization error => "condensation failed: " ++ error.message
  | nothingToCondense => "nothing to condense"

/-- What calls for a condensation. -/
inductive CondensationTrigger where
  | requested
  | tokenBudget
  | eventCount
  deriving DecidableEq

def CondensationTrigger.name : CondensationTrigger → String
  | requested => "requested"
  | tokenBudget => "token_budget"
  | eventCount => "event_count"

/-- What is to be forgotten, and how many of the events kept come before the summary. -/
structure ForgottenRange where
  events : List Event
  offset : Nat

/-- When to condense, and what to keep. -/
structure Condenser where
  maxSize : Nat
  keepFirst : Nat
  budget : Option TokenBudget := none
  model : Batching.Model := .standard

namespace Condenser

/-- The condenser that settings describe, in whole numbers. The sizes must leave an event at the
end. -/
def ofSettings (s : CondenserSettings) : Except CondenserError Condenser :=
  if s.maxSize / 2 ≤ s.keepFirst + 1 then .error (.noTail s.maxSize s.keepFirst)
  else .ok { maxSize := s.maxSize, keepFirst := s.keepFirst, budget := s.maxTokens.map .mk }

/-! ## In 64-bit words -/

/-- The sum of two words, if it is one. -/
def addWords? (a b : Nat) : Option Nat := if a + b < Text.wordSize then some (a + b) else none

/-- The difference of two signed words, if it is one. -/
def subSigned? (a b : Int) : Option Int :=
  if -(maxSigned : Int) - 1 ≤ a - b ∧ a - b ≤ maxSigned then some (a - b) else none

/-- A size as a signed word, cut to the largest one. -/
def signed (n : Nat) : Int := (min n maxSigned : Nat)

/-- The tail that an error reports, found in signed words. -/
def reportedTail? (maxSize keepFirst : Nat) : Option Int := do
  let gap ← subSigned? (signed (maxSize / 2)) (signed keepFirst)
  subSigned? gap 1

/-- The condenser that settings describe, made in words: nothing when a step leaves their range. -/
def ofSettings? (s : CondenserSettings) : Option (Except CondenserError Condenser) := do
  let reserved ← addWords? s.keepFirst 1
  if s.maxSize / 2 ≤ reserved then
    let _ ← reportedTail? s.maxSize s.keepFirst
    return .error (.noTail s.maxSize s.keepFirst)
  else
    return .ok { maxSize := s.maxSize, keepFirst := s.keepFirst, budget := s.maxTokens.map .mk }

/-! ## The end of a view -/

/-- The number of events kept at the end to reach a size. -/
def tailFor (c : Condenser) (target : Nat) : Nat := target - (c.keepFirst + 1)

/-- The number of events kept at the end of a view that has outgrown its bounds. -/
def tailCount (c : Condenser) : Nat := c.tailFor (c.maxSize / 2)

/-! ## When to condense -/

/-- What calls for the condensation of a view. A given budget stands in place of the condenser's. -/
def trigger? (c : Condenser) (v : View) (budget : Option TokenBudget) :
    Option CondensationTrigger :=
  if v.requested then some .requested
  else if (budget <|> c.budget).any (·.isExceededBy v.tokens) then some .tokenBudget
  else if c.maxSize < v.size then some .eventCount
  else none

/-! ## What to forget -/

/-- The number of events that the condensed view should have. -/
def target (c : Condenser) (v : View) : Nat := if v.requested then v.size / 2 else c.maxSize / 2

/-- The first place at or after a position where a view may be cut; its end when there is none. -/
def snap (v : View) (position : Nat) : Nat :=
  ((v.cuts.map (Batching.boundaryOffset v.size)).find? (position ≤ ·)).getD v.size

/-- Where the forgotten range of a view begins. -/
def rangeStart (c : Condenser) (v : View) : Nat := snap v (min c.keepFirst v.size)

/-- Where the forgotten range of a view ends. -/
def rangeEnd (c : Condenser) (v : View) : Nat :=
  snap v (max (v.size - c.tailFor (c.target v)) (c.rangeStart v))

/-- What of a view is to be forgotten: the range, and what cannot stand without it. -/
def select (c : Condenser) (v : View) : Except CondenserError ForgottenRange :=
  let start := c.rangeStart v
  let stop := c.rangeEnd v
  if stop ≤ start then .error .nothingToCondense
  else
    let head := v.events.take start
    let extra := c.model.enforce (head ++ v.events.drop stop) v.events
    let inRange (position : Nat) (e : Event) :=
      (start ≤ position && position < stop) || e.id ∈ extra
    .ok {
      events := (v.events.zipIdx.filter fun (e, i) => inRange i e).map (·.1)
      offset := (head.filter fun e => !e.isSummary && e.id ∉ extra).length }

/-! ## Condensing -/

/-- The request for the summary of a range of a view. -/
def request (v : View) (r : ForgottenRange) : SummaryRequest := ⟨v.summary, r.events⟩

/-- The condensation that forgets a range of a view, with its summary. What was forgotten before
stays forgotten; synthetic summaries are no events of the log and are not listed. -/
def condensation (v : View) (r : ForgottenRange) (summary : String) : Condensation where
  forgotten :=
    v.forgotten ++
      ((r.events.filter fun e => !e.isSummary && e.id ∉ v.forgotten).map (·.id))
  summary := some summary
  offset := some r.offset
  turn := v.lastBatch?

/-- Condenses a view. -/
def condense (c : Condenser) (summarize : Summarizer) (v : View) :
    Except CondenserError Condensation := do
  let r ← c.select v
  let summary ← (summarize (request v r)).mapError .summarization
  return condensation v r summary

/-! ## Description -/

/-- The text of a budget. -/
def budgetText : Option TokenBudget → String
  | none => "None"
  | some b => "Some(TokenBudget \x7b max_tokens: " ++ toString b.maxTokens ++ " \x7d)"

def describe (c : Condenser) : String :=
  "Condenser \x7b max_size: " ++ toString c.maxSize ++ ", keep_first: " ++ toString c.keepFirst ++
    ", token_budget: " ++ budgetText c.budget ++ ", .. \x7d"

end Condenser
end AgentMemory
