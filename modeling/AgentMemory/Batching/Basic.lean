import AgentMemory.Event.Basic

/-!
# Batches and boundaries

A batch is the set of events that carry one batch id. Batches are ordered by their first events; the
**anchor** of a sequence is its last batch in this order with an event that carries reasoning.

A sequence of `n` events may be cut at its boundaries. Boundary `0` is the head, boundary `i` lies
between events `i - 1` and `i`, and the tail is boundary `n + 1`; there is no boundary `n`, and an
empty sequence has only its tail. A span forbids the boundaries strictly inside it.
-/

namespace AgentMemory.Batching

/-! ## Batches -/

def ids (events : List Event) : List EventId := events.map (·.id)

/-- The batches of a sequence, in the order of their first events. -/
def batchIds (events : List Event) : List BatchId := (events.filterMap Event.batch?).eraseDups

/-- Whether an event belongs to a batch. -/
def inBatch (b : BatchId) (e : Event) : Bool := e.batch? = some b

def members (b : BatchId) (events : List Event) : List Event := events.filter (inBatch b)

/-- The position of the last event that passes a test. -/
def findLast? (p : Event → Bool) (events : List Event) : Option Nat :=
  (events.reverse.findIdx? p).map fun i => events.length - 1 - i

/-- The position of the first event of a batch. -/
def firstAt? (b : BatchId) (events : List Event) : Option Nat := events.findIdx? (inBatch b)

/-- The position of the last event of a batch. -/
def lastAt? (b : BatchId) (events : List Event) : Option Nat := findLast? (inBatch b) events

/-- The last batch with an event that carries reasoning. -/
def anchor? (events : List Event) : Option BatchId :=
  (batchIds events).reverse.find? fun b => (members b events).any Event.hasReasoning

/-- The batches after a given one. -/
def batchesAfter (b : BatchId) (events : List Event) : List BatchId :=
  ((batchIds events).dropWhile (· ≠ b)).drop 1

/-- Whether an event is a condensation that forgets one of the given ids. -/
def forgetsAny (forgotten : List EventId) (e : Event) : Bool :=
  match e.asCondensation? with
  | some c => c.forgotten.any (· ∈ forgotten)
  | none => false

/-- The position of the first condensation after a batch that forgets one of its events; the end of
the sequence when there is none. -/
def horizon (b : BatchId) (events : List Event) : Nat :=
  let start := match lastAt? b events with
    | some i => i + 1
    | none => 0
  match (events.drop start).findIdx? (forgetsAny (ids (members b events))) with
  | some i => start + i
  | none => events.length

/-- The batches after a given one that begin before its horizon: these are told apart from a fresh
start after the batch was forgotten. -/
def dependents (b : BatchId) (events : List Event) : List BatchId :=
  (batchesAfter b events).filter fun later =>
    match firstAt? later events with
    | some i => i < horizon b events
    | none => false

/-! ## Boundaries -/

/-- The boundary after the last of `n` events. -/
def tailBoundary (n : Nat) : Nat := n + 1

/-- Every boundary of a sequence of `n` events. -/
def allBoundaries (n : Nat) : List Nat :=
  if n = 0 then [tailBoundary n] else List.range n ++ [tailBoundary n]

/-- The number of events before a boundary. -/
def boundaryOffset (n boundary : Nat) : Nat := min boundary n

/-- A run of events from one position to another that is not to be cut. -/
structure Span where
  first : Nat
  last : Nat
  deriving DecidableEq

/-- Whether a boundary lies strictly inside a span. -/
def Span.splits (s : Span) (boundary : Nat) : Bool := s.first < boundary && boundary ≤ s.last

/-- The boundaries of a sequence of `n` events that lie inside none of the spans. -/
def boundariesAvoiding (n : Nat) (spans : List Span) : List Nat :=
  (allBoundaries n).filter fun b => !spans.any (·.splits b)

end AgentMemory.Batching
