import AgentMemory.Batching.Basic

/-!
# Rules of what stands and falls together

Each rule answers two questions. Of the events *kept* from a longer *history*, which must go too?
And inside which spans of a sequence must no cut be made?

* **Batch atomicity**: the events of a batch are kept all or none.
* **Tool call matching**: a result does not outlive the action it answers.
* **Reasoning tail**: without the anchor, the batches that followed it are not kept either, up to
  the condensation that forgot it.
-/

namespace AgentMemory.Batching

/-- A rule. -/
inductive Rule where
  | batchAtomicity
  | toolCallMatching
  | reasoningTail
  deriving DecidableEq

namespace Rule

def name : Rule → String
  | batchAtomicity => "batch_atomicity"
  | toolCallMatching => "tool_call_matching"
  | reasoningTail => "reasoning_tail"

/-! ## What must go -/

/-- Whether a batch of the history is kept in part. -/
def isPartial (kept history : List Event) (b : BatchId) : Bool :=
  let batch := ids (members b history)
  batch.any (· ∈ ids kept) && batch.any (· ∉ ids kept)

/-- Whether an event is a result whose action is in the history but not kept. -/
def isOrphan (kept history : List Event) (e : Event) : Bool :=
  match e.answer? with
  | some a => a.action ∈ ids history && a.action ∉ ids kept
  | none => false

/-- The batches that may not stay when the anchor of the history does not. -/
def unanchored (kept history : List Event) : List BatchId :=
  match anchor? history with
  | none => []
  | some b =>
    if (ids (members b history)).all (· ∈ ids kept) then [] else dependents b history

/-- Whether an event belongs to one of the given batches. -/
def inAny (batches : List BatchId) (e : Event) : Bool :=
  match e.batch? with
  | some b => b ∈ batches
  | none => false

/-- The ids that must be dropped from the events kept. Among them there may be ids that are not
kept. -/
def removals (kept history : List Event) : Rule → List EventId
  | batchAtomicity =>
    ((batchIds history).filter (isPartial kept history)).flatMap fun b => ids (members b history)
  | toolCallMatching => ids (kept.filter (isOrphan kept history))
  | reasoningTail => ids (kept.filter (inAny (unanchored kept history)))

/-- A rule drops nothing but events that are kept or in the history. -/
theorem mem_of_mem_removals {kept history : List Event} {r : Rule} {id : EventId}
    (h : id ∈ r.removals kept history) : id ∈ ids history ++ ids kept := by
  cases r with
  | batchAtomicity =>
    simp only [removals, List.mem_flatMap, ids, members, List.mem_map, List.mem_filter] at h
    obtain ⟨b, -, e, ⟨he, -⟩, rfl⟩ := h
    exact List.mem_append_left _ (List.mem_map_of_mem he)
  | toolCallMatching =>
    simp only [removals, ids, List.mem_map, List.mem_filter] at h
    obtain ⟨e, ⟨he, -⟩, rfl⟩ := h
    exact List.mem_append_right _ (List.mem_map_of_mem he)
  | reasoningTail =>
    simp only [removals, ids, List.mem_map, List.mem_filter] at h
    obtain ⟨e, ⟨he, -⟩, rfl⟩ := h
    exact List.mem_append_right _ (List.mem_map_of_mem he)

/-! ## Where not to cut -/

/-- The span from the first to the last event of a batch. -/
def batchSpan? (events : List Event) (b : BatchId) : Option Span := do
  return { first := ← firstAt? b events, last := ← lastAt? b events }

/-- The span from an action to a result after it. An id held by several events stands for the
last. -/
def answerSpan? (events : List Event) (e : Event) (position : Nat) : Option Span := do
  let a ← e.answer?
  let first ← findLast? (·.id = a.action) events
  if first < position then some { first, last := position } else none

/-- The spans of a sequence that a rule keeps whole. -/
def spans (events : List Event) : Rule → List Span
  | batchAtomicity => (batchIds events).filterMap (batchSpan? events)
  | toolCallMatching => events.zipIdx.filterMap fun (e, i) => answerSpan? events e i
  | reasoningTail =>
    match (anchor? events).bind (firstAt? · events) with
    | some first => [{ first, last := events.length - 1 }]
    | none => []

/-- The boundaries at which a rule lets a sequence be cut. -/
def cuts (events : List Event) (r : Rule) : List Nat :=
  boundariesAvoiding events.length (r.spans events)

end Rule
end AgentMemory.Batching
