import AgentMemory.Batching.Rule

/-!
# Models: several rules at once

A model applies its rules together. What one rule drops can make another drop more, so the rules are
applied again to what is left until nothing more goes; a sequence may be cut where every rule allows
it.
-/

namespace AgentMemory.Batching

/-- A list of rules. -/
structure Model where
  rules : List Rule
  deriving DecidableEq

namespace Model

def standard : Model := ⟨[.batchAtomicity, .toolCallMatching, .reasoningTail]⟩

def names (m : Model) : List String := m.rules.map Rule.name

def describe (m : Model) : String :=
  "[" ++ ", ".intercalate (m.names.map fun name => "\"" ++ name ++ "\"") ++ "]"

/-- The ids that the rules drop from what is left after some removals. -/
def found (m : Model) (kept history : List Event) (removed : List EventId) : List EventId :=
  m.rules.flatMap (Rule.removals (kept.filter (·.id ∉ removed)) history)

/-- The ids newly dropped, each once. -/
def fresh (m : Model) (kept history : List Event) (removed : List EventId) : List EventId :=
  ((m.found kept history removed).filter (· ∉ removed)).eraseDups

theorem mem_fresh {m : Model} {kept history : List Event} {removed : List EventId} {id : EventId}
    (h : id ∈ m.fresh kept history removed) : id ∈ ids history ++ ids kept ∧ id ∉ removed := by
  simp only [fresh, found, List.mem_eraseDups, List.mem_filter, List.mem_flatMap,
    decide_eq_true_eq] at h
  obtain ⟨⟨r, -, hr⟩, hn⟩ := h
  refine ⟨?_, hn⟩
  rcases List.mem_append.mp (Rule.mem_of_mem_removals hr) with h | h
  · exact List.mem_append_left _ h
  · refine List.mem_append_right _ ?_
    simp only [ids, List.mem_map, List.mem_filter] at h ⊢
    obtain ⟨e, ⟨he, -⟩, rfl⟩ := h
    exact ⟨e, he, rfl⟩

/-- The ids of history and kept events that have not been dropped. -/
def remaining (kept history : List Event) (removed : List EventId) : List EventId :=
  (ids history ++ ids kept).filter (· ∉ removed)

theorem remaining_lt {m : Model} {kept history : List Event} {removed : List EventId}
    (h : (m.fresh kept history removed).isEmpty = false) :
    (remaining kept history (removed ++ m.fresh kept history removed)).length <
      (remaining kept history removed).length := by
  obtain ⟨id, hid⟩ := List.exists_mem_of_ne_nil _ (by simpa using h)
  obtain ⟨hmem, hnot⟩ := mem_fresh hid
  have hsub : remaining kept history (removed ++ m.fresh kept history removed) =
      (remaining kept history removed).filter (· ∉ m.fresh kept history removed) := by
    simp only [remaining, List.filter_filter]
    congr 1
    funext x
    simp only [List.mem_append, not_or, Bool.decide_and, Bool.and_comm]
  rw [hsub]
  refine List.length_filter_lt_length_iff_exists.mpr ⟨id, ?_, by simpa using hid⟩
  simp only [remaining, List.mem_filter, decide_eq_true_eq]
  exact ⟨hmem, hnot⟩

/-- Drops more and more ids until the rules find no further one. -/
def enforceFrom (m : Model) (kept history : List Event) (removed : List EventId) : List EventId :=
  let new := m.fresh kept history removed
  if _h : new.isEmpty then removed else m.enforceFrom kept history (removed ++ new)
termination_by (remaining kept history removed).length
decreasing_by exact remaining_lt (by simpa using _h)

/-- The ids to drop from the kept events so that every rule holds. -/
def enforce (m : Model) (kept history : List Event) : List EventId := m.enforceFrom kept history []

/-- The boundaries at which every rule lets a sequence be cut. -/
def cuts (m : Model) (events : List Event) : List Nat :=
  boundariesAvoiding events.length (m.rules.flatMap (Rule.spans events))

end Model
end AgentMemory.Batching
