import AgentMemory.Event.Basic

/-!
# Subscribers

A subscriber is given every event once and in order. Its cursor counts the events given so far; a
delivery gives it all events past the cursor, whether they are old ones at its subscription or new
ones later.
-/

namespace AgentMemory

/-- The identity of a subscription. -/
structure SubscriptionId where
  number : Nat
  deriving DecidableEq, Inhabited

/-- A subscriber, and the number of events that it has been given. -/
structure Subscriber where
  id : SubscriptionId
  cursor : Nat := 0
  deriving DecidableEq

/-- An event given to a subscriber. -/
structure Delivery where
  subscriber : SubscriptionId
  event : Event

structure Subscribers where
  next : Nat := 0
  registered : List Subscriber := []

namespace Subscribers

/-- What a subscriber has not been given yet. -/
def due (timeline : List Event) (s : Subscriber) : List Delivery :=
  (timeline.drop s.cursor).map (⟨s.id, ·⟩)

/-- A subscriber that has been given everything. -/
def caughtUp (timeline : List Event) (s : Subscriber) : Subscriber :=
  { s with cursor := s.cursor + (due timeline s).length }

/-- Gives every subscriber what it has not been given yet. -/
def dispatch (ss : Subscribers) (timeline : List Event) : Subscribers × List Delivery :=
  ({ ss with registered := ss.registered.map (caughtUp timeline) },
    ss.registered.flatMap (due timeline))

/-- A further subscriber, which is given all events so far. -/
def subscribe (ss : Subscribers) (timeline : List Event) :
    Subscribers × SubscriptionId × List Delivery :=
  let s : Subscriber := { id := ⟨ss.next⟩ }
  ({ next := ss.next + 1, registered := ss.registered ++ [caughtUp timeline s] }, s.id,
    due timeline s)

def unsubscribe (ss : Subscribers) (id : SubscriptionId) : Subscribers × Bool :=
  ({ ss with registered := ss.registered.filter (·.id ≠ id) }, ss.registered.any (·.id = id))

end Subscribers
end AgentMemory
