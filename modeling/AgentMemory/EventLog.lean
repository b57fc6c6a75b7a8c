import AgentMemory.Event.Basic
import AgentMemory.Storage.Error
import Std.Data.HashMap

/-!
# Event logs

A log holds events in the order in which they were appended, each under an id of its own. Nothing is
ever removed. An index leads from an id to the position of its event; that it agrees with the events
is part of what a log is.

A page holds up to a number of events in one of two directions. The cursor of a page is the id of
its last event, and only a page with events before the end of the log has one; the next page begins
after its event.
-/

namespace AgentMemory

/-- A log of events. -/
structure EventLog where
  events : Array Event
  index : Std.HashMap EventId Nat
  agree : ∀ (id : EventId) (p : Nat), index[id]? = some p ↔ (events[p]?).map (·.id) = some id

/-- The event under an id of its own, or a given one if it has none. -/
def Event.identified (e : Event) (fresh : EventId) : Event :=
  if e.id.isEmpty then { e with id := fresh } else e

namespace EventLog

/-! ## Making logs -/

def empty : EventLog where
  events := #[]
  index := ∅
  agree := by simp

instance : Inhabited EventLog := ⟨empty⟩

/-- A log with a further event, whose id must be new. -/
def push (log : EventLog) (e : Event) (h : log.index[e.id]? = none) : EventLog where
  events := log.events.push e
  index := log.index.insert e.id log.events.size
  agree := by
    intro id p
    have hid := log.agree id
    rw [Std.HashMap.getElem?_insert, Array.getElem?_push]
    by_cases he : e.id = id
    · subst he
      by_cases hp : p = log.events.size
      · simp [hp]
      · have hn : ¬ (log.events[p]?).map (·.id) = some e.id := fun hs => by
          simpa [h] using (hid p).mpr hs
        simpa [hp, hn] using fun hs => hp hs.symm
    · have hne : (e.id == id) = false := by simpa using he
      rw [if_neg (by simp [hne])]
      by_cases hp : p = log.events.size
      · subst hp
        have hs : log.events[log.events.size]? = none := by simp
        rw [hid, if_pos rfl, hs]
        simpa using he
      · rw [if_neg hp, hid]

/-- Appends an event. One without an id is given a fresh one; one whose id is already in the log is
refused. -/
def append (log : EventLog) (fresh : EventId) (e : Event) : Except StoreError EventLog :=
  let e := e.identified fresh
  match h : log.index[e.id]? with
  | some _ => .error (.duplicateEvent e.id)
  | none => .ok (log.push e h)

/-- Appends events in turn. `fresh` is the id for an event at a position that has none. -/
def appendAll (log : EventLog) (fresh : Nat → EventId) : List Event → Except StoreError EventLog
  | [] => .ok log
  | e :: es => do (← log.append (fresh log.events.size) e).appendAll fresh es

/-- The log of some events. -/
def ofEvents (fresh : Nat → EventId) (events : List Event) : Except StoreError EventLog :=
  empty.appendAll fresh events

/-! ## Reading logs -/

def toList (log : EventLog) : List Event := log.events.toList

def size (log : EventLog) : Nat := log.events.size

def isEmpty (log : EventLog) : Bool := log.events.isEmpty

def position? (log : EventLog) (id : EventId) : Option Nat := log.index[id]?

def contains (log : EventLog) (id : EventId) : Bool := log.index.contains id

def at? (log : EventLog) (position : Nat) : Option Event := log.events[position]?

def find? (log : EventLog) (id : EventId) : Option Event := (log.position? id).bind log.at?

/-- The event with an id, or an error. -/
def get (log : EventLog) (id : EventId) : Except StoreError Event :=
  match log.find? id with
  | some e => .ok e
  | none => .error (.eventNotFound id)

def last? (log : EventLog) : Option Event := log.events.back?

/-- The events from a position on. -/
def since (log : EventLog) (position : Nat) : List Event := log.toList.drop position

/-- The latest events, the oldest of them first. -/
def tail (log : EventLog) (count : Nat) : List Event := log.since (log.size - count)

end EventLog

/-! ## Paging -/

/-- The direction of paging. -/
inductive PageOrder where
  /-- The oldest event first. -/
  | forward
  /-- The latest event first. -/
  | reverse
  deriving DecidableEq

/-- A page of events, and the cursor of the next page. -/
structure Page where
  events : List Event
  next : Option EventId

namespace EventLog

/-- The events after the one at a position, in a direction; all events without a position. -/
def beyond (log : EventLog) (position : Option Nat) : PageOrder → List Event
  | .forward => log.toList.drop ((position.map (· + 1)).getD 0)
  | .reverse => (log.toList.take (position.getD log.size)).reverse

/-- The first page of some events. -/
def firstPage (limit : Nat) (events : List Event) : Page where
  events := events.take limit
  next := if limit < events.length then (events.take limit).getLast?.map (·.id) else none

/-- The page after a cursor; the first page without one. -/
def page (log : EventLog) (cursor : Option EventId) (limit : Nat) (order : PageOrder) :
    Except StoreError Page := do
  match cursor with
  | none => return firstPage limit (log.beyond none order)
  | some id =>
    match log.position? id with
    | none => .error (.eventNotFound id)
    | some p => return firstPage limit (log.beyond (some p) order)

/-- The pages from a cursor on, each after the cursor of the one before, up to a number of pages.
The walk ends at a page without a cursor, or at an error. -/
def walk (log : EventLog) (limit : Nat) (order : PageOrder) (cursor : Option EventId) :
    Nat → List (Except StoreError Page)
  | 0 => []
  | count + 1 =>
    match log.page cursor limit order with
    | .error e => [.error e]
    | .ok p => .ok p :: match p.next with
      | none => []
      | some id => log.walk limit order (some id) count

/-- All pages from a cursor on; a page with a cursor holds an event, so there are no more of them
than events, and one after them. -/
def pages (log : EventLog) (limit : Nat) (order : PageOrder) (cursor : Option EventId) :
    List (Except StoreError Page) :=
  log.walk limit order cursor (log.size + 1)

end EventLog
end AgentMemory
