import AgentMemory.EventLog
import AgentMemory.Proofs.Event
import AgentMemory.Proofs.EventLog

/-!
# What a log reads as

A log is one list of events, whichever way it is read: by position, by id, in either direction or
from one end (`Reads`). Appends that are asked for one after the other make of it the list that
takes each event in unless its id is already there (`requests_toList`), and a list of events makes a
log just when the ids they bear are distinct (`exists_ofEvents_iff`).
-/

namespace AgentMemory.EventLog

open Batching (ids)

variable {log next : EventLog} {events : List Event} {e : Event} {fresh id : EventId}
  {error : StoreError} {held : Nat → EventId} {given : List Event}

/-! ## Readers -/

/-- Every way to read the log tells of the same list. -/
structure Reads (log : EventLog) (events : List Event) : Prop where
  size : log.size = events.length
  isEmpty : log.isEmpty = events.isEmpty
  at? : ∀ p, log.at? p = events[p]?
  position? : ∀ id p, log.position? id = some p ↔ ∃ e, events[p]? = some e ∧ e.id = id
  contains : ∀ id, log.contains id = true ↔ id ∈ ids events
  find? : ∀ id e, log.find? id = some e ↔ e ∈ events ∧ e.id = id
  get : ∀ id e, log.get id = .ok e ↔ e ∈ events ∧ e.id = id
  get_error : ∀ id error, log.get id = .error error ↔
    id ∉ ids events ∧ error = .eventNotFound id
  last? : log.last? = events.getLast?
  forward : log.beyond none .forward = events
  reverse : log.beyond none .reverse = events.reverse
  since : ∀ p, log.since p = events.drop p
  tail : ∀ count, log.tail count = (events.reverse.take count).reverse

theorem at?_eq (log : EventLog) (p : Nat) : log.at? p = log.toList[p]? :=
  Array.getElem?_toList.symm

theorem position?_eq_some_iff_at {p : Nat} :
    log.position? id = some p ↔ ∃ e, log.toList[p]? = some e ∧ e.id = id :=
  position?_eq_some_iff.trans Option.map_eq_some_iff

theorem contains_iff : log.contains id = true ↔ id ∈ ids log.toList := by
  rw [contains, Std.HashMap.contains_eq_isSome_getElem?, Option.isSome_iff_exists, Batching.mem_ids]
  constructor
  · rintro ⟨p, hp⟩
    obtain ⟨e, he, hid⟩ := position?_eq_some_iff_at.mp hp
    exact ⟨e, List.mem_of_getElem? he, hid⟩
  · rintro ⟨e, he, hid⟩
    obtain ⟨p, hp⟩ := List.mem_iff_getElem?.mp he
    exact ⟨p, position?_eq_some_iff_at.mpr ⟨e, hp, hid⟩⟩

theorem find?_eq_some_iff : log.find? id = some e ↔ e ∈ log.toList ∧ e.id = id := by
  simp only [find?, Option.bind_eq_some_iff, at?_eq]
  constructor
  · rintro ⟨p, hp, he⟩
    obtain ⟨x, hx, hid⟩ := position?_eq_some_iff_at.mp hp
    cases Option.some.inj (hx.symm.trans he)
    exact ⟨List.mem_of_getElem? he, hid⟩
  · rintro ⟨he, hid⟩
    obtain ⟨p, hp⟩ := List.mem_iff_getElem?.mp he
    exact ⟨p, position?_eq_some_iff_at.mpr ⟨e, hp, hid⟩, hp⟩

theorem find?_eq_none_iff : log.find? id = none ↔ id ∉ ids log.toList := by
  simp only [Option.eq_none_iff_forall_ne_some, ne_eq, find?_eq_some_iff, Batching.mem_ids,
    not_exists]

theorem get_eq_ok_iff : log.get id = .ok e ↔ e ∈ log.toList ∧ e.id = id := by
  rw [← find?_eq_some_iff, get]
  cases log.find? id <;> simp

theorem get_eq_error_iff :
    log.get id = .error error ↔ id ∉ ids log.toList ∧ error = .eventNotFound id := by
  rw [← find?_eq_none_iff, get]
  cases log.find? id <;> simp [eq_comm]

theorem reads_toList (log : EventLog) : log.Reads log.toList where
  size := length_toList.symm
  isEmpty := by
    rw [isEmpty, toList, Array.isEmpty_toList]
  at? := log.at?_eq
  position? _ _ := position?_eq_some_iff_at
  contains _ := contains_iff
  find? _ _ := find?_eq_some_iff
  get _ _ := get_eq_ok_iff
  get_error _ _ := get_eq_error_iff
  last? := log.events.getLast?_toList.symm
  forward := rfl
  reverse := by
    show (log.toList.take log.size).reverse = _
    rw [← length_toList, List.take_length]
  since _ := rfl
  tail count := by
    rw [List.reverse_take, List.reverse_reverse, List.length_reverse, length_toList]
    rfl

/-! ## One append -/

theorem append_eq_error_iff : log.append fresh e = .error error ↔
    (e.identified fresh).id ∈ ids log.toList ∧
      error = .duplicateEvent (e.identified fresh).id := by
  rw [← contains_iff, contains, Std.HashMap.contains_eq_isSome_getElem?, append]
  split
  · next p hp => simp [hp, eq_comm]
  · next hnone => simp [hnone]

/-- What an append adds to a log. -/
structure Appended (log : EventLog) (e : Event) (next : EventLog) : Prop where
  earlier : ∀ p < log.size, next.at? p = log.at? p
  added : next.at? log.size = some e
  size : next.size = log.size + 1

theorem appended_of_append (h : log.append fresh e = .ok next) :
    log.Appended (e.identified fresh) next := by
  have hlist := toList_append h
  refine ⟨fun p hp => ?_, ?_, size_append h⟩
  · rw [at?_eq, at?_eq, hlist, List.getElem?_append_left (by rwa [length_toList])]
  · rw [at?_eq, hlist, ← length_toList, List.getElem?_concat_length]

/-! ## Appends in turn -/

/-- An append that is asked for: an event, and the id that is made for it if it bears none. -/
structure Request where
  fresh : EventId
  event : Event

def Request.stored (x : Request) : Event := x.event.identified x.fresh

/-- An id that is made is a proper one, and none of the events bears it. -/
def Request.New (x : Request) (events : List Event) : Prop :=
  x.event.id.isEmpty = true → x.fresh.isEmpty = false ∧ x.fresh ∉ ids events

def request (log : EventLog) (x : Request) : EventLog :=
  match log.append x.fresh x.event with
  | .ok next => next
  | .error _ => log

def requests (log : EventLog) (xs : List Request) : EventLog := xs.foldl request log

/-- The list with an event at its end, unless one of its events already bears the id. -/
def taking (events : List Event) (e : Event) : List Event :=
  if e.id ∈ ids events then events else events ++ [e]

/-- The ids that are made are new when they are made. -/
def NewIds : List Event → List Request → Prop
  | _, [] => True
  | events, x :: xs => x.New events ∧ NewIds (taking events x.stored) xs

theorem request_toList (log : EventLog) (x : Request) :
    (log.request x).toList = taking log.toList x.stored := by
  rw [request, taking]
  cases happend : log.append x.fresh x.event with
  | ok next =>
    have hnew : x.stored.id ∉ ids log.toList := fun hmem => by
      rw [append_eq_error_iff.mpr ⟨hmem, rfl⟩] at happend
      cases happend
    rw [if_neg hnew]
    exact toList_append happend
  | error error => rw [if_pos (show x.stored.id ∈ _ from (append_eq_error_iff.mp happend).1)]

theorem requests_toList (log : EventLog) (xs : List Request) :
    (log.requests xs).toList = (xs.map Request.stored).foldl taking log.toList := by
  induction xs generalizing log with
  | nil => rfl
  | cons x xs ih =>
    show ((log.request x).requests xs).toList = _
    rw [ih, request_toList]
    rfl

theorem requests_snoc (log : EventLog) (xs : List Request) (x : Request) :
    log.requests (xs ++ [x]) = (log.requests xs).request x := by
  rw [requests, List.foldl_append]
  rfl

def Proper (log : EventLog) : Prop := ∀ e ∈ log.toList, e.id.isEmpty = false

theorem Request.isEmpty_stored {x : Request} (hx : x.New events) : x.stored.id.isEmpty = false := by
  cases hid : x.event.id.isEmpty with
  | true => exact Event.isEmpty_identified (hx hid).1
  | false =>
    rw [Request.stored, Event.identified_of_id hid]
    exact hid

theorem Proper.request {x : Request} (h : log.Proper) (hx : x.New log.toList) :
    (log.request x).Proper := by
  intro e he
  rw [request_toList, taking] at he
  split at he
  · exact h e he
  · obtain he | he := List.mem_append.mp he
    · exact h e he
    · rw [List.mem_singleton.mp he]
      exact Request.isEmpty_stored hx

theorem Proper.requests {xs : List Request} (h : log.Proper) (hxs : NewIds log.toList xs) :
    (log.requests xs).Proper := by
  induction xs generalizing log with
  | nil => exact h
  | cons x xs ih =>
    obtain ⟨hx, hxs⟩ := hxs
    rw [← request_toList] at hxs
    exact ih (h.request hx) hxs

theorem append_eq_error_iff_of_new {x : Request} (h : log.Proper) (hx : x.New log.toList) :
    log.append x.fresh x.event = .error error ↔
      x.event.id ∈ ids log.toList ∧ error = .duplicateEvent x.event.id := by
  rw [append_eq_error_iff]
  cases hid : x.event.id.isEmpty with
  | false => rw [Event.identified_of_id hid]
  | true =>
    have hstored : (x.event.identified x.fresh).id = x.fresh := by
      rw [Event.identified, hid, if_pos rfl]
    have hgiven : x.event.id ∉ ids log.toList := by
      rw [Batching.mem_ids]
      rintro ⟨e, he, heq⟩
      have hproper := h e he
      rw [heq, hid] at hproper
      cases hproper
    simp only [hstored, (hx hid).2, hgiven, false_and]

/-! ## Logs of events -/

/-- An id that is held for an event without one is a proper one, and no other event bears it. -/
def HeldNew (held : Nat → EventId) (given : List Event) : Prop :=
  ∀ p e, given[p]? = some e → e.id.isEmpty = true → (held p).isEmpty = false ∧
    ∀ q x, given[q]? = some x → q ≠ p → (x.identified (held q)).id ≠ held p

def identifiedAll (held : Nat → EventId) (given : List Event) : List Event :=
  given.mapIdx fun p e => e.identified (held p)

theorem identifiedAll_snoc (held : Nat → EventId) (given : List Event) (e : Event) :
    identifiedAll held (given ++ [e]) =
      identifiedAll held given ++ [e.identified (held given.length)] := by
  rw [identifiedAll, List.mapIdx_append]
  simp [identifiedAll]

theorem nodup_ids_snoc :
    (ids (events ++ [e])).Nodup ↔ e.id ∉ ids events ∧ (ids events).Nodup := by
  rw [Batching.ids_append, List.nodup_append_comm]
  exact List.nodup_cons

theorem exists_ofEvents_iff_identified :
    (∃ log, ofEvents held given = .ok log) ↔ (ids (identifiedAll held given)).Nodup := by
  constructor
  · rintro ⟨log, hlog⟩
    rw [identifiedAll, ← toList_ofEvents hlog]
    exact log.distinct_toList
  · intro hdistinct
    induction given using List.reverseRecOn with
    | nil => exact ⟨empty, rfl⟩
    | append_singleton given e ih =>
      rw [identifiedAll_snoc, nodup_ids_snoc] at hdistinct
      obtain ⟨log, hlog⟩ := ih hdistinct.2
      have hsize : log.size = given.length := by
        rw [← length_toList, toList_ofEvents hlog, List.length_mapIdx]
      have hfree : ∀ x ∈ log.toList, x.id ≠ (e.identified (held log.size)).id := by
        rw [toList_ofEvents hlog, hsize]
        exact fun x hx heq => hdistinct.1 (heq ▸ Batching.id_mem_ids hx)
      obtain ⟨next, hnext⟩ := log.exists_append hfree
      refine ⟨next, ?_⟩
      rw [ofEvents, appendAll_snoc, ← ofEvents, hlog]
      exact hnext

theorem HeldNew.of_snoc (h : HeldNew held (given ++ [e])) : HeldNew held given := by
  intro p x hx hid
  have hlater : ∀ {q : Nat} {y : Event}, given[q]? = some y → (given ++ [e])[q]? = some y :=
    fun hy => List.getElem?_append_left (List.getElem?_eq_some_iff.mp hy).1 ▸ hy
  obtain ⟨hproper, hothers⟩ := h p x (hlater hx) hid
  exact ⟨hproper, fun q y hy hne => hothers q y (hlater hy) hne⟩

theorem HeldNew.mem_ids_iff (h : HeldNew held (given ++ [e])) (hid : e.id.isEmpty = false) :
    e.id ∈ ids (identifiedAll held given) ↔ e.id ∈ ids (given.filter fun x => !x.id.isEmpty) := by
  simp only [Batching.mem_ids, identifiedAll, List.mem_mapIdx, List.mem_filter]
  constructor
  · rintro ⟨_, ⟨p, hp, rfl⟩, heq⟩
    have hx : (given ++ [e])[p]? = some given[p] := by
      rw [List.getElem?_append_left hp, List.getElem?_eq_getElem hp]
    cases hempty : given[p].id.isEmpty with
    | false =>
      rw [Event.identified_of_id hempty] at heq
      exact ⟨given[p], ⟨List.getElem_mem hp, by simp [hempty]⟩, heq⟩
    | true =>
      -- an id that was made would be borne by the last event as well
      have hother := (h p _ hx hempty).2 given.length e List.getElem?_concat_length
        (Nat.ne_of_gt hp)
      rw [Event.identified_of_id hid, ← heq, Event.identified, hempty, if_pos rfl] at hother
      exact absurd rfl hother
  · rintro ⟨x, ⟨hx, hempty⟩, heq⟩
    obtain ⟨p, hp, rfl⟩ := List.mem_iff_getElem.mp hx
    refine ⟨_, ⟨p, hp, rfl⟩, ?_⟩
    rw [Event.identified_of_id (by simpa using hempty), heq]

theorem HeldNew.not_mem_ids (h : HeldNew held (given ++ [e])) (hid : e.id.isEmpty = true) :
    held given.length ∉ ids (identifiedAll held given) := by
  simp only [Batching.mem_ids, identifiedAll, List.mem_mapIdx]
  rintro ⟨_, ⟨p, hp, rfl⟩, heq⟩
  have hx : (given ++ [e])[p]? = some given[p] := by
    rw [List.getElem?_append_left hp, List.getElem?_eq_getElem hp]
  exact (h given.length e List.getElem?_concat_length hid).2 p _ hx (Nat.ne_of_lt hp) heq

theorem HeldNew.nodup_iff (h : HeldNew held given) :
    (ids (identifiedAll held given)).Nodup ↔
      (ids (given.filter fun e => !e.id.isEmpty)).Nodup := by
  induction given using List.reverseRecOn with
  | nil => rfl
  | append_singleton given e ih =>
    rw [identifiedAll_snoc, List.filter_append, nodup_ids_snoc]
    cases hid : e.id.isEmpty with
    | false =>
      have hlast : [e].filter (fun e => !e.id.isEmpty) = [e] := by simp [hid]
      rw [hlast, nodup_ids_snoc, Event.identified_of_id hid]
      exact and_congr (not_congr (h.mem_ids_iff hid)) (ih h.of_snoc)
    | true =>
      have hlast : [e].filter (fun e => !e.id.isEmpty) = [] := by simp [hid]
      rw [hlast, List.append_nil, Event.identified, hid, if_pos rfl]
      exact (and_iff_right (h.not_mem_ids hid)).trans (ih h.of_snoc)

theorem HeldNew.proper (h : HeldNew held given) (hlog : ofEvents held given = .ok log) :
    log.Proper := by
  intro e he
  rw [toList_ofEvents hlog] at he
  obtain ⟨p, hp, rfl⟩ := List.mem_mapIdx.mp he
  cases hid : given[p].id.isEmpty with
  | true => exact Event.isEmpty_identified (h p _ (List.getElem?_eq_getElem hp) hid).1
  | false =>
    rw [Event.identified_of_id hid]
    exact hid

/-- **What a log is after any appends.** Events make a log just when the ids they bear are distinct,
and it holds them in order. Whatever is appended from then on, all ways to read the log tell of one
list, its ids are distinct and proper, an append is refused just for an id that is already there,
and otherwise adds the event behind all others. -/
theorem reads_requests (hheld : HeldNew held given) :
    ((∃ log, ofEvents held given = .ok log) ↔
      (ids (given.filter fun e => !e.id.isEmpty)).Nodup) ∧
    ∀ log, ofEvents held given = .ok log →
      log.toList = given.mapIdx (fun p e => e.identified (held p)) ∧
      ∀ xs, NewIds log.toList xs →
        ∃ events, events = (xs.map Request.stored).foldl taking log.toList ∧
          (log.requests xs).Reads events ∧ (ids events).Nodup ∧
          (∀ e ∈ events, e.id.isEmpty = false) ∧
          ∀ x : Request, x.New events →
            (∀ error, (log.requests xs).append x.fresh x.event = .error error ↔
              x.event.id ∈ ids events ∧ error = .duplicateEvent x.event.id) ∧
            (∀ error, (log.requests xs).append x.fresh x.event = .error error →
              log.requests (xs ++ [x]) = log.requests xs) ∧
            ∀ next, (log.requests xs).append x.fresh x.event = .ok next →
              log.requests (xs ++ [x]) = next ∧ (log.requests xs).Appended x.stored next := by
  refine ⟨exists_ofEvents_iff_identified.trans hheld.nodup_iff, fun log hlog => ?_⟩
  refine ⟨toList_ofEvents hlog, fun xs hxs => ?_⟩
  have hproper := (hheld.proper hlog).requests hxs
  refine ⟨_, rfl, ?_⟩
  rw [← requests_toList]
  refine ⟨reads_toList _, distinct_toList _, hproper, fun x hx => ?_⟩
  refine ⟨fun error => append_eq_error_iff_of_new hproper hx, fun error herror => ?_,
    fun next hnext => ⟨?_, appended_of_append hnext⟩⟩
  · rw [requests_snoc, request, herror]
  · rw [requests_snoc, request, hnext]

open Sample (said)

/-- The first of the events bears no id, and the id of the next one is taken. -/
def Sample.appends : List Request :=
  [⟨⟨"again"⟩, said ""⟩, ⟨⟨"x"⟩, said "made"⟩, ⟨⟨"y"⟩, said "v"⟩]

theorem reads_requests_refused :
    ∃ log, ofEvents (fun _ => ⟨"made"⟩) [said "u", said ""] = .ok log ∧
      (log.requests Sample.appends).position? ⟨"v"⟩ = some 3 ∧
      (log.requests Sample.appends).get ⟨"again"⟩ = .ok (said "again") ∧
      ids ((log.requests Sample.appends).tail 2) = [⟨"again"⟩, ⟨"v"⟩] ∧
      (log.requests Sample.appends).append ⟨"z"⟩ (said "u") = .error (.duplicateEvent ⟨"u"⟩) := by
  have hheld : HeldNew (fun _ => ⟨"made"⟩) [said "u", said ""] := by
    intro p e he hid
    match p, he with
    | 0, he =>
      cases he
      exact absurd hid (by decide)
    | 1, _ =>
      refine ⟨by decide, fun q x hx hne => ?_⟩
      match q, hx with
      | 0, hx =>
        cases hx
        decide
      | 1, _ => exact absurd rfl hne
  obtain ⟨hmade, hrun⟩ := reads_requests hheld
  obtain ⟨log, hlog⟩ := hmade.mpr (by decide)
  obtain ⟨hlist, hafter⟩ := hrun log hlog
  refine ⟨log, hlog, ?_⟩
  obtain ⟨events, hevents, hreads, -, -, hnext⟩ := hafter Sample.appends (by
    rw [hlist]
    exact ⟨fun _ => by decide, fun h => absurd h (by decide), fun h => absurd h (by decide),
      trivial⟩)
  obtain rfl : events = [said "u", said "made", said "again", said "v"] := by
    rw [hevents, hlist]
    with_unfolding_all rfl
  refine ⟨(hreads.position? _ _).mpr ⟨said "v", rfl, rfl⟩,
    (hreads.get _ _).mpr ⟨by simp, rfl⟩, ?_, ?_⟩
  · rw [hreads.tail]
    decide
  · exact ((hnext ⟨⟨"z"⟩, said "u"⟩ fun h => absurd h (by decide)).1 _).mpr (by decide)

end AgentMemory.EventLog
