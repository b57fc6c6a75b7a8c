import AgentMemory.EventLog
import AgentMemory.Proofs.Order

/-!
# Logs and their events

The ids of a log are distinct, and the index leads from each to its position. Appending adds one
event at the end, under an id of its own. A log whose events all bear ids is rebuilt from them
alone: the ids that are held ready for events without one are not used.
-/

namespace AgentMemory

/-! ## Ids -/

namespace Event

variable {e : Event} {fresh : EventId}

theorem identified_of_id (h : e.id.isEmpty = false) : e.identified fresh = e := by
  rw [identified, h, if_neg Bool.false_ne_true]

theorem isEmpty_identified (h : fresh.isEmpty = false) :
    (e.identified fresh).id.isEmpty = false := by
  unfold identified
  split
  · exact h
  · next hid => simpa using hid

end Event

namespace EventLog

variable {log log' : EventLog} {e : Event} {fresh : EventId}

theorem length_toList : log.toList.length = log.size := Array.length_toList

theorem toList_push (h : log.index[e.id]? = none) : (log.push e h).toList = log.toList ++ [e] :=
  Array.toList_push

/-! ## Appending -/

theorem append_of_none (h : log.index[(e.identified fresh).id]? = none) :
    log.append fresh e = .ok (log.push (e.identified fresh) h) := by
  unfold append
  dsimp only
  split
  · next hsome =>
    rw [h] at hsome
    cases hsome
  · rfl

theorem append_eq_ok (h : log.append fresh e = .ok log') :
    ∃ hnew : log.index[(e.identified fresh).id]? = none,
      log' = log.push (e.identified fresh) hnew := by
  unfold append at h
  dsimp only at h
  split at h
  · cases h
  · next hnew => exact ⟨hnew, (Except.ok.inj h).symm⟩

theorem toList_append (h : log.append fresh e = .ok log') :
    log'.toList = log.toList ++ [e.identified fresh] := by
  obtain ⟨hnew, rfl⟩ := append_eq_ok h
  exact toList_push hnew

theorem size_append (h : log.append fresh e = .ok log') : log'.size = log.size + 1 := by
  rw [← length_toList, toList_append h, List.length_append, length_toList]
  rfl

theorem exists_append (h : ∀ x ∈ log.toList, x.id ≠ (e.identified fresh).id) :
    ∃ log', log.append fresh e = .ok log' := by
  cases hindex : log.index[(e.identified fresh).id]? with
  | none => exact ⟨_, append_of_none hindex⟩
  | some p =>
    obtain ⟨x, hx, hid⟩ := Option.map_eq_some_iff.mp ((log.agree _ _).mp hindex)
    exact absurd hid (h x (Array.mem_toList_iff.mpr (Array.mem_of_getElem? hx)))

theorem position_unique (log : EventLog) {p q : Nat} (hp : log.toList[p]? = some e)
    (hq : log.toList[q]? = some e) : p = q := by
  have hat : ∀ {k}, log.toList[k]? = some e → log.index[e.id]? = some k := by
    intro k hk
    rw [log.agree, ← Array.getElem?_toList]
    exact congrArg (Option.map (·.id)) hk
  exact Option.some.inj ((hat hp).symm.trans (hat hq))

theorem position?_eq_some_iff {id : EventId} {p : Nat} :
    log.position? id = some p ↔ (log.toList[p]?).map (·.id) = some id := by
  rw [position?, log.agree, toList, Array.getElem?_toList]

theorem distinct_toList (log : EventLog) : (Batching.ids log.toList).Nodup := by
  refine List.nodup_iff_getElem?_ne_getElem?.mpr fun i j hij hj heq => ?_
  obtain ⟨id, hid⟩ : ∃ id, (Batching.ids log.toList)[j]? = some id :=
    ⟨_, List.getElem?_eq_getElem hj⟩
  have hi := heq.trans hid
  rw [Batching.ids, List.getElem?_map] at hi hid
  have hpositions := (position?_eq_some_iff.mpr hi).symm.trans (position?_eq_some_iff.mpr hid)
  exact absurd (Option.some.inj hpositions) (Nat.ne_of_lt hij)

theorem appendAll_snoc (held : Nat → EventId) (log : EventLog) (es : List Event) (e : Event) :
    log.appendAll held (es ++ [e]) =
      (log.appendAll held es).bind fun log' => log'.append (held log'.size) e := by
  induction es generalizing log with
  | nil =>
    show (log.append (held log.size) e).bind _ = log.append (held log.size) e
    cases log.append (held log.size) e <;> rfl
  | cons x xs ih =>
    show (log.append (held log.size) x).bind _ = ((log.append (held log.size) x).bind _).bind _
    cases log.append (held log.size) x with
    | error error => rfl
    | ok next => exact ih next

theorem toList_appendAll {held : Nat → EventId} {es : List Event}
    (h : log.appendAll held es = .ok log') :
    log'.toList = log.toList ++ es.mapIdx fun i e => e.identified (held (log.size + i)) := by
  induction es generalizing log with
  | nil =>
    cases h
    simp
  | cons e es ih =>
    change (log.append (held log.size) e).bind (·.appendAll held es) = .ok log' at h
    cases happend : log.append (held log.size) e with
    | error error =>
      rw [happend] at h
      cases h
    | ok next =>
      rw [happend] at h
      rw [ih h, toList_append happend, size_append happend, List.mapIdx_cons, List.append_assoc]
      simp only [Nat.add_zero, Nat.add_assoc, Nat.add_comm 1, List.singleton_append]

/-! ## Rebuilding -/

theorem toList_ofEvents {held : Nat → EventId} {es : List Event}
    (h : ofEvents held es = .ok log) : log.toList = es.mapIdx fun i e => e.identified (held i) := by
  rw [toList_appendAll h]
  show [] ++ es.mapIdx (fun i e => e.identified (held (0 + i))) = _
  simp only [Nat.zero_add, List.nil_append]

/-- A log is what its events make of an empty one, whatever ids are held ready. -/
def Rebuilds (log : EventLog) : Prop := ∀ held, ofEvents held log.toList = .ok log

theorem rebuilds_empty : empty.Rebuilds := fun _ => rfl

theorem Rebuilds.append (h : log.Rebuilds) (hfresh : fresh.isEmpty = false)
    (happend : log.append fresh e = .ok log') : log'.Rebuilds := by
  obtain ⟨hnew, rfl⟩ := append_eq_ok happend
  have hid : (e.identified fresh).id.isEmpty = false := Event.isEmpty_identified hfresh
  intro held
  -- an event that bears an id is appended as it is
  have hsame : (e.identified fresh).identified (held log.size) = e.identified fresh :=
    Event.identified_of_id hid
  have hagain : log.append (held log.size) (e.identified fresh) =
      .ok (log.push ((e.identified fresh).identified (held log.size)) (by rwa [hsame])) :=
    append_of_none _
  rw [toList_push, ofEvents, appendAll_snoc, ← ofEvents, h held]
  simp only [hsame] at hagain
  exact hagain

end EventLog
end AgentMemory
