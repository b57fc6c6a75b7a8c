import AgentMemory.Conversation.Subscribers
import Mathlib.Data.List.Nodup

/-!
# What subscribers are given

A timeline only grows, and every subscriber is given all of it, each event once and in order: those
from before at its subscription, every later one when it is dispatched (`Served`). After its end a
subscription is given nothing more.
-/

namespace AgentMemory

/-- The events that deliveries have given to one subscriber. -/
def received (given : List Delivery) (id : SubscriptionId) : List Event :=
  (given.filter (·.subscriber = id)).map (·.event)

theorem received_append (given more : List Delivery) (id : SubscriptionId) :
    received (given ++ more) id = received given id ++ received more id := by
  rw [received, List.filter_append, List.map_append, received, received]

namespace Subscribers

variable {ss : Subscribers} {timeline : List Event} {given : List Delivery}

/-! ## One delivery -/

theorem received_due_self (timeline : List Event) (s : Subscriber) :
    received (due timeline s) s.id = timeline.drop s.cursor := by
  have hall : (due timeline s).filter (·.subscriber = s.id) = due timeline s := by
    refine List.filter_eq_self.mpr fun d hd => ?_
    obtain ⟨e, -, rfl⟩ := List.mem_map.mp hd
    exact decide_eq_true rfl
  rw [received, hall, due, List.map_map]
  exact List.map_id _

theorem received_due_of_ne {s : Subscriber} {id : SubscriptionId} (h : s.id ≠ id) :
    received (due timeline s) id = [] := by
  have hnone : (due timeline s).filter (·.subscriber = id) = [] := by
    refine List.filter_eq_nil_iff.mpr fun d hd => ?_
    obtain ⟨e, -, rfl⟩ := List.mem_map.mp hd
    simpa using h
  rw [received, hnone, List.map_nil]

theorem received_due_of_not_mem {registered : List Subscriber} {id : SubscriptionId}
    (h : id ∉ registered.map (·.id)) : received (registered.flatMap (due timeline)) id = [] := by
  induction registered with
  | nil => rfl
  | cons s registered ih =>
    rw [List.map_cons, List.mem_cons, not_or] at h
    rw [List.flatMap_cons, received_append, received_due_of_ne (Ne.symm h.1), ih h.2,
      List.append_nil]

theorem received_due_of_mem {registered : List Subscriber} {s : Subscriber}
    (hdistinct : (registered.map (·.id)).Nodup) (hs : s ∈ registered) :
    received (registered.flatMap (due timeline)) s.id = timeline.drop s.cursor := by
  induction registered with
  | nil => cases hs
  | cons t registered ih =>
    obtain ⟨ht, hdistinct⟩ := List.nodup_cons.mp hdistinct
    rw [List.flatMap_cons, received_append]
    rcases List.mem_cons.mp hs with rfl | hs
    · rw [received_due_self, received_due_of_not_mem ht, List.append_nil]
    · have hne : t.id ≠ s.id := fun h => ht (List.mem_map.mpr ⟨s, hs, h.symm⟩)
      rw [received_due_of_ne hne, List.nil_append, ih hdistinct hs]

/-! ## Serving -/

/-- Subscribers have been given the whole timeline, and those that have left a beginning of it. -/
structure Served (ss : Subscribers) (timeline : List Event) (given : List Delivery) : Prop where
  distinct : (ss.registered.map (·.id)).Nodup
  numbered : ∀ s ∈ ss.registered, s.id.number < ss.next
  cursor : ∀ s ∈ ss.registered, s.cursor = timeline.length
  whole : ∀ s ∈ ss.registered, received given s.id = timeline
  begun : ∀ id, received given id <+: timeline
  unknown : ∀ id : SubscriptionId, ss.next ≤ id.number → received given id = []

theorem served_start (timeline : List Event) : Served {} timeline [] where
  distinct := List.nodup_nil
  numbered := by simp
  cursor := by simp
  whole := by simp
  begun _ := List.nil_prefix
  unknown _ _ := rfl

namespace Served

theorem dispatch (h : ss.Served timeline given) (more : List Event) :
    (ss.dispatch (timeline ++ more)).1.Served (timeline ++ more)
      (given ++ (ss.dispatch (timeline ++ more)).2) := by
  have hids : (ss.registered.map (caughtUp (timeline ++ more))).map (·.id) =
      ss.registered.map (·.id) := List.map_map
  have hgiven : ∀ s ∈ ss.registered,
      received (given ++ ss.registered.flatMap (due (timeline ++ more))) s.id =
        timeline ++ more := by
    intro s hs
    rw [received_append, h.whole s hs, received_due_of_mem h.distinct hs, h.cursor s hs,
      List.drop_left]
  refine ⟨?_, fun s hs => ?_, fun s hs => ?_, fun s hs => ?_, fun id => ?_, fun id hid => ?_⟩
  · exact hids ▸ h.distinct
  · obtain ⟨t, ht, rfl⟩ := List.mem_map.mp hs
    exact h.numbered t ht
  · obtain ⟨t, ht, rfl⟩ := List.mem_map.mp hs
    show t.cursor + (due (timeline ++ more) t).length = _
    rw [due, List.length_map, List.length_drop, h.cursor t ht, List.length_append]
    omega
  · obtain ⟨t, ht, rfl⟩ := List.mem_map.mp hs
    exact hgiven t ht
  · by_cases hreg : id ∈ ss.registered.map (·.id)
    · obtain ⟨t, ht, rfl⟩ := List.mem_map.mp hreg
      exact (hgiven t ht).symm ▸ List.prefix_rfl
    · show received (given ++ ss.registered.flatMap _) id <+: _
      rw [received_append, received_due_of_not_mem hreg, List.append_nil]
      exact (h.begun id).trans (List.prefix_append _ _)
  · have hreg : id ∉ ss.registered.map (·.id) := by
      intro hmem
      obtain ⟨t, ht, rfl⟩ := List.mem_map.mp hmem
      exact absurd (h.numbered t ht) (Nat.not_lt.mpr hid)
    show received (given ++ ss.registered.flatMap _) id = []
    rw [received_append, received_due_of_not_mem hreg, h.unknown id hid, List.append_nil]

theorem subscribe (h : ss.Served timeline given) :
    (ss.subscribe timeline).1.Served timeline (given ++ (ss.subscribe timeline).2.2) := by
  have hself : received (given ++ due timeline { id := ⟨ss.next⟩ }) ⟨ss.next⟩ = timeline := by
    rw [received_append, h.unknown ⟨ss.next⟩ (Nat.le_refl _), List.nil_append]
    exact received_due_self timeline { id := ⟨ss.next⟩ }
  have hothers : ∀ id : SubscriptionId, id ≠ ⟨ss.next⟩ →
      received (given ++ due timeline { id := ⟨ss.next⟩ }) id = received given id := by
    intro id hne
    rw [received_append, received_due_of_ne hne.symm, List.append_nil]
  have hold : ∀ s ∈ ss.registered, s.id ≠ ⟨ss.next⟩ := by
    intro s hs hid
    have := h.numbered s hs
    simp [hid] at this
  refine ⟨?_, fun s hs => ?_, fun s hs => ?_, fun s hs => ?_, fun id => ?_, fun id hid => ?_⟩
  · show ((ss.registered ++ [_]).map _).Nodup
    rw [List.map_append, List.nodup_append]
    refine ⟨h.distinct, List.nodup_singleton _, fun a ha b hb => ?_⟩
    obtain ⟨s, hs, rfl⟩ := List.mem_map.mp ha
    rw [List.mem_singleton.mp hb]
    exact hold s hs
  · rcases List.mem_append.mp hs with hs | hs
    · exact Nat.lt_succ_of_lt (h.numbered s hs)
    · rw [List.mem_singleton.mp hs]
      exact Nat.lt_succ_self _
  · rcases List.mem_append.mp hs with hs | hs
    · exact h.cursor s hs
    · rw [List.mem_singleton.mp hs]
      simp [caughtUp, due]
  · rcases List.mem_append.mp hs with hs | hs
    · exact (hothers s.id (hold s hs)).trans (h.whole s hs)
    · rw [List.mem_singleton.mp hs]
      exact hself
  · by_cases hid : id = ⟨ss.next⟩
    · subst hid
      exact hself.symm ▸ List.prefix_rfl
    · exact (hothers id hid).symm ▸ h.begun id
  · have hlt : ss.next < id.number := hid
    have hne : id ≠ ⟨ss.next⟩ := by
      rintro rfl
      exact Nat.lt_irrefl _ hlt
    exact (hothers id hne).trans (h.unknown id (Nat.le_of_lt hlt))

theorem unsubscribe (h : ss.Served timeline given) (id : SubscriptionId) :
    (ss.unsubscribe id).1.Served timeline given := by
  have hsub : (ss.registered.filter (·.id ≠ id)).Sublist ss.registered := List.filter_sublist
  exact ⟨h.distinct.sublist (hsub.map _), fun s hs => h.numbered s (hsub.subset hs),
    fun s hs => h.cursor s (hsub.subset hs), fun s hs => h.whole s (hsub.subset hs), h.begun,
    h.unknown⟩

end Served
end Subscribers
end AgentMemory
