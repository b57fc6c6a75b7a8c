import AgentMemory.Proofs.Order
import AgentMemory.View

/-!
# Results that stand for their call

Of two results of one call the success outranks the failure, and else the earlier the later. What is
left of a sequence without duplicate results are the events that no other one outranks
(`mem_dedupe`), and each call that has a result keeps one (`exists_mem_dedupe`).
-/

namespace AgentMemory

open Batching (ids eq_of_id_eq nodup_of_ids)

/-- One result of a call is preferred to another: a success to a failure, else the earlier one. -/
def Outranks (events : List Event) (x y : Event) : Prop :=
  ∃ a b, x.answer? = some a ∧ y.answer? = some b ∧ a.call = b.call ∧
    ((a.success = true ∧ b.success = false) ∨ (a.success = b.success ∧ Before events x y))

namespace Outranks

variable {events part : List Event} {x y : Event}

theorem of_sublist (hpart : part.Sublist events) (h : Outranks part x y) : Outranks events x y := by
  obtain ⟨a, b, ha, hb, hcall, h⟩ := h
  exact ⟨a, b, ha, hb, hcall, h.imp_right fun h => ⟨h.1, h.2.of_sublist hpart⟩⟩

theorem restrict (hnodup : events.Nodup) (hpart : part.Sublist events) (hx : x ∈ part)
    (hy : y ∈ part) (h : Outranks events x y) : Outranks part x y := by
  obtain ⟨a, b, ha, hb, hcall, h⟩ := h
  exact ⟨a, b, ha, hb, hcall, h.imp_right fun h => ⟨h.1, h.2.restrict hnodup hpart hx hy⟩⟩

theorem irrefl (hnodup : events.Nodup) : ¬ Outranks events x x := by
  rintro ⟨a, b, ha, hb, -, ⟨hsuccess, hfailed⟩ | ⟨-, hbefore⟩⟩
  · cases ha.symm.trans hb
    rw [hsuccess] at hfailed
    cases hfailed
  · exact hbefore.ne hnodup rfl

theorem total (hx : x ∈ events) (hy : y ∈ events) (hne : x ≠ y) {a b : Answer}
    (ha : x.answer? = some a) (hb : y.answer? = some b) (hcall : a.call = b.call) :
    Outranks events x y ∨ Outranks events y x := by
  by_cases hsuccess : a.success = b.success
  · rcases Before.total hx hy hne with h | h
    · exact Or.inl ⟨a, b, ha, hb, hcall, Or.inr ⟨hsuccess, h⟩⟩
    · exact Or.inr ⟨b, a, hb, ha, hcall.symm, Or.inr ⟨hsuccess.symm, h⟩⟩
  · cases hs : a.success with
    | true => exact Or.inl ⟨a, b, ha, hb, hcall, Or.inl ⟨hs, by simpa [hs] using hsuccess⟩⟩
    | false =>
      exact Or.inr ⟨b, a, hb, ha, hcall.symm, Or.inl ⟨by simpa [hs] using hsuccess, hs⟩⟩

end Outranks

namespace View

variable {events : List Event}

/-! ## The best result of a call -/

def isResultOf (p : Answer → Bool) (call : ToolCallId) (e : Event) : Bool :=
  e.answer?.any fun a => a.call = call && p a

theorem isResultOf_iff {p : Answer → Bool} {call : ToolCallId} {e : Event} :
    isResultOf p call e = true ↔ ∃ a, e.answer? = some a ∧ a.call = call ∧ p a = true := by
  simp only [isResultOf, Option.any_eq_true, Bool.and_eq_true, decide_eq_true_eq]

theorem map_find?_answersTo (p : Answer → Bool) (call : ToolCallId) (events : List Event) :
    ((answersTo call events).find? fun r => p r.2).map (·.1) =
      (events.find? (isResultOf p call)).map (·.id) := by
  induction events with
  | nil => rfl
  | cons e events ih =>
    simp only [answersTo] at ih ⊢
    rw [List.filterMap_cons, List.find?_cons]
    cases ha : e.answer? with
    | none => simpa [isResultOf, ha] using ih
    | some a =>
      by_cases hcall : a.call = call
      · cases hp : p a with
        | true => simp [isResultOf, ha, hcall, hp]
        | false => simpa [isResultOf, ha, hcall, hp] using ih
      · simpa [isResultOf, ha, hcall] using ih

theorem best?_eq (call : ToolCallId) (events : List Event) :
    best? call events = ((events.find? (isResultOf (·.success) call)).map (·.id)).or
      ((events.find? (isResultOf (fun _ => true) call)).map (·.id)) := by
  have hhead : (answersTo call events).head? = (answersTo call events).find? fun _ => true := by
    cases answersTo call events <;> rfl
  simp only [best?, hhead, ← map_find?_answersTo]
  cases (answersTo call events).find? (·.2.success) <;> rfl

theorem find?_eq_some_iff_first {p : Event → Bool} (hnodup : events.Nodup) {x : Event} :
    events.find? p = some x ↔
      x ∈ events ∧ p x = true ∧ ∀ y ∈ events, p y = true → ¬ Before events y x := by
  constructor
  · intro hfind
    obtain ⟨hx, before, after, rfl, hbefore⟩ := List.find?_eq_some_iff_append.mp hfind
    refine ⟨by simp, hx, fun y _ hy h => ?_⟩
    simpa [hy] using hbefore y (h.mem_of_split hnodup)
  · rintro ⟨hx, hp, hfirst⟩
    cases hfind : events.find? p with
    | none => simpa [hp] using List.find?_eq_none.mp hfind x hx
    | some y =>
      obtain ⟨hy, before, after, rfl, hbefore⟩ := List.find?_eq_some_iff_append.mp hfind
      rcases List.mem_append.mp hx with hx | hx
      · simpa [hp] using hbefore x hx
      · rcases List.mem_cons.mp hx with rfl | hx
        · rfl
        · exact absurd (Before.of_split hx) (hfirst y (by simp) hy)

theorem best?_eq_some_iff_find? (hdistinct : (ids events).Nodup) {call : ToolCallId} {e : Event}
    (he : e ∈ events) :
    best? call events = some e.id ↔ events.find? (isResultOf (·.success) call) = some e ∨
      (events.find? (isResultOf (·.success) call) = none ∧
        events.find? (isResultOf (fun _ => true) call) = some e) := by
  have hmap : ∀ p : Event → Bool,
      (events.find? p).map (·.id) = some e.id ↔ events.find? p = some e := by
    intro p
    rw [Option.map_eq_some_iff]
    refine ⟨fun ⟨x, hx, hid⟩ => ?_, fun h => ⟨e, h, rfl⟩⟩
    rwa [← eq_of_id_eq hdistinct (List.mem_of_find?_eq_some hx) he hid]
  rw [best?_eq, Option.or_eq_some_iff, hmap, hmap, Option.map_eq_none_iff]

theorem not_outranked_iff_of_success {e : Event} {a : Answer} (ha : e.answer? = some a)
    (hs : a.success = true) :
    (∀ w ∈ events, ¬ Outranks events w e) ↔
      ∀ w ∈ events, isResultOf (·.success) a.call w = true → ¬ Before events w e := by
  refine forall₂_congr fun w _ => ⟨fun hbest hw hbefore => ?_, fun hfirst hrank => ?_⟩
  · obtain ⟨c, hc, hcall, hcs⟩ := isResultOf_iff.mp hw
    exact hbest ⟨c, a, hc, ha, hcall, Or.inr ⟨hcs.trans hs.symm, hbefore⟩⟩
  · obtain ⟨c, b, hc, hb, hcall, hrank⟩ := hrank
    cases ha.symm.trans hb
    rcases hrank with ⟨-, hfailed⟩ | ⟨hsame, hbefore⟩
    · simp [hs] at hfailed
    · exact hfirst (isResultOf_iff.mpr ⟨c, hc, hcall, hsame.trans hs⟩) hbefore

theorem not_outranked_iff_of_failure {e : Event} {a : Answer} (ha : e.answer? = some a)
    (hs : a.success = false) :
    (∀ w ∈ events, ¬ Outranks events w e) ↔
      (∀ w ∈ events, ¬ isResultOf (·.success) a.call w = true) ∧
      ∀ w ∈ events, isResultOf (fun _ => true) a.call w = true → ¬ Before events w e := by
  rw [← forall₂_and]
  refine forall₂_congr fun w _ => ⟨fun hbest => ⟨fun hw => ?_, fun hw hbefore => ?_⟩, ?_⟩
  · obtain ⟨c, hc, hcall, hcs⟩ := isResultOf_iff.mp hw
    exact hbest ⟨c, a, hc, ha, hcall, Or.inl ⟨hcs, hs⟩⟩
  · obtain ⟨c, hc, hcall, -⟩ := isResultOf_iff.mp hw
    cases hcs : c.success with
    | true => exact hbest ⟨c, a, hc, ha, hcall, Or.inl ⟨hcs, hs⟩⟩
    | false => exact hbest ⟨c, a, hc, ha, hcall, Or.inr ⟨hcs.trans hs.symm, hbefore⟩⟩
  · rintro ⟨hnone, hfirst⟩ ⟨c, b, hc, hb, hcall, hrank⟩
    cases ha.symm.trans hb
    rcases hrank with ⟨hcs, -⟩ | ⟨-, hbefore⟩
    · exact hnone (isResultOf_iff.mpr ⟨c, hc, hcall, hcs⟩)
    · exact hfirst (isResultOf_iff.mpr ⟨c, hc, hcall, rfl⟩) hbefore

theorem best?_eq_some_iff (hdistinct : (ids events).Nodup) {call : ToolCallId} {e : Event}
    (he : e ∈ events) :
    best? call events = some e.id ↔
      (∃ a, e.answer? = some a ∧ a.call = call) ∧ ∀ w ∈ events, ¬ Outranks events w e := by
  have hnodup := nodup_of_ids hdistinct
  rw [best?_eq_some_iff_find? hdistinct he, find?_eq_some_iff_first hnodup,
    find?_eq_some_iff_first hnodup, List.find?_eq_none]
  constructor
  · rintro (⟨-, hp, hfirst⟩ | ⟨hnone, -, hp, hfirst⟩)
    · obtain ⟨a, ha, rfl, hs⟩ := isResultOf_iff.mp hp
      exact ⟨⟨a, ha, rfl⟩, (not_outranked_iff_of_success ha hs).mpr hfirst⟩
    · obtain ⟨a, ha, rfl, -⟩ := isResultOf_iff.mp hp
      have hs : a.success = false := by
        rw [← Bool.not_eq_true]
        exact fun hs => hnone e he (isResultOf_iff.mpr ⟨a, ha, rfl, hs⟩)
      exact ⟨⟨a, ha, rfl⟩, (not_outranked_iff_of_failure ha hs).mpr ⟨hnone, hfirst⟩⟩
  · rintro ⟨⟨a, ha, rfl⟩, hbest⟩
    cases hs : a.success with
    | true =>
      exact Or.inl ⟨he, isResultOf_iff.mpr ⟨a, ha, rfl, hs⟩,
        (not_outranked_iff_of_success ha hs).mp hbest⟩
    | false =>
      obtain ⟨hnone, hfirst⟩ := (not_outranked_iff_of_failure ha hs).mp hbest
      exact Or.inr ⟨hnone, he, isResultOf_iff.mpr ⟨a, ha, rfl, rfl⟩, hfirst⟩

/-! ## Deduplication -/

theorem mem_winners {id : EventId} :
    id ∈ winners events ↔ ∃ e ∈ events, ∃ a, e.answer? = some a ∧
      best? a.call events = some id := by
  simp only [winners, List.mem_filterMap, List.mem_eraseDups, List.mem_map]
  constructor
  · rintro ⟨_, ⟨a, ⟨e, he, ha⟩, rfl⟩, hbest⟩
    exact ⟨e, he, a, ha, hbest⟩
  · rintro ⟨e, he, a, ha, hbest⟩
    exact ⟨_, ⟨a, ⟨e, he, ha⟩, rfl⟩, hbest⟩

/-- **What deduplication leaves are the events that no other one outranks.** -/
theorem mem_dedupe (hdistinct : (ids events).Nodup) {e : Event} :
    e ∈ dedupe events ↔ e ∈ events ∧ ∀ w ∈ events, ¬ Outranks events w e := by
  simp only [dedupe, List.mem_filter, Bool.or_eq_true, Option.isNone_iff_eq_none, decide_eq_true_eq]
  refine and_congr_right fun he => ?_
  constructor
  · rintro (hnone | hwins) w hw hrank
    · obtain ⟨-, b, -, hb, -⟩ := hrank
      simp [hnone] at hb
    · obtain ⟨x, -, a, -, hbest⟩ := mem_winners.mp hwins
      exact ((best?_eq_some_iff hdistinct he).mp hbest).2 w hw hrank
  · intro hbest
    cases ha : e.answer? with
    | none => exact Or.inl rfl
    | some a =>
      refine Or.inr (mem_winners.mpr ⟨e, he, a, ha, ?_⟩)
      exact (best?_eq_some_iff hdistinct he).mpr ⟨⟨a, ha, rfl⟩, hbest⟩

theorem dedupe_sublist (events : List Event) : (dedupe events).Sublist events :=
  List.filter_sublist

theorem exists_mem_dedupe (hdistinct : (ids events).Nodup) {e : Event} (he : e ∈ events)
    {a : Answer} (ha : e.answer? = some a) :
    ∃ w ∈ dedupe events, ∃ b, w.answer? = some b ∧ b.call = a.call := by
  have hany : ∃ id, best? a.call events = some id := by
    rw [best?_eq]
    cases hs : events.find? (isResultOf (·.success) a.call) with
    | some x => exact ⟨x.id, rfl⟩
    | none =>
      cases hr : events.find? (isResultOf (fun _ => true) a.call) with
      | some x => exact ⟨x.id, rfl⟩
      | none => exact absurd (isResultOf_iff.mpr ⟨a, ha, rfl, rfl⟩) (List.find?_eq_none.mp hr e he)
  obtain ⟨id, hid⟩ := hany
  obtain ⟨w, hw, rfl⟩ : ∃ w ∈ events, w.id = id := by
    rw [best?_eq, Option.or_eq_some_iff] at hid
    rcases hid with hid | ⟨-, hid⟩
    · obtain ⟨w, hw, rfl⟩ := Option.map_eq_some_iff.mp hid
      exact ⟨w, List.mem_of_find?_eq_some hw, rfl⟩
    · obtain ⟨w, hw, rfl⟩ := Option.map_eq_some_iff.mp hid
      exact ⟨w, List.mem_of_find?_eq_some hw, rfl⟩
  obtain ⟨⟨b, hb, hcall⟩, hbest⟩ := (best?_eq_some_iff hdistinct hw).mp hid
  exact ⟨w, (mem_dedupe hdistinct).mpr ⟨hw, hbest⟩, b, hb, hcall⟩

theorem eq_of_mem_dedupe (hdistinct : (ids events).Nodup) {x y : Event} (hx : x ∈ dedupe events)
    (hy : y ∈ dedupe events) {a b : Answer} (ha : x.answer? = some a) (hb : y.answer? = some b)
    (hcall : a.call = b.call) : x = y := by
  obtain ⟨hx, hxbest⟩ := (mem_dedupe hdistinct).mp hx
  obtain ⟨hy, hybest⟩ := (mem_dedupe hdistinct).mp hy
  by_contra hne
  rcases Outranks.total hx hy hne ha hb hcall with h | h
  · exact hybest x hx h
  · exact hxbest y hy h

end View
end AgentMemory
