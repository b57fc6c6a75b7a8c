import AgentMemory.Proofs.Event
import AgentMemory.Proofs.View.Events

/-!
# What came after the latest condensation

A condensation releases the batches after it from the anchor that it forgets, if the anchor is over
by then. An anchor that goes on after the condensation ties everything to itself once more: no
batch begun since is visible (`visible_since_latest_iff`).
-/

namespace AgentMemory

open Batching (Precedes Released anchor? batchIds dependents ids)
open Sample (said called reasoned succeeded stamp)

namespace View

/-- Every condensation forgets only events before it. -/
def ForgetsPast (log : List Event) : Prop :=
  ∀ k ∈ log, ∀ c, k.asCondensation? = some c → ∀ x ∈ log, x.id ∈ c.forgotten → Before log x k

theorem ForgetsPast.of_take {log : List Event} (hdistinct : (ids log).Nodup)
    (h : ∀ i < log.length, ∀ k ∈ log[i]?, ∀ c ∈ k.asCondensation?, ∀ id ∈ c.forgotten,
      id ∈ ids (log.take i)) : ForgetsPast log := by
  intro k hk c hc x hx hforgotten
  obtain ⟨before, after, rfl⟩ := List.append_of_mem hk
  have hid := h before.length (by simp) k (by simp) c hc x.id hforgotten
  rw [List.take_left] at hid
  obtain ⟨y, hy, hyx⟩ := Batching.mem_ids.mp hid
  rw [Batching.eq_of_id_eq hdistinct hx (List.mem_append_left _ hy) hyx.symm]
  exact Before.of_mem hy (by simp)

/-- A batch has an event that a condensation forgets, and an event after it. -/
def Straddles (before : List Event) (c : Condensation) (after : List Event) (b : BatchId) : Prop :=
  (∃ x ∈ before, x.batch? = some b ∧ x.id ∈ c.forgotten) ∧ ∃ y ∈ after, y.batch? = some b

section

variable {before after : List Event} {k : Event} {c : Condensation} {b later : BatchId}
  (hk : k.asCondensation? = some c) (hlater : ∀ x ∈ before, x.batch? ≠ some later)

include hlater in
theorem precedes_since {x : Event} (hx : x ∈ before) (hxb : x.batch? = some b)
    (hmem : later ∈ batchIds after) : Precedes (before ++ k :: after) b later := by
  obtain ⟨i, hi⟩ := Batching.exists_firstAt? (Batching.mem_batchIds.mpr ⟨x, hx, hxb⟩)
  obtain ⟨y, hy, hyl⟩ := Batching.mem_batchIds.mp hmem
  have hbegun : later ∈ batchIds (before ++ k :: after) :=
    Batching.mem_batchIds.mpr ⟨y, by simp [hy], hyl⟩
  obtain ⟨j, hj⟩ := Batching.exists_firstAt? hbegun
  have hlt : i < before.length := by
    obtain ⟨xs, e, ys, rfl, rfl, -, -⟩ := Batching.firstAt?_eq_some_iff.mp hi
    simp
  have hle : before.length ≤ j := (Batching.length_le_firstAt?_iff hj).mpr hlater
  refine ⟨i, j, ?_, hj, by omega⟩
  rw [Batching.firstAt?_append, hi]
  rfl

include hk hlater in
theorem released_since {x : Event} (hx : x ∈ before) (hxb : x.batch? = some b)
    (hforgotten : x.id ∈ c.forgotten) (hover : ∀ y ∈ after, y.batch? ≠ some b) :
    Released (before ++ k :: after) b later := by
  refine ⟨before, k, after, rfl, hlater, hover, ?_⟩
  simp only [Batching.forgetsAny, hk, List.any_eq_true, decide_eq_true_eq]
  exact ⟨x.id, hforgotten, Batching.mem_ids_members.mpr ⟨x, by simp [hx], hxb, rfl⟩⟩

/-- From a batch that goes on after the latest condensation nothing is released: the condensation
that does so would come later still. -/
theorem not_released_of_mem_after (hlatest : ∀ x ∈ after, x.asCondensation? = none) {y : Event}
    (hy : y ∈ after) (hyb : y.batch? = some b) : ¬ Released (before ++ k :: after) b later := by
  rintro ⟨xs, e, ys, hsplit, -, hys, he⟩
  -- the condensation comes after `k`, so it is among the events that are none
  rcases List.append_eq_append_iff.mp hsplit with ⟨zs, rfl, hzs⟩ | ⟨zs, rfl, hzs⟩
  · cases zs with
    | nil =>
      obtain ⟨-, rfl⟩ := List.cons.inj hzs
      exact hys y hy hyb
    | cons z zs =>
      obtain ⟨-, rfl⟩ := List.cons.inj hzs
      simp [Batching.forgetsAny, hlatest e (by simp)] at he
  · have hmem : y ∈ ys := by
      cases zs with
      | nil =>
        obtain ⟨-, rfl⟩ := List.cons.inj hzs
        exact hy
      | cons z zs =>
        obtain ⟨-, rfl⟩ := List.cons.inj hzs
        simp [hy]
    exact hys y hmem hyb

variable (hlatest : ∀ x ∈ after, x.asCondensation? = none)
  (hdistinct : (ids (before ++ k :: after)).Nodup) (hpast : ForgetsPast (before ++ k :: after))
include hk hlater hlatest hdistinct hpast

theorem stands_since_iff (hmem : later ∈ batchIds after) :
    Stands (before ++ k :: after) later ↔
      ¬ ∃ b, anchor? (before ++ k :: after) = some b ∧ Straddles before c after b := by
  have hnodup := Batching.nodup_of_ids hdistinct
  have hforgotten : forgottenIds (before ++ k :: after) = c.forgotten := by
    rw [forgottenIds, latest?_eq_some_iff.mpr ⟨before, after, rfl, hk, hlatest⟩]
  have hbefore : ∀ {x}, x ∈ before ++ k :: after → x.id ∈ c.forgotten → x ∈ before := by
    intro x hx hxf
    exact (hpast k (by simp) c hk x hx hxf).mem_of_split hnodup
  constructor
  · rintro hstands ⟨b, hb, ⟨x, hx, hxb, hxf⟩, y, hy, hyb⟩
    refine hstands.anchored b hb (Batching.mem_dependents.mpr ⟨?_, ?_⟩) x (by simp [hx]) hxb
      (hforgotten ▸ hxf)
    · exact precedes_since hlater hx hxb hmem
    · exact not_released_of_mem_after hlatest hy hyb
  · intro hnone
    refine ⟨fun x hx hxl hxf => ?_, fun b hb hdepends x hx hxb hxf => ?_⟩
    · exact hlater x (hbefore hx (hforgotten ▸ hxf)) hxl
    · rw [hforgotten] at hxf
      by_contra
      refine hnone ⟨b, hb, ⟨x, hbefore hx hxf, hxb, hxf⟩, ?_⟩
      by_contra hover
      refine (Batching.mem_dependents.mp hdepends).2
        (released_since hk hlater (hbefore hx hxf) hxb hxf fun y hy hyb => hover ⟨y, hy, hyb⟩)

/-- **A batch begun after the latest condensation is visible as a whole, unless the anchor straddles
that condensation**: it lost an event to it and went on afterwards. In that case no event of the
batch is visible. -/
theorem visible_since_latest_iff (hmem : later ∈ batchIds after) :
    ((∀ x ∈ after, x.batch? = some later → x ∈ (ofEvents (before ++ k :: after)).events) ↔
      ¬ ∃ b, anchor? (before ++ k :: after) = some b ∧ Straddles before c after b) ∧
    ((∃ b, anchor? (before ++ k :: after) = some b ∧ Straddles before c after b) →
      ∀ x ∈ after, x.batch? = some later → x ∉ (ofEvents (before ++ k :: after)).events) := by
  have hstands := stands_since_iff hk hlater hlatest hdistinct hpast hmem
  have hvisible : ∀ {x}, x ∈ after → x.batch? = some later →
      (x ∈ (ofEvents (before ++ k :: after)).events ↔ Stands (before ++ k :: after) later) := by
    intro x hx hxl
    rw [← mem_retained_iff_of_batch? hdistinct (by simp [hx]) hxl]
    exact ⟨fun h => mem_retained_of_batch? h hxl, fun h => (retained_sublist_events _).subset h⟩
  obtain ⟨y, hy, hyl⟩ := Batching.mem_batchIds.mp hmem
  refine ⟨?_, fun hstraddled x hx hxl hxv => ?_⟩
  · rw [← hstands]
    exact ⟨fun hall => (hvisible hy hyl).mp (hall y hy hyl),
      fun h x hx hxl => (hvisible hx hxl).mpr h⟩
  · exact hstands.mp ((hvisible hx hxl).mp hxv) hstraddled

end

end View

namespace Sample

def pondered : List Event := [said "u", reasoned "a1" "b1" "c1", succeeded "r1" "c1" "a1"]

def ponderedOut : Condensation where
  forgotten := [⟨"a1"⟩, ⟨"r1"⟩]
  summary := some "earlier"
  offset := some 1

/-- A further batch after the condensation. In between there may be more events. -/
def renewed (between : List Event) : List Event :=
  pondered ++ .condensation (stamp "k1") ponderedOut :: (between ++ [called "a3" "b2" "c3"])

end Sample

open Sample (pondered ponderedOut renewed)

namespace View

theorem visible_since_latest_iff_renewed :
    (ids (renewed [])).Nodup ∧ ForgetsPast (renewed []) ∧
      (¬ ∃ b, anchor? (renewed []) = some b ∧
        Straddles pondered ponderedOut [called "a3" "b2" "c3"] b) ∧
      called "a3" "b2" "c3" ∈ (ofEvents (renewed [])).events := by
  have hdistinct : (ids (renewed [])).Nodup := by decide +kernel
  have hpast : ForgetsPast (renewed []) := .of_take hdistinct (by decide +kernel)
  have hlater : ∀ x ∈ pondered, x.batch? ≠ some ⟨"b2"⟩ := by decide
  have hover : ¬ ∃ b, anchor? (renewed []) = some b ∧
      Straddles pondered ponderedOut [called "a3" "b2" "c3"] b := by
    rintro ⟨b, -, ⟨x, hx, hxb, -⟩, y, hy, hyb⟩
    rw [List.mem_singleton.mp hy] at hyb
    exact hlater x hx (hxb.trans hyb.symm)
  refine ⟨hdistinct, hpast, hover, ?_⟩
  exact (visible_since_latest_iff rfl hlater (by decide) hdistinct hpast (by decide)).1.mpr hover
    _ (by simp) rfl

/-- When the anchor goes on after the condensation that forgot its beginning, a batch begun
afterwards is hidden. -/
theorem hidden_since_latest :
    (ids (renewed [called "a2" "b1" "c2", succeeded "r2" "c2" "a2"])).Nodup ∧
      ForgetsPast (renewed [called "a2" "b1" "c2", succeeded "r2" "c2" "a2"]) ∧
      (∀ x ∈ pondered ++ [.condensation (stamp "k1") ponderedOut], x.batch? ≠ some ⟨"b2"⟩) ∧
      called "a3" "b2" "c3" ∉
        (ofEvents (renewed [called "a2" "b1" "c2", succeeded "r2" "c2" "a2"])).events := by
  refine ⟨by decide +kernel, .of_take (by decide +kernel) (by decide +kernel), by decide,
    fun h => ?_⟩
  have hids : (⟨"a3"⟩ : EventId) ∉ ids
      (ofEvents (renewed [called "a2" "b1" "c2", succeeded "r2" "c2" "a2"])).events := by
    decide +kernel
  exact hids (Batching.id_mem_ids h)

end View
end AgentMemory
