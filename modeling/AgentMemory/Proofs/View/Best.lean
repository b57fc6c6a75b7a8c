import AgentMemory.Proofs.Event
import AgentMemory.Proofs.View.Events

/-!
# The result that an action shows

Where a call belongs to one action, in results as in actions, an action is shown with the best of
its results that are not forgotten: the first success, or else the first failure, in its place in
the log and with no other result (`results_of_action`). Deduplication chooses among the results of a
call before any rule is applied; the rules then drop a result only with its action
(`mem_events_iff_of_result`), so the choice is not undone.
-/

namespace AgentMemory

open Batching (ids)
open Sample (said called reasoned failed succeeded condensed)

/-! ## Results and their actions -/

/-- Whether an event is a result of an action. -/
def isResultFor (x y : Event) : Bool := y.answer?.any (·.action = x.id)

theorem isResultFor_iff {x y : Event} :
    isResultFor x y = true ↔ ∃ a, y.answer? = some a ∧ a.action = x.id := by
  simp only [isResultFor, Option.any_eq_true, decide_eq_true_eq]

/-- A call belongs to one action, in results as in actions. -/
structure Paired (log : List Event) : Prop where
  /-- No two actions share a call. -/
  issued : ∀ x ∈ log, ∀ y ∈ log, ∀ p q, x.asAction? = some p → y.asAction? = some q →
    p.call = q.call → x = y
  /-- A result carries the call of the action that it names. -/
  carried : ∀ y ∈ log, ∀ a, y.answer? = some a → ∀ x ∈ log, ∀ p, x.asAction? = some p →
    a.action = x.id → a.call = p.call
  /-- If that action is not in the log, its call is not one of the log either. -/
  foreign : ∀ y ∈ log, ∀ a, y.answer? = some a →
    (∀ x ∈ log, ∀ p, x.asAction? = some p → a.action ≠ x.id) →
    ∀ x ∈ log, ∀ p, x.asAction? = some p → a.call ≠ p.call

namespace Paired

variable {log : List Event}

theorem of_positions (hdistinct : (ids log).Nodup)
    (hissued : ∀ x ∈ log, ∀ y ∈ log, ∀ p ∈ x.asAction?, ∀ q ∈ y.asAction?, p.call = q.call →
      x.id = y.id)
    (hcarried : ∀ y ∈ log, ∀ a ∈ y.answer?, ∀ x ∈ log, ∀ p ∈ x.asAction?,
      a.action = x.id ↔ a.call = p.call) : Paired log where
  issued x hx y hy p q hp hq hcall :=
    Batching.eq_of_id_eq hdistinct hx hy (hissued x hx y hy p hp q hq hcall)
  carried y hy a ha x hx p hp := (hcarried y hy a ha x hx p hp).mp
  foreign y hy a ha hforeign x hx p hp hcall :=
    hforeign x hx p hp ((hcarried y hy a ha x hx p hp).mpr hcall)

theorem isResultFor_iff_call (h : Paired log) {x y : Event} {p : Action} {a : Answer} (hx : x ∈ log)
    (hp : x.asAction? = some p) (hy : y ∈ log) (ha : y.answer? = some a) :
    isResultFor x y = true ↔ a.call = p.call := by
  rw [isResultFor_iff]
  constructor
  · rintro ⟨a', ha', hxa⟩
    cases ha.symm.trans ha'
    exact h.carried y hy a ha x hx p hp hxa
  · intro hcall
    by_contra hother
    -- the call would belong to the action that is named, or to none
    refine h.foreign y hy a ha (fun z hz q hq hza => hother ⟨a, ha, ?_⟩) x hx p hp hcall
    have hzcall := h.carried y hy a ha z hz q hq hza
    rwa [← h.issued z hz x hx q p hq hp (hzcall.symm.trans hcall)]

end Paired

namespace View

variable {log : List Event} {x y w : Event}

/-! ## The best result -/

/-- A result of an action that is not forgotten, a success or a failure. -/
def Remembered (log : List Event) (x : Event) (success : Bool) (y : Event) : Prop :=
  y.id ∉ forgottenIds log ∧ ∃ a, y.answer? = some a ∧ a.action = x.id ∧ a.success = success

/-- An event of a log has a property that no earlier one has. -/
def Earliest (log : List Event) (p : Event → Prop) (w : Event) : Prop :=
  w ∈ log ∧ p w ∧ ∀ y ∈ log, p y → y = w ∨ Before log w y

/-- The first success of an action, or the first failure if it never succeeded; what is forgotten
does not count. -/
def BestResult (log : List Event) (x w : Event) : Prop :=
  Earliest log (Remembered log x true) w ∨
    (∀ y ∈ log, ¬ Remembered log x true y) ∧ Earliest log (Remembered log x false) w

/-- An event is shown where the log has it: but for the summary, what the view shows before it comes
before it in the log, and what the view shows after it comes after it. -/
def InPlace (log : List Event) (w : Event) : Prop :=
  ∃ before after, (ofEvents log).events = before ++ w :: after ∧
    (∀ e ∈ before, Before log e w ∨ IsSummaryOf log e) ∧
    ∀ e ∈ after, Before log w e ∨ IsSummaryOf log e

theorem bestResult_of_mem_candidates (hdistinct : (ids log).Nodup) (hpaired : Paired log)
    {p : Action} (hx : x ∈ log) (hp : x.asAction? = some p) (hw : w ∈ candidates log)
    (hwx : isResultFor x w = true) : BestResult log x w := by
  obtain ⟨hwl, -, hkept, hbest⟩ := (mem_candidates hdistinct).mp hw
  obtain ⟨a, ha, hax⟩ := isResultFor_iff.mp hwx
  have hcall : ∀ y ∈ log, ∀ b, y.answer? = some b → b.action = x.id → b.call = a.call := by
    intro y hy b hb hbx
    rw [hpaired.carried y hy b hb x hx p hp hbx, hpaired.carried w hwl a ha x hx p hp hax]
  have hfirst : ∀ y ∈ log, Remembered log x a.success y → y = w ∨ Before log w y := by
    rintro y hy ⟨hyk, b, hb, hbx, hsame⟩
    by_contra hlater
    rw [not_or] at hlater
    have hbefore := (Before.total hy hwl hlater.1).resolve_right hlater.2
    exact hbest y hy hyk ⟨b, a, hb, ha, hcall y hy b hb hbx, Or.inr ⟨hsame, hbefore⟩⟩
  cases hs : a.success with
  | true =>
    rw [hs] at hfirst
    exact Or.inl ⟨hwl, ⟨hkept, a, ha, hax, hs⟩, hfirst⟩
  | false =>
    rw [hs] at hfirst
    refine Or.inr ⟨?_, hwl, ⟨hkept, a, ha, hax, hs⟩, hfirst⟩
    rintro y hy ⟨hyk, b, hb, hbx, hbs⟩
    exact hbest y hy hyk ⟨b, a, hb, ha, hcall y hy b hb hbx, Or.inl ⟨hbs, hs⟩⟩

/-! ## What the view shows -/

theorem mem_events_iff_of_action {p : Action} (hp : x.asAction? = some p) :
    x ∈ (ofEvents log).events ↔ x ∈ retained .standard log :=
  ⟨fun hx => mem_retained_of_batch? hx (Event.batch?_of_asAction? hp),
    fun hx => (retained_sublist_events log).subset hx⟩

theorem mem_events_iff_of_result (hdistinct : (ids log).Nodup) {p : Action} (hx : x ∈ log)
    (hp : x.asAction? = some p) (hyx : isResultFor x y = true) :
    y ∈ (ofEvents log).events ↔ y ∈ candidates log ∧ x ∈ (ofEvents log).events := by
  obtain ⟨a, ha, hax⟩ := isResultFor_iff.mp hyx
  rw [mem_events_iff_of_action hp, ← mem_retained_iff_of_answer? hdistinct ha hx hax.symm]
  exact ⟨fun hy => mem_retained_of_answer? hy ha, fun hy => (retained_sublist_events log).subset hy⟩

theorem before_of_before_events (h : Before (ofEvents log).events x y) :
    Before log x y ∨ IsSummaryOf log x ∨ IsSummaryOf log y := by
  have hsub := retained_sublist .standard log
  obtain ⟨before, after, hretained, hevents | ⟨s, hs, hevents⟩⟩ := events_split log <;>
    rw [hretained] at hsub <;> rw [hevents] at h
  · exact Or.inl (h.of_sublist hsub)
  · rcases Before.append_iff.mp h with h | ⟨hx, hy⟩ | h
    · exact Or.inl ((h.of_sublist (List.sublist_append_left _ _)).of_sublist hsub)
    · rcases List.mem_cons.mp hy with rfl | hy
      · exact Or.inr (Or.inr hs)
      · exact Or.inl ((Before.of_mem hx hy).of_sublist hsub)
    · cases h with
      | cons _ h => exact Or.inl ((h.trans (List.sublist_append_right _ _)).trans hsub)
      | cons_cons _ h => exact Or.inr (Or.inl hs)

theorem inPlace_of_answer? {a : Answer} (hw : w ∈ (ofEvents log).events)
    (ha : w.answer? = some a) : InPlace log w := by
  have hnot : ¬ IsSummaryOf log w := fun hs => by simp [hs.answer?_eq_none] at ha
  obtain ⟨before, after, hsplit⟩ := List.append_of_mem hw
  refine ⟨before, after, hsplit, fun e he => ?_, fun e he => ?_⟩
  · have hbefore : Before (ofEvents log).events e w := hsplit ▸ .of_mem he (by simp)
    exact (before_of_before_events hbefore).imp_right fun h => h.resolve_right hnot
  · have hbefore : Before (ofEvents log).events w e := hsplit ▸ .of_split he
    exact (before_of_before_events hbefore).imp_right fun h => h.resolve_left hnot

theorem filter_isResultFor_events :
    (ofEvents log).events.filter (isResultFor x) =
      (retained .standard log).filter (isResultFor x) := by
  obtain ⟨before, after, hretained, hevents | ⟨s, hs, hevents⟩⟩ := events_split log
  · rw [hevents, hretained]
  · have hneg : ¬ isResultFor x s = true := by simp [isResultFor, hs.answer?_eq_none]
    rw [hevents, hretained, List.filter_append, List.filter_append, List.filter_cons_of_neg hneg]

theorem filter_isResultFor_eq (hdistinct : (ids log).Nodup) (hpaired : Paired log) {p : Action}
    (hx : x ∈ log) (hp : x.asAction? = some p) (hshown : x ∈ (ofEvents log).events)
    (hw : w ∈ candidates log) (hwx : isResultFor x w = true) :
    (ofEvents log).events.filter (isResultFor x) = [w] := by
  have hnodup : ((retained .standard log).filter (isResultFor x)).Nodup :=
    (Batching.nodup_of_ids (distinct_retained hdistinct _)).filter _
  have hcandidate := candidates_sublist log
  rw [filter_isResultFor_events, ← List.perm_singleton,
    List.perm_ext_iff_of_nodup hnodup (List.nodup_singleton w)]
  intro y
  rw [← filter_isResultFor_events, List.mem_filter, List.mem_singleton]
  constructor
  · rintro ⟨hy, hyx⟩
    have hyc := ((mem_events_iff_of_result hdistinct hx hp hyx).mp hy).1
    obtain ⟨a, ha, -⟩ := isResultFor_iff.mp hyx
    obtain ⟨b, hb, -⟩ := isResultFor_iff.mp hwx
    refine eq_of_mem_dedupe (hdistinct.sublist (List.filter_sublist.map _)) hyc hw ha hb ?_
    rw [(hpaired.isResultFor_iff_call hx hp (hcandidate.subset hyc) ha).mp hyx,
      (hpaired.isResultFor_iff_call hx hp (hcandidate.subset hw) hb).mp hwx]
  · rintro rfl
    exact ⟨(mem_events_iff_of_result hdistinct hx hp hwx).mpr ⟨hw, hshown⟩, hwx⟩

/-- **An action is shown with the best of its results.** When an action is shown and some result of
it is not forgotten, exactly one result of it is shown, the best one, in its place in the log. When
an action is not shown, no result of it is. -/
theorem results_of_action (hdistinct : (ids log).Nodup) (hpaired : Paired log) {p : Action}
    (hx : x ∈ log) (hp : x.asAction? = some p) :
    (x ∈ (ofEvents log).events → (∃ y ∈ log, ∃ success, Remembered log x success y) →
      ∃ w, BestResult log x w ∧ InPlace log w ∧
        (ofEvents log).events.filter (isResultFor x) = [w]) ∧
    (x ∉ (ofEvents log).events → (ofEvents log).events.filter (isResultFor x) = []) := by
  constructor
  · rintro hshown ⟨y, hy, success, hkept, a, ha, hax, -⟩
    have hyx : isResultFor x y = true := isResultFor_iff.mpr ⟨a, ha, hax⟩
    obtain ⟨w, hw, b, hb, hcall⟩ := exists_mem_candidates hdistinct hy hkept ha
    have hwl := (candidates_sublist log).subset hw
    have hwx : isResultFor x w = true := by
      rw [hpaired.isResultFor_iff_call hx hp hwl hb, hcall]
      exact (hpaired.isResultFor_iff_call hx hp hy ha).mp hyx
    have hwshown := (mem_events_iff_of_result hdistinct hx hp hwx).mpr ⟨hw, hshown⟩
    exact ⟨w, bestResult_of_mem_candidates hdistinct hpaired hx hp hw hwx,
      inPlace_of_answer? hwshown hb, filter_isResultFor_eq hdistinct hpaired hx hp hshown hw hwx⟩
  · intro hhidden
    rw [List.filter_eq_nil_iff]
    exact fun y hy hyx => hhidden ((mem_events_iff_of_result hdistinct hx hp hyx).mp hy).2

/-- A log with a call that fails, succeeds twice and fails again, the first success forgotten, with
a batch forgotten in part, and with a result of an action that is not there. -/
def retriedOften : List Event :=
  [said "u", reasoned "a1" "b1" "c1", failed "f1" "c1" "a1", called "a2" "b2" "c2",
    succeeded "r2" "c2" "a2", succeeded "r1" "c1" "a1", succeeded "s1" "c1" "a1",
    called "a3" "b3" "c3", called "a4" "b3" "c4", failed "f3" "c3" "a3",
    condensed "k" ["r1", "a4"] 2, failed "g1" "c1" "a1", succeeded "stray" "c9" "gone"]

/-- The second success is shown of the first action, and nothing of the third, which goes with the
rest of its batch. -/
theorem results_of_action_retriedOften :
    (ids retriedOften).Nodup ∧ Paired retriedOften ∧
      reasoned "a1" "b1" "c1" ∈ (ofEvents retriedOften).events ∧
      (∃ w, BestResult retriedOften (reasoned "a1" "b1" "c1") w ∧ InPlace retriedOften w ∧
        (ofEvents retriedOften).events.filter (isResultFor (reasoned "a1" "b1" "c1")) = [w]) ∧
      called "a3" "b3" "c3" ∉ (ofEvents retriedOften).events ∧
      (ofEvents retriedOften).events.filter (isResultFor (called "a3" "b3" "c3")) = [] := by
  have hdistinct : (ids retriedOften).Nodup := by decide
  have hpaired : Paired retriedOften :=
    .of_positions hdistinct (by decide +kernel) (by decide +kernel)
  have hfirst : reasoned "a1" "b1" "c1" ∈ retriedOften := by simp [retriedOften]
  have hthird : called "a3" "b3" "c3" ∈ retriedOften := by simp [retriedOften]
  have hshown : reasoned "a1" "b1" "c1" ∈ (ofEvents retriedOften).events := by
    rw [mem_events_iff_of_action rfl, ← Batching.id_mem_ids_iff hdistinct retained_subset hfirst]
    decide +kernel
  have hhidden : called "a3" "b3" "c3" ∉ (ofEvents retriedOften).events := by
    rw [mem_events_iff_of_action rfl, ← Batching.id_mem_ids_iff hdistinct retained_subset hthird]
    decide +kernel
  have hremembered : Remembered retriedOften (reasoned "a1" "b1" "c1") true
      (succeeded "s1" "c1" "a1") := ⟨by decide +kernel, _, rfl, rfl, rfl⟩
  exact ⟨hdistinct, hpaired, hshown,
    (results_of_action hdistinct hpaired hfirst rfl).1 hshown
      ⟨_, by simp [retriedOften], _, hremembered⟩,
    hhidden, (results_of_action hdistinct hpaired hthird rfl).2 hhidden⟩

end View
end AgentMemory
