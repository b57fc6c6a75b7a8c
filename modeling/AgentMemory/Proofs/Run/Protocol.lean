import AgentMemory.Proofs.Compliance.Part
import AgentMemory.Proofs.Run.Basic
import AgentMemory.Proofs.Wire.Answers

/-!
# Condensing keeps to the protocol

When every event that is appended keeps to the protocol of calls and results, the view keeps to it
as well, however often the log is condensed in between (`Run.clean_events`). What a view shows of
such a log keeps batches whole, and calls with their results: a call that is answered in the log is
shown with its answer.
-/

namespace AgentMemory

open Batching (ids)
open Compliance (Clean Keeps Monitor Order)
open View (retained candidates forgottenIds)
open Sample (said called succeeded failed stamp)

/-- An event keeps to the protocol after a log: a monitor that has seen the log reports no
violation, and a result names the action that issued its call. -/
def Compliant (order : Order) (log : List Event) (e : Event) : Prop :=
  ((Monitor.after order log).step e).violations = [] ∧
    ∀ a, e.answer? = some a → ∃ x ∈ log, x.id = a.action ∧
      ∃ p, x.asAction? = some p ∧ p.call = a.call

instance (order : Order) (log : List Event) (e : Event) : Decidable (Compliant order log e) :=
  decidable_of_iff (((Monitor.after order log).step e).violations = [] ∧
      ∀ a ∈ e.answer?, ∃ x ∈ log, x.id = a.action ∧
        x.asAction?.any fun p => p.call = a.call) <| by
    simp only [Compliant, Option.mem_def, Option.any_eq_true, decide_eq_true_eq]

namespace Run

variable {order : Order} {log : List Event}

theorem clean (h : Run (Compliant order) log) : Clean order log := by
  induction h with
  | nil => rfl
  | append h hplain hadmits ih => exact Compliance.clean_snoc_iff.mpr ⟨ih, hadmits.1⟩
  | condense h hmodel hcondense ih => exact Compliance.clean_snoc_iff.mpr ⟨ih, rfl⟩

theorem matched (h : Run (Compliant order) log) : Matched log := by
  induction h with
  | nil =>
    intro y hy
    simp at hy
  | append h hplain hadmits ih => exact ih.snoc hadmits.2
  | condense h hmodel hcondense ih => exact ih.snoc fun a ha => by cases ha

section

variable (hpolicy : order.NeverFails) (hlog : Identified log)
include hpolicy hlog

theorem mem_retained_of_action (h : Run (Compliant order) log) {x y : Event} {a : Answer}
    (hx : x ∈ retained .standard log) (hy : y ∈ log) (ha : y.answer? = some a)
    (hid : x.id = a.action) : y ∈ retained .standard log := by
  have hkept := View.not_mem_forgottenIds hlog.distinct hx
  refine View.mem_retained_of_unbatched hlog.distinct ?_ (Event.batch?_of_answer? ha) ?_
  · refine (View.mem_candidates hlog.distinct).mpr
      ⟨hy, Event.isShowable_of_answer? ha, fun hyf => hkept ?_, fun w hw _ hrank => ?_⟩
    · rw [hid]
      exact h.action_mem_forgottenIds hlog h.matched hy ha hyf
    · -- the only result of its call is not outranked
      obtain ⟨b, c, hb, hc, hcall, -⟩ := id hrank
      have hwy := Compliance.eq_of_answered_once (h.clean.knows hpolicy).single hw hy hb hc hcall
      exact Outranks.irrefl (Batching.nodup_of_ids hlog.distinct) (hwy ▸ hrank)
  · intro b hb _
    cases ha.symm.trans hb
    exact hid ▸ Batching.id_mem_ids hx

theorem keeps_retained (h : Run (Compliant order) log) :
    Keeps (fun e => e.id ∈ ids (retained .standard log)) log := by
  have hmem : ∀ {x}, x ∈ log →
      (decide (x.id ∈ ids (retained .standard log)) = true ↔ x ∈ retained .standard log) :=
    fun hx => (decide_eq_true_iff).trans
      (Batching.id_mem_ids_iff hlog.distinct View.retained_subset hx)
  refine ⟨fun x hx y hy b hxb hyb hqx => ?_, fun x hx y hy p a hp ha hcall => ?_⟩
  · exact (hmem hy).mpr (View.mem_retained_of_mem_batch hlog.distinct ((hmem hx).mp hqx) hxb hy hyb)
  · rw [hmem hx, hmem hy]
    obtain ⟨z, q, hq, hza, hqa, hbefore⟩ := h.matched y hy a ha
    obtain rfl := Compliance.eq_of_issued_once (h.clean.knows hpolicy).once hx hbefore.mem_left
      hp hq (hcall.trans hqa.symm)
    refine ⟨fun hxr => h.mem_retained_of_action hpolicy hlog hxr hy ha hza, fun hyr => ?_⟩
    obtain ⟨z, hz, hza', -⟩ := View.exists_action hlog h.matched.answered hyr ha
    rwa [Batching.eq_of_id_eq hlog.distinct hx (View.retained_subset hz)
      (hza.trans hza'.symm)]

theorem clean_retained (h : Run (Compliant order) log) :
    Clean order (retained .standard log) := by
  have hretained : retained .standard log =
      log.filter fun e => e.id ∈ ids (retained .standard log) := by
    refine eq_of_sublist_of_mem_iff (Batching.nodup_of_ids hlog.distinct)
      (View.retained_sublist _ _) List.filter_sublist fun x => ?_
    rw [List.mem_filter, decide_eq_true_iff]
    refine ⟨fun hx => ⟨View.retained_subset hx, Batching.id_mem_ids hx⟩, ?_⟩
    rintro ⟨hx, hid⟩
    exact (Batching.id_mem_ids_iff hlog.distinct View.retained_subset hx).mp hid
  rw [hretained]
  exact h.clean.filter hpolicy (h.keeps_retained hpolicy hlog)

end

theorem preceded_events (h : Run (Compliant order) log) (hlog : Identified log) :
    Wire.Preceded (View.ofEvents log).events := by
  intro before y after hsplit a ha
  have hy : y ∈ (View.ofEvents log).events := by simp [hsplit]
  have hyr := View.mem_retained_of_answer? hy ha
  obtain ⟨x, hx, hxa, hbefore⟩ := View.exists_action hlog h.matched.answered hyr ha
  obtain ⟨p, hp, hcall⟩ := h.matched.asAction? hlog.distinct (View.retained_subset hx)
    (View.retained_subset hyr) ha hxa
  have hnodup := Batching.nodup_of_ids (View.distinct_events hlog)
  rw [hsplit] at hnodup hbefore
  exact ⟨x, hbefore.mem_of_split hnodup, p, hp, hcall⟩

/-- **Condensing keeps to the protocol.** A monitor with the same order of results reports no
violation in the view, and every tool message of the view answers a call of an earlier assistant
message. -/
theorem clean_events (h : Run (Compliant order) log) (hpolicy : order.NeverFails)
    (hlog : Identified log) :
    ((Monitor.ofOrder order).replay (View.ofEvents log).events).2.1 = [] ∧
      ∀ earlier m later, (View.ofEvents log).wire = earlier ++ m :: later → m.role = .tool →
        ∃ call, m.answers = some call ∧
          ∃ m' ∈ earlier, m'.role = .assistant ∧ call ∈ m'.toolCalls.map (·.id) := by
  constructor
  · have hclean := h.clean_retained hpolicy hlog
    obtain ⟨before, after, hretained, hevents | ⟨s, hs, hevents⟩⟩ := View.events_split log
    · rw [hevents, ← hretained]
      exact hclean
    · obtain ⟨x, c, text, -, -, rfl⟩ := hs
      rw [hevents, ← Clean, Compliance.clean_append_cons_iff fun _ => rfl, ← hretained]
      exact hclean
  · intro earlier m later hsplit hm
    exact Wire.exists_call_of_tool (h.preceded_events hlog) hsplit hm

end Run

namespace Sample

/-- A log in which the calls of a batch are answered in order, and a last call waits. -/
def waiting : List Event :=
  [said "u", called "a1" "b1" "c1", called "a2" "b1" "c2", succeeded "r1" "c1" "a1",
    failed "r2" "c2" "a2", called "a3" "b2" "c3", succeeded "r3" "c3" "a3", said "v",
    called "a4" "b3" "c4"]

def interim : Condensation where
  forgotten := [⟨"a1"⟩, ⟨"a2"⟩, ⟨"r1"⟩, ⟨"r2"⟩, ⟨"a3"⟩, ⟨"r3"⟩]
  summary := some "later"
  offset := some 1
  turn := some ⟨"b3"⟩

def answeredLate : List Event :=
  waiting ++ [.condensation (stamp "k1") interim] ++ [succeeded "r4" "c4" "a4"]

end Sample

open Sample (waiting interim answeredLate)

theorem Run.clean_events_answeredLate :
    Run (Compliant .issue) answeredLate ∧
      Order.issue.NeverFails ∧ Identified answeredLate ∧
      ((Monitor.ofOrder .issue).replay (View.ofEvents answeredLate).events).2.1 = [] ∧
      ∀ earlier m later, (View.ofEvents answeredLate).wire = earlier ++ m :: later →
        m.role = .tool → ∃ call, m.answers = some call ∧
          ∃ m' ∈ earlier, m'.role = .assistant ∧ call ∈ m'.toolCalls.map (·.id) := by
  have hwaiting : Run (Compliant .issue) waiting := .of_take (by decide) (by decide +kernel)
  have hcondense : ({ maxSize := 8, keepFirst := 1 } : Condenser).condense (fun _ => .ok "later")
      (.ofEvents waiting) = .ok interim := by with_unfolding_all rfl
  have hcondensed : Run (Compliant .issue) (waiting ++ [.condensation (stamp "k1") interim]) :=
    hwaiting.condense (by rfl) hcondense
  have hrun : Run (Compliant .issue) answeredLate := hcondensed.append rfl (by decide +kernel)
  have hpolicy : Order.issue.NeverFails := fun _ _ _ => Option.some_ne_none _
  have hlog : Identified answeredLate := by decide +kernel
  exact ⟨hrun, hpolicy, hlog, Run.clean_events hrun hpolicy hlog⟩

example : ids (View.ofEvents answeredLate).events =
    [⟨"u"⟩, ⟨"k1-summary"⟩, ⟨"v"⟩, ⟨"a4"⟩, ⟨"r4"⟩] := by
  decide +kernel

end AgentMemory
