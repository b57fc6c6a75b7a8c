import AgentMemory.Proofs.Compliance.Trace

/-!
# Orders that fail

When the order of results fails at a result, nothing is reported of it, but the call that it answers
is **lost** (`Lost`): it has left the pending calls and does not come to the completed ones, and
until an action issues it again the monitor takes results for it as results of a call that was never
issued. No other call is lost, whatever the order does (`Monitor.after_accounts`).
-/

namespace AgentMemory.Compliance

open Sample (called succeeded)

variable {order : Order} {trace : List Event} {e : Event} {m : Monitor} {c call : ToolCallId}

/-! ## One event -/

/-- What an event makes of the pending and of the completed calls, and whether the order fails at
it. -/
inductive Moves (m : Monitor) (e : Event) : List ToolCallId → List ToolCallId → Bool → Prop where
  | other : issue? e = none → e.answer? = none → Moves m e m.pending m.completed false
  | reissue {call : ToolCallId} : Issues e call → call ∈ m.pending →
      Moves m e m.pending m.completed false
  | issue {call : ToolCallId} : Issues e call → call ∉ m.pending →
      Moves m e (call.insert m.pending) (m.completed.erase call) false
  | resolve {call : ToolCallId} : Answers e call → call ∈ m.pending →
      Moves m e (m.pending.erase call) (call.insert m.completed) false
  | fail {call : ToolCallId} : Answers e call → call ∈ m.pending →
      Moves m e (m.pending.erase call) m.completed true
  | stray {call : ToolCallId} : Answers e call → call ∉ m.pending →
      Moves m e m.pending m.completed false

section

variable {b : BatchId} {id : EventId} {v : Verdict}

theorem moves_issue (he : Issues e call) (hv : v = m.issue id b call) :
    Moves m e v.monitor.pending v.monitor.completed v.failed := by
  rw [hv, Monitor.issue]
  by_cases hpending : call ∈ m.pending
  · simp only [if_pos hpending]
    exact .reissue he hpending
  · simp only [if_neg hpending]
    exact .issue he hpending

theorem moves_answer (he : Answers e call) (hv : v = m.answer id call) :
    Moves m e v.monitor.pending v.monitor.completed v.failed := by
  rw [hv, Monitor.answer]
  by_cases hpending : call ∈ m.pending
  · simp only [if_pos hpending, Monitor.resolve]
    split
    · exact .resolve he hpending
    · split
      · exact .fail he hpending
      · exact .resolve he hpending
      · exact .resolve he hpending
  · simp only [if_neg hpending]
    exact .stray he hpending

theorem moves_step : Moves m e (m.step e).monitor.pending (m.step e).monitor.completed
    (m.step e).failed := by
  cases hbody : e.body
  case action p =>
    have he : Issues e p.call := by simp [Issues, issue?, Event.asAction?, hbody]
    exact moves_issue he (by rw [Monitor.step, hbody])
  case observation r =>
    have he : Answers e r.call := by simp [Answers, Event.answer?, hbody]
    exact moves_answer he (by rw [Monitor.step, hbody])
  case agentError r =>
    have he : Answers e r.call := by simp [Answers, Event.answer?, hbody]
    exact moves_answer he (by rw [Monitor.step, hbody])
  all_goals
    rw [Monitor.step, hbody]
    exact .other (by simp [issue?, Event.asAction?, hbody]) (by simp [Event.answer?, hbody])

end

theorem Issues.call_eq (h : Issues e call) : Issues e c ↔ c = call := by
  rw [Issues, h, Option.some.injEq, eq_comm]

namespace Moves

variable {pending completed : List ToolCallId} {failed : Bool}

theorem mem_pending (h : Moves m e pending completed failed) (hm : m.pending.Nodup) :
    c ∈ pending ↔ Issues e c ∨ c ∈ m.pending ∧ ¬ Answers e c := by
  cases h with
  | other hissue hanswer =>
    have hissues : ¬ Issues e c := fun hc => hc.ne_none hissue
    have hanswers : ¬ Answers e c := fun hc => hc.ne_none hanswer
    tauto
  | reissue he hcall =>
    simp only [he.call_eq, he.not_answers, not_false_iff, and_true]
    exact (or_iff_right_of_imp fun hc => hc ▸ hcall).symm
  | issue he hcall =>
    simp only [mem_insert, he.call_eq, he.not_answers, not_false_iff, and_true]
  | resolve he hcall =>
    simp only [hm.mem_erase_iff, not_issues he, answers_iff he, false_or, and_comm]
  | fail he hcall =>
    simp only [hm.mem_erase_iff, not_issues he, answers_iff he, false_or, and_comm]
  | stray he hcall =>
    simp only [not_issues he, answers_iff he, false_or]
    refine (and_iff_left_of_imp fun hc => ?_).symm
    rintro rfl
    exact hcall hc

theorem mem_completed (h : Moves m e pending completed failed) (hm : m.completed.Nodup)
    (hdisjoint : ∀ c ∈ m.pending, c ∉ m.completed) :
    c ∈ completed ↔ ¬ Issues e c ∧ c ∈ m.completed ∨
      Answers e c ∧ c ∈ m.pending ∧ failed = false := by
  cases h with
  | other hissue hanswer =>
    have hissues : ¬ Issues e c := fun hc => hc.ne_none hissue
    have hanswers : ¬ Answers e c := fun hc => hc.ne_none hanswer
    tauto
  | reissue he hcall =>
    simp only [he.call_eq, he.not_answers, false_and, or_false]
    refine (and_iff_right_of_imp fun hc => ?_).symm
    rintro rfl
    exact hdisjoint c hcall hc
  | issue he hcall =>
    simp only [hm.mem_erase_iff, he.call_eq, he.not_answers, false_and, or_false, ne_eq]
  | resolve he hcall =>
    simp only [mem_insert, not_issues he, answers_iff he, not_false_iff, true_and, and_true]
    rw [or_comm, and_iff_left_of_imp]
    rintro rfl
    exact hcall
  | fail he hcall => simp [not_issues he]
  | stray he hcall =>
    simp only [not_issues he, answers_iff he, not_false_iff, true_and, and_true]
    exact (or_iff_left_of_imp fun hc => absurd (hc.1 ▸ hc.2) hcall).symm

theorem ascending (h : Moves m e pending completed failed) (hp : Ascending m.pending)
    (hc : Ascending m.completed) : Ascending pending ∧ Ascending completed := by
  cases h with
  | issue => exact ⟨hp.insert, hc.erase⟩
  | resolve => exact ⟨hp.erase, hc.insert⟩
  | fail => exact ⟨hp.erase, hc⟩
  | _ => exact ⟨hp, hc⟩

theorem exists_of_failed (h : Moves m e pending completed true) :
    ∃ call, Answers e call ∧ call ∈ m.pending := by
  cases h with
  | fail he hcall => exact ⟨_, he, hcall⟩

end Moves

/-! ## Lost calls -/

/-- The order failed at a result for a call, and no action has issued the call since. -/
def Lost (order : Order) (trace : List Event) (call : ToolCallId) : Prop :=
  ∃ before e after, trace = before ++ e :: after ∧ Answers e call ∧
    ((Monitor.after order before).step e).failed = true ∧ call ∉ issuedCalls after

theorem lost_snoc : Lost order (trace ++ [e]) call ↔
    Lost order trace call ∧ ¬ Issues e call ∨
      Answers e call ∧ ((Monitor.after order trace).step e).failed = true := by
  constructor
  · rintro ⟨before, x, after, hsplit, hanswers, hfailed, hlast⟩
    rcases snoc_eq_split hsplit with ⟨rfl, rfl, rfl⟩ | ⟨rest, rfl, rfl⟩
    · exact Or.inr ⟨hanswers, hfailed⟩
    · rw [mem_issuedCalls_snoc, not_or] at hlast
      exact Or.inl ⟨⟨before, x, rest, rfl, hanswers, hfailed, hlast.1⟩, hlast.2⟩
  · rintro (⟨⟨before, x, after, rfl, hanswers, hfailed, hlast⟩, he⟩ | ⟨hanswers, hfailed⟩)
    · refine ⟨before, x, after ++ [e], by simp, hanswers, hfailed, ?_⟩
      rw [mem_issuedCalls_snoc, not_or]
      exact ⟨hlast, he⟩
    · exact ⟨trace, e, [], rfl, hanswers, hfailed, List.not_mem_nil⟩

/-- What a monitor knows of calls: the open ones, and those done that are not lost. -/
structure Tracks (order : Order) (trace : List Event) (m : Monitor) : Prop where
  pending_ascending : Ascending m.pending
  completed_ascending : Ascending m.completed
  pending : ∀ c, c ∈ m.pending ↔ Open trace c
  completed : ∀ c, c ∈ m.completed ↔ Done trace c ∧ ¬ Lost order trace c
  lost : ∀ c, Lost order trace c → Done trace c

namespace Tracks

theorem disjoint (h : Tracks order trace m) : ∀ c ∈ m.pending, c ∉ m.completed := by
  intro c hpending hcompleted
  have hdone := ((h.completed c).mp hcompleted).1
  exact (done_iff.mp hdone).2 ((h.pending c).mp hpending)

theorem open_of_failed (h : Tracks order trace m) (hfailed : (m.step e).failed = true)
    (he : Answers e c) : Open trace c := by
  have hmoves : Moves m e _ _ _ := moves_step
  rw [hfailed] at hmoves
  obtain ⟨call, hcall, hpending⟩ := hmoves.exists_of_failed
  exact (h.pending c).mp ((answers_iff hcall).mp he ▸ hpending)

/-- A call done that is not lost is completed, and stays it until it is issued again. -/
theorem completed_snoc_iff (h : Tracks order trace (Monitor.after order trace)) :
    Done (trace ++ [e]) c ∧ ¬ Lost order (trace ++ [e]) c ↔
      ¬ Issues e c ∧ Done trace c ∧ ¬ Lost order trace c ∨
        Answers e c ∧ Open trace c ∧ ((Monitor.after order trace).step e).failed = false := by
  rw [done_snoc, lost_snoc, ← Bool.not_eq_true]
  by_cases he : Answers e c
  · have hissues : ¬ Issues e c := not_issues he
    by_cases hopen : Open trace c
    · have hdone : ¬ Done trace c := fun hdone => (done_iff.mp hdone).2 hopen
      have hlost : ¬ Lost order trace c := fun hlost => hdone (h.lost c hlost)
      simp [he, hissues, hopen, hdone, hlost, hopen.mem_issuedCalls]
    · have hfailed : ¬ ((Monitor.after order trace).step e).failed = true :=
        fun hfailed => hopen (h.open_of_failed hfailed he)
      simp [he, hissues, hopen, hfailed, done_iff]
  · by_cases hissues : Issues e c <;> simp [he, hissues]

theorem snoc (h : Tracks order trace (Monitor.after order trace)) :
    Tracks order (trace ++ [e]) (Monitor.after order (trace ++ [e])) := by
  have hmoves : Moves (Monitor.after order trace) e _ _ _ := moves_step
  have hascending := hmoves.ascending h.pending_ascending h.completed_ascending
  rw [Monitor.after_snoc]
  refine ⟨hascending.1, hascending.2, fun c => ?_, fun c => ?_, fun c hlost => ?_⟩
  · rw [hmoves.mem_pending h.pending_ascending.nodup, h.pending, open_snoc]
  · rw [hmoves.mem_completed h.completed_ascending.nodup h.disjoint, h.pending, h.completed,
      h.completed_snoc_iff]
  · rcases lost_snoc.mp hlost with ⟨hlost, hissues⟩ | ⟨he, hfailed⟩
    · exact done_snoc.mpr ⟨hissues, Or.inl (h.lost c hlost)⟩
    · exact done_snoc.mpr ⟨not_issues he,
        Or.inr ⟨he, (h.open_of_failed hfailed he).mem_issuedCalls⟩⟩

end Tracks

theorem tracks_after (order : Order) (trace : List Event) :
    Tracks order trace (Monitor.after order trace) := by
  induction trace using List.reverseRecOn with
  | nil =>
    refine ⟨List.Pairwise.nil, List.Pairwise.nil, fun c => ?_, fun c => ?_, ?_⟩
    · simp [Monitor.after, Monitor.replay, Monitor.ofOrder, Open]
    · simp [Monitor.after, Monitor.replay, Monitor.ofOrder, Done]
    · simp [Lost]
  | append_singleton trace e ih => exact ih.snoc

/-! ## What is reported -/

/-- The order fails at a result of a pending call, told the calls of its batch. -/
def Fails (m : Monitor) (call : ToolCallId) : Prop :=
  call ∈ m.pending ∧ ∃ b, m.batchOf? call = some b ∧
    m.order.accepts (Monitor.callsOf b m.issues) (Monitor.callsOf b m.results) call = none

section

variable {id : EventId}

theorem answer_of_fails (h : Fails m call) : m.answer id call =
    { monitor := { m with pending := m.pending.erase call }, failed := true } := by
  obtain ⟨hpending, b, hbatch, haccepts⟩ := h
  simp [Monitor.answer, Monitor.resolve, hpending, hbatch, haccepts]

theorem failed_answer_iff : (m.answer id call).failed = true ↔ Fails m call := by
  refine ⟨fun h => ?_, fun h => by rw [answer_of_fails h]⟩
  unfold Monitor.answer Monitor.resolve at h
  by_cases hpending : call ∈ m.pending
  · refine ⟨hpending, ?_⟩
    cases hbatch : m.batchOf? call with
    | none => simp [hpending, hbatch] at h
    | some b =>
      refine ⟨b, rfl, ?_⟩
      by_contra haccepts
      obtain ⟨accepted, haccepts⟩ := Option.ne_none_iff_exists'.mp haccepts
      cases accepted <;> simp [hpending, hbatch, haccepts] at h
  · simp [hpending] at h

theorem order_answer : (m.answer id call).monitor.order = m.order := by
  unfold Monitor.answer Monitor.resolve
  split
  · dsimp only
    split
    · rfl
    · split <;> rfl
  · rfl

theorem unmatched_answer_iff : (∃ v ∈ (m.answer id call).violations, v.kind = .unmatchedResult) ↔
    call ∉ m.pending ∧ call ∉ m.completed := by
  unfold Monitor.answer Monitor.resolve
  by_cases hpending : call ∈ m.pending
  · simp only [hpending, if_true, not_true, false_and, iff_false]
    split
    · simp
    · split <;> simp [Violation.outOfOrder]
  · by_cases hcompleted : call ∈ m.completed <;>
      simp [hpending, hcompleted, Violation.repeated, Violation.unmatched]

end

theorem Answers.step (he : Answers e call) : m.step e = m.answer e.id call := by
  cases hbody : e.body <;> simp_all [Answers, Event.answer?, Monitor.step]

theorem failed_step_iff : (m.step e).failed = true ↔ ∃ call, Answers e call ∧ Fails m call := by
  constructor
  · intro h
    have hmoves : Moves m e _ _ _ := moves_step
    rw [h] at hmoves
    obtain ⟨call, he, -⟩ := hmoves.exists_of_failed
    rw [he.step, failed_answer_iff] at h
    exact ⟨call, he, h⟩
  · rintro ⟨call, he, h⟩
    rw [he.step, failed_answer_iff]
    exact h

theorem order_step : (m.step e).monitor.order = m.order := by
  cases he : e.answer? with
  | some a =>
    have hanswers : Answers e a.call := by rw [Answers, he, Option.map_some]
    rw [hanswers.step, order_answer]
  | none =>
    cases hbody : e.body with
    | action p =>
      rw [Monitor.step, hbody]
      dsimp only [Monitor.issue]
      split <;> rfl
    | observation r => simp [Event.answer?, hbody] at he
    | agentError r => simp [Event.answer?, hbody] at he
    | _ => simp [Monitor.step, hbody, Monitor.interrupt]

theorem order_after (order : Order) (trace : List Event) :
    (Monitor.after order trace).order = order := by
  induction trace using List.reverseRecOn with
  | nil => rfl
  | append_singleton trace e ih => rw [Monitor.after_snoc, order_step, ih]

/-! ## Every trace -/

/-- What a monitor knows of calls after a trace, and what it does when the order fails. -/
structure Monitor.Accounts (order : Order) (trace : List Event) (m : Monitor) : Prop where
  pending : ∀ call, call ∈ m.pending ↔ Open trace call
  completed : ∀ call, call ∈ m.completed ↔ Done trace call ∧ ¬ Lost order trace call
  /-- A call that was issued is either pending or completed, unless it is lost. -/
  issued : ∀ call ∈ issuedCalls trace, ¬ Lost order trace call →
    (call ∈ m.pending ↔ call ∉ m.completed)
  lost : ∀ call, Lost order trace call →
    call ∈ issuedCalls trace ∧ call ∉ m.pending ∧ call ∉ m.completed
  failed : ∀ e, (m.step e).failed = true ↔ ∃ call, Answers e call ∧ Open trace call ∧
    ∃ b, m.batchOf? call = some b ∧
      order.accepts (callsOf b m.issues) (callsOf b m.results) call = none
  /-- A failure is no violation. -/
  silent : ∀ e, (m.step e).failed = true → (m.step e).violations = []
  /-- Of the results for calls that were issued, those for lost calls are unmatched. -/
  unmatched : ∀ e call, Answers e call → call ∈ issuedCalls trace →
    ((∃ v ∈ (m.step e).violations, v.kind = .unmatchedResult) ↔ Lost order trace call)

/-- **Whatever the order does, a call that was issued is either pending or completed, unless the
order failed at a result for it and it was not issued again.** -/
theorem Monitor.after_accounts (order : Order) (trace : List Event) :
    (Monitor.after order trace).Accounts order trace := by
  have htracks := tracks_after order trace
  have hlost : ∀ call, Lost order trace call → call ∈ issuedCalls trace ∧
      call ∉ (Monitor.after order trace).pending ∧
        call ∉ (Monitor.after order trace).completed := by
    intro call h
    obtain ⟨hissued, hopen⟩ := done_iff.mp (htracks.lost call h)
    rw [htracks.pending, htracks.completed]
    exact ⟨hissued, hopen, fun hdone => hdone.2 h⟩
  have hissued : ∀ call ∈ issuedCalls trace, ¬ Lost order trace call →
      (call ∈ (Monitor.after order trace).pending ↔
        call ∉ (Monitor.after order trace).completed) := by
    intro call hissued h
    rw [htracks.pending, htracks.completed, done_iff, and_iff_right hissued, and_iff_left h,
      not_not]
  refine
    { pending := htracks.pending
      completed := htracks.completed
      issued := hissued
      lost := hlost
      failed := fun e => ?_
      silent := fun e h => ?_
      unmatched := fun e call he hcall => ?_ }
  · simp only [failed_step_iff, Fails, order_after, htracks.pending]
  · obtain ⟨call, he, hfails⟩ := failed_step_iff.mp h
    rw [he.step, answer_of_fails hfails]
  · rw [he.step, unmatched_answer_iff]
    refine ⟨fun h => ?_, fun h => (hlost call h).2⟩
    by_contra hnot
    exact h.1 ((hissued call hcall hnot).mpr h.2)

/-- An order that always fails. -/
def failing : Order := ⟨"failing", fun _ _ _ => none⟩

/-- A call was issued and has its result, but is neither pending nor completed, and a second result
is reported as that of a call never issued. -/
theorem Monitor.call_lost_by_failure :
    ⟨"c"⟩ ∈ issuedCalls [called "a" "b" "c", succeeded "r" "c" "a"] ∧
      ⟨"c"⟩ ∉ (Monitor.after failing [called "a" "b" "c", succeeded "r" "c" "a"]).pending ∧
      ⟨"c"⟩ ∉ (Monitor.after failing [called "a" "b" "c", succeeded "r" "c" "a"]).completed ∧
      ((Monitor.after failing [called "a" "b" "c", succeeded "r" "c" "a"]).step
        (succeeded "r2" "c" "a")).violations = [.unmatched ⟨"r2"⟩ ⟨"c"⟩] := by
  decide +kernel

end AgentMemory.Compliance
