import AgentMemory.Conversation.Update
import AgentMemory.Proofs.Condenser.Bounds
import AgentMemory.Proofs.EventLog

/-!
# Condensing again and again

A condensation that selects anything but summaries takes an event out of those that are remembered,
and nothing that is forgotten is remembered again, so in any sequence of calls there are no more
such condensations than events to forget (`Conversation.condensing_advances`). A selection holds
nothing but a summary only when that is the one event between those kept at the front and those
there is room for behind it.
-/

namespace AgentMemory

open Batching (ids)
open View (IsSummaryOf forgottenIds retained)
open Sample (said called failed condensed noted tight)

/-- Whether anything else than summaries is to be forgotten. -/
def ForgottenRange.gains (r : ForgottenRange) : Bool := r.events.any fun e => !e.isSummary

theorem ForgottenRange.gains_iff {r : ForgottenRange} :
    r.gains = true ↔ ∃ x ∈ r.events, x.isSummary = false := by
  simp [gains]

/-- The events of a log that a condensation may still forget. -/
def remembered (log : List Event) : List Event :=
  log.filter fun e => e.isShowable && !e.isSummary && e.id ∉ forgottenIds log

namespace Condenser

variable {c : Condenser} {summarize : Summarizer} {log : List Event} {r : ForgottenRange}
  {d : Condensation}

/-! ## What is gained -/

theorem exists_newly_forgotten (hselect : c.select (.ofEvents log) = .ok r)
    (hgains : r.gains = true) (text : String) :
    ∃ x ∈ retained .standard log, x.isSummary = false ∧
      x.id ∈ (condensation (.ofEvents log) r text).forgotten ∧ x.id ∉ forgottenIds log := by
  obtain ⟨x, hx, hs⟩ := ForgottenRange.gains_iff.mp hgains
  have hr : x ∈ retained .standard log :=
    (filter_select_sublist hselect).subset (List.mem_filter.mpr ⟨hx, by simp [hs]⟩)
  refine ⟨x, hr, hs, mem_forgotten_condensation.mpr (Or.inr ⟨x, hx, hs, rfl⟩), ?_⟩
  exact View.not_mem_forgottenIds_of_mem_candidates
    ((View.retained_sublist_candidates _ _).subset hr)

theorem remembered_snoc {e : Event} (he : e.asCondensation? = some d)
    (hsub : forgottenIds log ⊆ d.forgotten) :
    remembered (log ++ [e]) = (remembered log).filter (·.id ∉ d.forgotten) := by
  have hshow : e.isShowable = false := by
    rw [← Bool.not_eq_true, Event.isShowable_iff, he]
    simp
  rw [remembered, View.forgottenIds_snoc_condensation he, List.filter_append,
    List.filter_cons_of_neg (by simp [hshow]), List.filter_nil, List.append_nil, remembered,
    List.filter_filter]
  refine List.filter_congr fun x _ => ?_
  by_cases hx : x.id ∈ d.forgotten
  · simp [hx]
  · have hnew : x.id ∉ forgottenIds log := fun hid => hx (hsub hid)
    simp [hx, hnew]

/-- **A condensation that gains anything leaves less to forget**, and no condensation leaves more.
-/
theorem remembered_snoc_add_le {e : Event} {text : String}
    (he : e.asCondensation? = some (condensation (.ofEvents log) r text))
    (hselect : c.select (.ofEvents log) = .ok r) :
    (remembered (log ++ [e])).length + [r].countP ForgottenRange.gains ≤
      (remembered log).length := by
  rw [remembered_snoc he fun id hid => mem_forgotten_condensation.mpr (Or.inl hid)]
  by_cases hgains : r.gains = true
  · obtain ⟨x, hx, hs, hid, hnew⟩ := exists_newly_forgotten hselect hgains text
    have hshow : x.isShowable = true :=
      View.isShowable_of_mem_candidates ((View.retained_sublist_candidates _ _).subset hx)
    have hmem : x ∈ remembered log :=
      List.mem_filter.mpr ⟨View.retained_subset hx, by simp [hshow, hs, hnew]⟩
    rw [List.countP_singleton, if_pos hgains]
    exact List.length_filter_lt_length_iff_exists.mpr ⟨x, hmem, by simpa using hid⟩
  · rw [List.countP_singleton, if_neg hgains]
    exact List.length_filter_le _ _

/-- In an orderly log nothing takes the place of what is forgotten. -/
theorem countP_events_lt {t : Stamp} (hmodel : c.model = .standard)
    (hlog : Identified (log ++ [.condensation t d])) (hsummary : ∀ e ∈ log, e.isSummary = false)
    (hanswered : Answered log) (hagree : AnswersAgree log)
    (hselect : c.select (.ofEvents log) = .ok r) (hgains : r.gains = true)
    (hcondense : c.condense summarize (.ofEvents log) = .ok d) :
    (View.ofEvents (log ++ [.condensation t d])).events.countP (fun e => !e.isSummary) <
      (View.ofEvents log).events.countP fun e => !e.isSummary := by
  obtain ⟨r', text, -, -, h⟩ := condensing_of_condense hmodel hlog hanswered hcondense
  obtain ⟨r'', text', hselect', -, rfl⟩ := condense_eq_ok hcondense
  cases hselect.symm.trans hselect'
  obtain ⟨x, hx, -, hid, -⟩ := exists_newly_forgotten hselect hgains text'
  have hsummary' : ∀ e ∈ log ++ [.condensation t (condensation (.ofEvents log) r text')],
      e.isSummary = false := by
    intro e he
    rcases List.mem_append.mp he with he | he
    · exact hsummary e he
    · rw [List.mem_singleton.mp he]
      rfl
  rw [List.countP_eq_length_filter, List.countP_eq_length_filter, View.filter_events hsummary,
    View.filter_events hsummary', h.retained_snoc hsummary hanswered hagree]
  exact List.length_filter_lt_length_iff_exists.mpr ⟨x, hx, by simpa using hid⟩

/-! ## When nothing is gained -/

theorem filter_isSummary_events (hsummary : ∀ e ∈ log, e.isSummary = false) :
    (View.ofEvents log).events.filter (·.isSummary) = [] ∨
      ∃ x, IsSummaryOf log x ∧ (View.ofEvents log).events.filter (·.isSummary) = [x] := by
  have hnone : (retained .standard log).filter (·.isSummary) = [] :=
    List.filter_eq_nil_iff.mpr fun e he => by simp [hsummary e (View.retained_subset he)]
  obtain ⟨before, after, hretained, hevents | ⟨x, hx, hevents⟩⟩ := View.events_split log
  · rw [hevents, ← hretained]
    exact Or.inl hnone
  · rw [hretained, List.filter_append] at hnone
    obtain ⟨hbefore, hafter⟩ := List.append_eq_nil_iff.mp hnone
    refine Or.inr ⟨x, hx, ?_⟩
    rw [hevents, List.filter_append, List.filter_cons_of_pos hx.isSummary, hbefore, hafter]
    rfl

/-- Only the summary of the condensation before is selected when it alone stands between the front
and the room behind it. -/
theorem eq_summary_of_not_gains (hsummary : ∀ e ∈ log, e.isSummary = false)
    (hselect : c.select (.ofEvents log) = .ok r) (hgains : r.gains = false) :
    ∃ x, IsSummaryOf log x ∧ r.events = [x] ∧ (View.ofEvents log).size =
      c.rangeStart (.ofEvents log) + c.tailFor (c.target (.ofEvents log)) + 1 := by
  set v := View.ofEvents log with hv
  have hall : r.events.filter (·.isSummary) = r.events :=
    List.filter_eq_self.mpr fun x hx => by
      by_contra hs
      exact Bool.false_ne_true (hgains.symm.trans
        (ForgottenRange.gains_iff.mpr ⟨x, hx, Bool.eq_false_iff.mpr hs⟩))
  have hlt := rangeStart_lt_of_select hselect
  have hbetween : c.between v ⊆ r.events := fun x hx =>
    (mem_select_iff hselect).mpr (Or.inl hx)
  have hsummaries : (c.between v).filter (·.isSummary) = c.between v :=
    List.filter_eq_self.mpr fun x hx => (List.filter_eq_self.mp hall) x (hbetween hx)
  have hsub : (c.between v).Sublist (v.events.filter (·.isSummary)) := by
    rw [← hsummaries]
    exact ((List.drop_sublist _ _).trans (List.take_sublist _ _)).filter _
  have hselected : r.events.Sublist (v.events.filter (·.isSummary)) := by
    rw [← hall]
    exact (select_sublist hselect).filter _
  obtain hnone | ⟨x, hx, hone⟩ := filter_isSummary_events hsummary
  · rw [hnone, List.sublist_nil] at hsub
    exact absurd hsub (between_ne_nil hlt)
  · rw [hone] at hsub hselected
    refine ⟨x, hx, ?_, ?_⟩
    · rcases List.sublist_singleton.mp hselected with hnil | hone
      · rw [hnil, List.subset_nil] at hbetween
        exact absurd hbetween (between_ne_nil hlt)
      · exact hone
    · have hlength := length_take_append_between hlt
      have hle := hsub.length_le
      rw [List.length_append, length_take_rangeStart] at hlength
      have hmore := (rangeStart_lt_rangeEnd_iff (c := c) (v := v) rfl).mp hlt
      have hstop := (rangeEnd_isLeast (c := c) (v := v) rfl).1.2
      rw [List.length_singleton] at hle
      omega

end Condenser

/-! ## Calling again and again -/

/-- A call for a condensation. -/
structure CondenseCall where
  condenser : Condenser
  stamp : Stamp
  summarize : Summarizer

namespace Conversation

open Condenser (condensation countP_events_lt exists_newly_forgotten remembered_snoc_add_le
  eq_summary_of_not_gains)

variable {c : Conversation}

def afterCall (c : Conversation) (call : CondenseCall) : Conversation :=
  (c.condense call.condenser call.stamp call.summarize).state

def afterCalls (c : Conversation) (calls : List CondenseCall) : Conversation :=
  calls.foldl afterCall c

/-- What has been selected in a call, if a condensation has come of it. -/
def round (c : Conversation) (call : CondenseCall) : List ForgottenRange :=
  if (c.afterCall call).log.size = c.log.size then []
  else (call.condenser.select c.view).toOption.toList

/-- What has been selected in the calls of a sequence of which a condensation has come. -/
def rounds (c : Conversation) : List CondenseCall → List ForgottenRange
  | [] => []
  | call :: calls => c.round call ++ (c.afterCall call).rounds calls

theorem select_of_plan {k : Condenser} {p : CondensationPlan}
    (h : c.planCondensation k = .ok (some p)) :
    p.view = c.view ∧ k.select c.view = .ok p.range := by
  unfold planCondensation at h
  dsimp only at h
  split at h
  · cases h
  · cases hselect : k.select c.view with
    | error error =>
      rw [hselect] at h
      cases h
    | ok range =>
      rw [hselect] at h
      cases h
      exact ⟨rfl, rfl⟩

theorem log_add (c : Conversation) (fresh : EventId) (e : Event) :
    (c.add fresh e).state.log = c.log ∨
      (c.add fresh e).state.log.toList = c.log.toList ++ [e.identified fresh] := by
  unfold add
  split
  · exact Or.inl rfl
  · split
    · exact Or.inl rfl
    next log happend => exact Or.inr (EventLog.toList_append happend)

theorem afterCall_cases (c : Conversation) (call : CondenseCall) :
    (c.afterCall call).log = c.log ∨
      ∃ r text e, call.condenser.select c.view = .ok r ∧
        e.asCondensation? = some (condensation c.view r text) ∧
        (c.afterCall call).log.toList = c.log.toList ++ [e] := by
  unfold afterCall condense
  split
  · exact Or.inl rfl
  · exact Or.inl rfl
  next p hplan =>
    obtain ⟨hview, hselect⟩ := select_of_plan hplan
    unfold concludeCondensation
    split
    · exact Or.inl rfl
    next text _ =>
      refine (c.log_add _ _).imp (fun hlog => hlog)
        fun hlog => ⟨p.range, text, _, hselect, ?_, hlog⟩
      rw [hview]
      unfold Event.identified
      split
      · rfl
      · rfl

theorem round_cases (c : Conversation) (call : CondenseCall) :
    (c.round call = [] ∧ (c.afterCall call).log = c.log) ∨
      ∃ r text e, c.round call = [r] ∧ call.condenser.select c.view = .ok r ∧
        e.asCondensation? = some (condensation c.view r text) ∧
        (c.afterCall call).log.toList = c.log.toList ++ [e] := by
  rcases c.afterCall_cases call with hlog | ⟨r, text, e, hselect, he, hlog⟩
  · exact Or.inl ⟨if_pos (congrArg EventLog.size hlog), hlog⟩
  · refine Or.inr ⟨r, text, e, ?_, hselect, he, hlog⟩
    have hsize : (c.afterCall call).log.size ≠ c.log.size := by
      rw [← EventLog.length_toList, ← EventLog.length_toList, hlog]
      simp
    rw [round, if_neg hsize, hselect]
    rfl

/-- A sequence of calls appends one condensation for each round. Each round that gains anything
leaves less to forget. -/
theorem afterCalls_rounds (c : Conversation) (calls : List CondenseCall) :
    (∃ ks, (c.afterCalls calls).log.toList = c.log.toList ++ ks ∧
      (∀ k ∈ ks, k.asCondensation?.isSome) ∧ ks.length = (c.rounds calls).length) ∧
    (remembered (c.afterCalls calls).log.toList).length +
        (c.rounds calls).countP ForgottenRange.gains ≤ (remembered c.log.toList).length := by
  induction calls generalizing c with
  | nil => exact ⟨⟨[], by simp [afterCalls, rounds]⟩, by simp [afterCalls, rounds]⟩
  | cons call calls ih =>
    obtain ⟨⟨ks, hks, hcondensations, hlength⟩, hle⟩ := ih (c.afterCall call)
    have hafter : c.afterCalls (call :: calls) = (c.afterCall call).afterCalls calls := rfl
    rw [hafter, rounds]
    rcases c.round_cases call with ⟨hround, hlog⟩ | ⟨r, text, e, hround, hselect, he, hlog⟩
    · rw [hlog] at hks hle
      rw [hround, List.nil_append]
      exact ⟨⟨ks, hks, hcondensations, hlength⟩, hle⟩
    · have hround' := remembered_snoc_add_le he hselect
      rw [hlog] at hks hle
      rw [hround, List.singleton_append, List.countP_cons, List.length_cons]
      rw [List.countP_singleton] at hround'
      refine ⟨⟨e :: ks, by simp [hks], ?_, by simp [hlength]⟩, by omega⟩
      rintro k (_ | ⟨_, hk⟩)
      · simp [he]
      · exact hcondensations k hk

/-- **Whoever selects anything but a summary makes progress.** An event is forgotten then that was
remembered, and in an orderly log the view shows the fewer events. Only a summary between a full
front and a full room behind it can be selected alone. However often condensations are called for,
no more of them gain anything than there are events to forget. -/
theorem condensing_advances :
    (∀ (k : Condenser) log summarize d, k.condense summarize (.ofEvents log) = .ok d →
      ∃ r, k.select (.ofEvents log) = .ok r ∧
        (r.gains = true →
          (∃ x ∈ (View.ofEvents log).events, x.isSummary = false ∧ x.id ∈ d.forgotten ∧
            x.id ∉ (View.ofEvents log).forgotten) ∧
          (k.model = .standard → ∀ t, Identified (log ++ [.condensation t d]) →
            (∀ e ∈ log, e.isSummary = false) → Answered log → AnswersAgree log →
            (View.ofEvents (log ++ [.condensation t d])).events.countP (fun e => !e.isSummary) <
              (View.ofEvents log).events.countP fun e => !e.isSummary)) ∧
        (r.gains = false → (∀ e ∈ log, e.isSummary = false) →
          ∃ x, IsSummaryOf log x ∧ r.events = [x] ∧ (View.ofEvents log).size =
            k.rangeStart (.ofEvents log) + k.tailFor (k.target (.ofEvents log)) + 1)) ∧
    ∀ (c : Conversation) (calls : List CondenseCall),
      (∃ ks, (c.afterCalls calls).log.toList = c.log.toList ++ ks ∧
        (∀ k ∈ ks, k.asCondensation?.isSome) ∧ ks.length = (c.rounds calls).length) ∧
      (remembered (c.afterCalls calls).log.toList).length +
          (c.rounds calls).countP ForgottenRange.gains ≤ (remembered c.log.toList).length := by
  refine ⟨fun k log summarize d hcondense => ?_, afterCalls_rounds⟩
  obtain ⟨r, text, hselect, -, hd⟩ := Condenser.condense_eq_ok hcondense
  refine ⟨r, hselect, fun hgains => ⟨?_, fun hmodel t hlog hsummary hanswered hagree => ?_⟩,
    fun hgains hsummary => eq_summary_of_not_gains hsummary hselect hgains⟩
  · obtain ⟨x, hx, hs, hid, hnew⟩ := exists_newly_forgotten hselect hgains text
    exact ⟨x, (View.retained_sublist_events log).subset hx, hs, hd ▸ hid, hnew⟩
  · exact countP_events_lt hmodel hlog hsummary hanswered hagree hselect hgains hcondense

open Sample (condensable keeper condensedAgain stamp)

theorem condensing_advances_condensable :
    keeper.condense (fun _ => .ok "later") (.ofEvents condensable) = .ok condensedAgain ∧
      (∃ x ∈ (View.ofEvents condensable).events, x.isSummary = false ∧
        x.id ∈ condensedAgain.forgotten ∧ x.id ∉ (View.ofEvents condensable).forgotten) ∧
      (View.ofEvents (condensable ++ [.condensation (stamp "k2") condensedAgain])).events.countP
          (fun e => !e.isSummary) <
        (View.ofEvents condensable).events.countP fun e => !e.isSummary := by
  have hcondense :
      keeper.condense (fun _ => .ok "later") (.ofEvents condensable) = .ok condensedAgain := by
    with_unfolding_all rfl
  have hselected : (keeper.select (.ofEvents condensable)).toOption.map (·.gains) = some true := by
    decide +kernel
  obtain ⟨r, hselect, hadvance, -⟩ :=
    condensing_advances.1 keeper condensable _ _ hcondense
  have hgains : r.gains = true := by simpa [hselect, Except.toOption] using hselected
  obtain ⟨hforgotten, hfewer⟩ := hadvance hgains
  exact ⟨hcondense, hforgotten, hfewer rfl (stamp "k2") (by decide +kernel) (by decide)
    (.of_take (by decide +kernel)) (by decide +kernel)⟩

end Conversation

/-! ## Condensations without progress -/

namespace Sample

/-- A result in front of a later one of its call, and results that name that later one. -/
def chained : List Event :=
  [called "a1" "b1" "c1", failed "w" "c2" "a1", said "u", said "v", called "a2" "b2" "c3",
    failed "l" "c2" "a2", failed "y1" "c4" "l", failed "y2" "c5" "l", failed "y3" "c6" "l"]

/-- Results that name a summary, in front of later ones. -/
def judged : List Event :=
  [noted "s", failed "w1" "c1" "s", failed "w2" "c2" "s", failed "w3" "c3" "s",
    failed "w4" "c4" "s", said "u", failed "l1" "c1" "s", failed "l2" "c2" "s",
    failed "l3" "c3" "s", failed "l4" "c4" "s"]

def thrifty : Condenser := { tight with budget := some ⟨1⟩ }

/-- A log with a first condensation, and with a message behind the summary. -/
def spent : List Event := [said "m1", said "m2", condensed "k1" ["m1"] 0]

end Sample

namespace Condenser

open Sample (said stamp tight unanswered cutFront chained judged thrifty spent)

/-- A log that a condenser condenses of its own account, and of which no fewer events are shown
afterwards. -/
structure Undiminished (c : Condenser) (log : List Event) (d : Condensation) : Prop where
  identified : Identified (log ++ [.condensation (stamp "k") d])
  called : (c.trigger? (.ofEvents log) none).isSome
  condensed : c.condense (fun _ => .ok "later") (.ofEvents log) = .ok d
  shown : (View.ofEvents log).events.countP (fun e => !e.isSummary) ≤
    (View.ofEvents (log ++ [.condensation (stamp "k") d])).events.countP fun e => !e.isSummary

/-- As many events may be shown after a condensation as before: results that name no event of the
log, or a summary, make way for others of their calls, and with a hidden result those come back that
name it. A view of a summary and a last message that is too long is condensed for the sake of the
summary alone. -/
theorem condensed_undiminished :
    (ofSettings ⟨4, 0, none⟩ = .ok tight ∧ ofSettings ⟨4, 0, some 1⟩ = .ok thrifty) ∧
      Undiminished tight unanswered (cutFront ["w1", "w2", "w3", "w4"]) ∧
      Undiminished tight chained (cutFront ["a1", "w", "u", "v"] (some ⟨"b2"⟩)) ∧
      Undiminished tight judged (cutFront ["w1", "w2", "w3", "w4"]) ∧
      Undiminished thrifty spent (cutFront ["m1"]) ∧
      (cutFront ["m1"]).forgotten = (View.ofEvents spent).forgotten := by
  refine ⟨⟨rfl, rfl⟩, ?_, ?_, ?_, ?_, rfl⟩
  all_goals
    exact ⟨by decide +kernel, by decide +kernel, by with_unfolding_all rfl, by decide +kernel⟩

end Condenser
end AgentMemory
