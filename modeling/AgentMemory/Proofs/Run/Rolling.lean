import AgentMemory.Proofs.Condenser.Range
import AgentMemory.Proofs.Event

/-!
# Rolling summaries

A log is condensed again and again, each time with the text of the summary before. What a call of
the summarizer is handed goes on the list of what is forgotten, and nothing else does, so all that
is listed has been summarized once (`Rolling.accounts`).
-/

namespace AgentMemory

open Batching (ids)
open View (forgottenIds)
open Sample (said stamp)

/-- A call of the summarizer, and the condensation that came of it. -/
structure SummaryCall where
  request : SummaryRequest
  condensation : Condensation

/-- The logs that come about when events are appended and condensations are made of the view, with
the calls of the summarizer in their order. -/
inductive Rolling : List Event → List SummaryCall → Prop
  | nil : Rolling [] []
  | append {log : List Event} {calls : List SummaryCall} {e : Event} (h : Rolling log calls)
      (hplain : e.asCondensation? = none) : Rolling (log ++ [e]) calls
  | condense {log : List Event} {calls : List SummaryCall} {c : Condenser}
      {summarize : Summarizer} {r : ForgottenRange} {s : Stamp} {d : Condensation}
      (h : Rolling log calls) (hselect : c.select (.ofEvents log) = .ok r)
      (hcondense : c.condense summarize (.ofEvents log) = .ok d) :
      Rolling (log ++ [.condensation s d])
        (calls ++ [⟨Condenser.request (.ofEvents log) r, d⟩])

/-- The events that calls were handed, without the summaries of earlier condensations. -/
def handed (calls : List SummaryCall) : List Event :=
  calls.flatMap fun call => call.request.forgotten.filter fun e => !e.isSummary

theorem handed_append (calls more : List SummaryCall) :
    handed (calls ++ more) = handed calls ++ handed more := List.flatMap_append

theorem handed_snoc (calls : List SummaryCall) (v : View) (r : ForgottenRange) (d : Condensation) :
    handed (calls ++ [⟨Condenser.request v r, d⟩]) =
      handed calls ++ r.events.filter fun e => !e.isSummary := by
  rw [handed_append]
  simp [handed, Condenser.request]

/-- What the last of a sequence of calls has listed as forgotten. -/
def listed (calls : List SummaryCall) : List EventId :=
  (calls.getLast?.map (·.condensation.forgotten)).getD []

/-- The text that the last of a sequence of calls has come to. -/
def lastText? (calls : List SummaryCall) : Option String :=
  calls.getLast?.bind (·.condensation.summary)

namespace Rolling

variable {log : List Event} {calls earlier later : List SummaryCall} {call : SummaryCall}

theorem appendAll {more : List Event} (h : Rolling log calls)
    (hplain : ∀ e ∈ more, e.asCondensation?.isNone) : Rolling (log ++ more) calls := by
  induction more using List.reverseRecOn with
  | nil => rwa [List.append_nil]
  | append_singleton more e ih =>
    rw [← List.append_assoc]
    refine (ih fun x hx => hplain x (by simp [hx])).append ?_
    exact Option.isNone_iff_eq_none.mp (hplain e (by simp))

theorem forgottenIds_eq (h : Rolling log calls) (hdistinct : (ids log).Nodup) :
    forgottenIds log = ids (handed calls) ∧ listed calls = ids (handed calls) := by
  induction h with
  | nil => exact ⟨rfl, rfl⟩
  | append h hplain ih =>
    rw [View.forgottenIds_snoc_of_none hplain]
    rw [Batching.ids_append] at hdistinct
    exact ih (List.nodup_append.mp hdistinct).1
  | @condense log calls c summarize r s d h hselect hcondense ih =>
    rw [Batching.ids_append] at hdistinct
    have hold := (List.nodup_append.mp hdistinct).1
    obtain ⟨r', text, hselect', -, rfl⟩ := Condenser.condense_eq_ok hcondense
    cases hselect.symm.trans hselect'
    have hforgotten := Condenser.forgotten_condensation hselect hold text
    rw [(ih hold).1, ← Batching.ids_append] at hforgotten
    rw [handed_snoc, View.forgottenIds_snoc_condensation rfl]
    refine ⟨hforgotten, ?_⟩
    simpa [listed] using hforgotten

/-- No event is handed over twice: what has been handed over is forgotten, and out of every view. -/
theorem handed_nodup (h : Rolling log calls) (hdistinct : (ids log).Nodup) :
    handed calls ⊆ log ∧ (ids (handed calls)).Nodup := by
  induction h with
  | nil => exact ⟨List.nil_subset _, List.nodup_nil⟩
  | append h hplain ih =>
    rw [Batching.ids_append] at hdistinct
    obtain ⟨hmem, hnodup⟩ := ih (List.nodup_append.mp hdistinct).1
    exact ⟨List.Subset.trans hmem (List.subset_append_left _ _), hnodup⟩
  | @condense log calls c summarize r s d h hselect hcondense ih =>
    rw [Batching.ids_append] at hdistinct
    have hold := (List.nodup_append.mp hdistinct).1
    obtain ⟨hmem, hnodup⟩ := ih hold
    have hnew := Condenser.filter_select_sublist hselect
    rw [handed_snoc, Batching.ids_append]
    refine ⟨fun e he => List.mem_append_left _ ?_, List.nodup_append.mpr ⟨hnodup, ?_, ?_⟩⟩
    · rcases List.mem_append.mp he with he | he
      · exact hmem he
      · exact View.retained_subset (hnew.subset he)
    · exact (View.distinct_retained hold .standard).sublist (hnew.map _)
    · intro id hid id' hid' heq
      obtain ⟨e, he, rfl⟩ := Batching.mem_ids.mp hid'
      refine View.not_mem_forgottenIds hold (hnew.subset he) ?_
      rwa [(h.forgottenIds_eq hold).1, ← heq]

theorem lastText?_eq (h : Rolling log calls) :
    (View.ofEvents log).summary = lastText? calls := by
  have hlatest : (View.latest? log).bind (·.2.summary) = lastText? calls := by
    induction h with
    | nil => rfl
    | append h hplain ih => rwa [View.latest?_snoc_of_none hplain]
    | condense h hselect hcondense ih =>
      rw [View.latest?_snoc_condensation rfl]
      simp [lastText?]
  exact hlatest

theorem exists_moment (h : Rolling log calls) (hsplit : calls = earlier ++ call :: later) :
    ∃ before s, before ++ [.condensation s call.condensation] <+: log ∧ Rolling before earlier ∧
      Rolling (before ++ [.condensation s call.condensation]) (earlier ++ [call]) ∧
      call.request.previous = (View.ofEvents before).summary := by
  induction h generalizing later with
  | nil => simp at hsplit
  | append h hplain ih =>
    obtain ⟨before, s, hbegins, hrest⟩ := ih hsplit
    exact ⟨before, s, hbegins.trans (List.prefix_append _ _), hrest⟩
  | @condense log calls c summarize r s d h hselect hcondense ih =>
    obtain rfl | ⟨rest, last, rfl⟩ := List.eq_nil_or_concat later
    · obtain ⟨rfl, hcall⟩ := List.append_inj' hsplit rfl
      obtain ⟨rfl, -⟩ := List.cons.inj hcall
      exact ⟨log, s, List.prefix_rfl, h, h.condense hselect hcondense, rfl⟩
    · have hsplit' : calls ++ [⟨Condenser.request (.ofEvents log) r, d⟩] =
          (earlier ++ call :: rest) ++ [last] := by simpa using hsplit
      obtain ⟨before, s', hbegins, hrest⟩ := ih (List.append_inj' hsplit' rfl).1
      exact ⟨before, s', hbegins.trans (List.prefix_append _ _), hrest⟩

/-- **Rolling summaries account for everything that is forgotten.** A condensation lists what the
one before it lists and then the ids of the events that its own call was handed; nothing is listed
or handed over twice, and all that is listed is of the log. Each call is given the text that the one
before it has come to. -/
theorem accounts (h : Rolling log calls) (hdistinct : (ids log).Nodup)
    (hsplit : calls = earlier ++ call :: later) :
    call.condensation.forgotten = listed earlier ++ ids (handed [call]) ∧
      call.condensation.forgotten.Nodup ∧
      (∀ id ∈ call.condensation.forgotten, (∃ e ∈ log, e.isSummary = false ∧ e.id = id) ∧
        (ids (handed calls)).count id = 1) ∧
      (∀ k ∈ log, k.asCondensation?.isSome → k.id.summary ∉ ids log →
        k.id.summary ∉ call.condensation.forgotten) ∧
      call.request.previous = lastText? earlier := by
  obtain ⟨before, s, hbegins, hearlier, hnow, hprevious⟩ := h.exists_moment hsplit
  have hmoment : (ids (before ++ [.condensation s call.condensation])).Nodup :=
    hdistinct.sublist (hbegins.sublist.map _)
  have hbefore : (ids before).Nodup := by
    rw [Batching.ids_append] at hmoment
    exact (List.nodup_append.mp hmoment).1
  have hlist : call.condensation.forgotten = ids (handed (earlier ++ [call])) := by
    rw [← (hnow.forgottenIds_eq hmoment).1, View.forgottenIds_snoc_condensation rfl]
  have hall : ∀ id ∈ call.condensation.forgotten, ∃ e ∈ handed calls, e.id = id := by
    intro id hid
    rw [hlist] at hid
    obtain ⟨e, he, rfl⟩ := Batching.mem_ids.mp hid
    refine ⟨e, ?_, rfl⟩
    have hcalls : calls = (earlier ++ [call]) ++ later := by simp [hsplit]
    rw [hcalls, handed_append]
    exact List.mem_append_left _ he
  obtain ⟨hmem, hnodup⟩ := h.handed_nodup hdistinct
  have hlog : ∀ id ∈ call.condensation.forgotten, ∃ e ∈ log, e.isSummary = false ∧ e.id = id := by
    intro id hid
    obtain ⟨e, he, rfl⟩ := hall id hid
    obtain ⟨x, -, hx⟩ := List.mem_flatMap.mp he
    exact ⟨e, hmem he, by simpa using (List.mem_filter.mp hx).2, rfl⟩
  refine ⟨?_, ?_, fun id hid => ⟨hlog id hid, ?_⟩, fun k _ _ hfree hid => ?_, ?_⟩
  · rw [hlist, handed_append, Batching.ids_append, (hearlier.forgottenIds_eq hbefore).2]
  · rw [hlist]
    exact (hnow.handed_nodup hmoment).2
  · obtain ⟨e, he, rfl⟩ := hall id hid
    exact List.count_eq_one_of_mem hnodup (Batching.id_mem_ids he)
  · obtain ⟨e, he, -, hid⟩ := hlog _ hid
    exact hfree (hid ▸ Batching.id_mem_ids he)
  · rw [hprevious, hearlier.lastText?_eq]

end Rolling

namespace Sample

def brisk : Condenser := { maxSize := 6, keepFirst := 1 }

def opening : List Event := [said "u", said "m1", said "m2"]

def messagesOut (forgotten : List String) (text : String) : Condensation where
  forgotten := forgotten.map .mk
  summary := some text
  offset := some 1

/-- The log at the second condensation: between the two came a message with a given id. -/
def continued (id : String) : List Event :=
  opening ++ [.condensation (stamp "k1") (messagesOut ["m1"] "earlier")] ++ [said id, said "m4"]

/-- The two calls of the summarizer, for the first condensation and the second. -/
def rolledCalls (id : String) : List SummaryCall :=
  [⟨⟨none, [said "m1"]⟩, messagesOut ["m1"] "earlier"⟩,
    ⟨⟨some "earlier",
      [View.summaryEvent (.condensation (stamp "k1") (messagesOut ["m1"] "earlier")) "earlier",
        said "m2", said id]⟩, messagesOut ["m1", "m2", id] "later"⟩]

end Sample

open Sample (brisk opening messagesOut continued rolledCalls)

theorem Rolling.of_continued (id : String) :
    Rolling (Sample.continued id) [⟨⟨none, [said "m1"]⟩, messagesOut ["m1"] "earlier"⟩] := by
  have hopening : Rolling ([] ++ opening) [] := Rolling.nil.appendAll (by decide)
  have hselect : brisk.select (.ofEvents opening) = .ok ⟨[said "m1"], 1⟩ := by
    with_unfolding_all rfl
  have hcondense : brisk.condense (fun _ => .ok "earlier") (.ofEvents opening) =
      .ok (messagesOut ["m1"] "earlier") := by
    with_unfolding_all rfl
  refine (hopening.condense hselect hcondense).appendAll fun e he => ?_
  rcases List.mem_pair.mp he with rfl | rfl
  · rfl
  · rfl

theorem Rolling.accounts_continued :
    Rolling (continued "m3" ++
        [.condensation (stamp "k2") (messagesOut ["m1", "m2", "m3"] "later")])
      (rolledCalls "m3") ∧
    (messagesOut ["m1", "m2", "m3"] "later").forgotten =
      listed ((rolledCalls "m3").take 1) ++ ids (handed ((rolledCalls "m3").drop 1)) ∧
    (ids (handed (rolledCalls "m3"))).count ⟨"m2"⟩ = 1 := by
  have hselect : brisk.select (.ofEvents (continued "m3")) =
      .ok ⟨[View.summaryEvent (.condensation (stamp "k1") (messagesOut ["m1"] "earlier")) "earlier",
        said "m2", said "m3"], 1⟩ := by
    with_unfolding_all rfl
  have hcondense : brisk.condense (fun _ => .ok "later") (.ofEvents (continued "m3")) =
      .ok (messagesOut ["m1", "m2", "m3"] "later") := by
    with_unfolding_all rfl
  have hrolling := (Rolling.of_continued "m3").condense (s := stamp "k2") hselect hcondense
  obtain ⟨hlist, -, honce, -, -⟩ :=
    accounts hrolling (by decide) (show _ = [_] ++ _ :: [] from rfl)
  exact ⟨hrolling, hlist, (honce ⟨"m2"⟩ (by decide)).2⟩

/-- When an appended event bears the id of a summary, that id is listed. -/
theorem Rolling.summary_listed :
    Rolling (continued "k1-summary" ++
        [.condensation (stamp "k2") (messagesOut ["m1", "m2", "k1-summary"] "later")])
      (rolledCalls "k1-summary") ∧
    (ids (continued "k1-summary" ++
      [.condensation (stamp "k2") (messagesOut ["m1", "m2", "k1-summary"] "later")])).Nodup ∧
    (⟨"k1"⟩ : EventId).summary ∈ (messagesOut ["m1", "m2", "k1-summary"] "later").forgotten := by
  have hselect : brisk.select (.ofEvents (continued "k1-summary")) =
      .ok ⟨[View.summaryEvent (.condensation (stamp "k1") (messagesOut ["m1"] "earlier")) "earlier",
        said "m2", said "k1-summary"], 1⟩ := by
    with_unfolding_all rfl
  have hcondense : brisk.condense (fun _ => .ok "later") (.ofEvents (continued "k1-summary")) =
      .ok (messagesOut ["m1", "m2", "k1-summary"] "later") := by
    with_unfolding_all rfl
  exact ⟨(Rolling.of_continued "k1-summary").condense hselect hcondense, by decide, by decide⟩

end AgentMemory
