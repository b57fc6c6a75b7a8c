import AgentMemory.Proofs.Batching.Cut
import AgentMemory.Proofs.View.Projection

/-!
# The events of a view

A view shows what is retained of its log and among it at most one more event, the summary. Where ids
are distinct and differ from those of summaries, the events of a view have the order, the batches
and the answers of the log, and its anchor when that is there at all.
-/

namespace AgentMemory

open Batching (AnswersFollow Precedes Reasons anchor? batchIds dependents ids)

/-- Ids are distinct, and none is that of the summary of a condensation. -/
structure Identified (log : List Event) : Prop where
  distinct : (ids log).Nodup
  synthetic : ∀ e ∈ log, e.asCondensation?.isSome → e.id.summary ∉ ids log

theorem Identified.of_append {log more : List Event} (h : Identified (log ++ more)) :
    Identified log where
  distinct := by
    have := h.distinct
    rw [Batching.ids_append] at this
    exact (List.nodup_append.mp this).1
  synthetic := by
    intro e he hc hid
    refine h.synthetic e (List.mem_append_left _ he) hc ?_
    rw [Batching.ids_append]
    exact List.mem_append_left _ hid

theorem Identified.not_mem_ids {log : List Event} {e : Event} (h : Identified (log ++ [e])) :
    e.id ∉ ids log := by
  have hdistinct := h.distinct
  rw [Batching.ids_append] at hdistinct
  exact fun hid => (List.nodup_append.mp hdistinct).2.2 _ hid _ (by simp [ids]) rfl

/-- Every result comes after the event that it names as its action. -/
def Answered (log : List Event) : Prop :=
  ∀ y ∈ log, ∀ a, y.answer? = some a → ∃ x, x.id = a.action ∧ Before log x y

theorem Answered.of_take {log : List Event} (h : ∀ k < log.length, ∀ y ∈ log[k]?,
    ∀ a ∈ y.answer?, a.action ∈ ids (log.take k)) : Answered log := by
  intro y hy a ha
  obtain ⟨before, after, rfl⟩ := List.append_of_mem hy
  have hbefore := h before.length (by simp) y (by simp) a ha
  rw [List.take_left] at hbefore
  obtain ⟨x, hx, hxa⟩ := Batching.mem_ids.mp hbefore
  exact ⟨x, hxa, Before.of_mem hx (by simp)⟩

/-- All results of one call name the same action. -/
def AnswersAgree (log : List Event) : Prop :=
  ∀ x ∈ log, ∀ y ∈ log, ∀ a b, x.answer? = some a → y.answer? = some b → a.call = b.call →
    a.action = b.action

instance (log : List Event) : Decidable (Identified log) :=
  decidable_of_iff ((ids log).Nodup ∧ ∀ e ∈ log, e.asCondensation?.isSome → e.id.summary ∉ ids log)
    ⟨fun h => ⟨h.1, h.2⟩, fun h => ⟨h.distinct, h.synthetic⟩⟩

instance (log : List Event) : Decidable (AnswersAgree log) :=
  decidable_of_iff (∀ x ∈ log, ∀ y ∈ log, ∀ a ∈ x.answer?, ∀ b ∈ y.answer?, a.call = b.call →
      a.action = b.action)
    ⟨fun h x hx y hy a b ha hb => h x hx y hy a ha b hb,
      fun h x hx y hy a ha b hb => h x hx y hy a b ha hb⟩

namespace View

variable {log : List Event} {e : Event}

/-! ## The summary -/

/-- The summary that a view shows. -/
def IsSummaryOf (log : List Event) (e : Event) : Prop :=
  ∃ x c text, latest? log = some (x, c) ∧ c.summary = some text ∧ e = summaryEvent x text

namespace IsSummaryOf

theorem batch?_eq_none (h : IsSummaryOf log e) : e.batch? = none := by
  obtain ⟨x, c, text, -, -, rfl⟩ := h
  rfl

theorem answer?_eq_none (h : IsSummaryOf log e) : e.answer? = none := by
  obtain ⟨x, c, text, -, -, rfl⟩ := h
  rfl

theorem isSummary (h : IsSummaryOf log e) : e.isSummary = true := by
  obtain ⟨x, c, text, -, -, rfl⟩ := h
  rfl

theorem id_not_mem (hlog : Identified log) (h : IsSummaryOf log e) : e.id ∉ ids log := by
  obtain ⟨x, c, text, hlatest, -, rfl⟩ := h
  obtain ⟨before, after, rfl, hx, -⟩ := latest?_eq_some_iff.mp hlatest
  exact hlog.synthetic x (by simp) (by simp [hx])

end IsSummaryOf

/-- The events of a view are what is retained of the log, with or without a summary among them. -/
theorem events_split (log : List Event) :
    ∃ before after, retained .standard log = before ++ after ∧
      ((ofEvents log).events = before ++ after ∨
        ∃ s, IsSummaryOf log s ∧ (ofEvents log).events = before ++ s :: after) := by
  by_cases hsum : ∃ x c text, latest? log = some (x, c) ∧ c.summary = some text
  · obtain ⟨x, c, text, hlatest, htext⟩ := hsum
    refine ⟨_, _, (List.take_append_drop (c.offset.getD 0) _).symm, Or.inr ⟨summaryEvent x text,
      ⟨x, c, text, hlatest, htext, rfl⟩, ?_⟩⟩
    exact events_of_summary hlatest htext
  · refine ⟨[], _, rfl, Or.inl (events_of_no_summary fun x c hlatest => ?_)⟩
    exact Option.eq_none_iff_forall_ne_some.mpr fun text htext => hsum ⟨x, c, text, hlatest, htext⟩

theorem retained_sublist_events (log : List Event) :
    (retained .standard log).Sublist (ofEvents log).events := by
  obtain ⟨before, after, hretained, hevents | ⟨s, -, hevents⟩⟩ := events_split log
  · rw [hretained, hevents]
  · rw [hretained, hevents]
    exact (List.sublist_cons_self _ _).append_left _

theorem mem_events (he : e ∈ (ofEvents log).events) :
    e ∈ retained .standard log ∨ IsSummaryOf log e := by
  obtain ⟨before, after, hretained, hevents | ⟨s, hs, hevents⟩⟩ := events_split log
  · exact Or.inl (by rwa [hretained, ← hevents])
  · rw [hevents, List.mem_append, List.mem_cons] at he
    rw [hretained, List.mem_append]
    rcases he with he | rfl | he
    · exact Or.inl (Or.inl he)
    · exact Or.inr hs
    · exact Or.inl (Or.inr he)

theorem isShowable_of_mem_events (he : e ∈ (ofEvents log).events) : e.isShowable = true := by
  rcases mem_events he with hr | ⟨x, c, text, -, -, rfl⟩
  · exact isShowable_of_mem_candidates ((retained_sublist_candidates _ _).subset hr)
  · rfl

theorem mem_events_iff (hlog : Identified log) (he : e ∈ log) :
    e ∈ (ofEvents log).events ↔ e ∈ retained .standard log := by
  refine ⟨fun h => (mem_events h).resolve_right fun hs => ?_,
    fun h => (retained_sublist_events log).subset h⟩
  exact hs.id_not_mem hlog (Batching.id_mem_ids he)

theorem mem_retained_of_batch? {b : BatchId} (he : e ∈ (ofEvents log).events)
    (hb : e.batch? = some b) : e ∈ retained .standard log :=
  (mem_events he).resolve_right fun hs => by simp [hs.batch?_eq_none] at hb

theorem mem_retained_of_answer? {a : Answer} (he : e ∈ (ofEvents log).events)
    (ha : e.answer? = some a) : e ∈ retained .standard log :=
  (mem_events he).resolve_right fun hs => by simp [hs.answer?_eq_none] at ha

theorem distinct_events (hlog : Identified log) : (ids (ofEvents log).events).Nodup := by
  have hretained := distinct_retained hlog.distinct .standard
  obtain ⟨before, after, hsplit, hevents | ⟨s, hs, hevents⟩⟩ := events_split log
  · rwa [hevents, ← hsplit]
  · rw [hsplit] at hretained
    rw [hevents, ids, List.map_append, List.map_cons, List.nodup_middle, ← List.map_append]
    refine List.nodup_cons.mpr ⟨fun hid => ?_, hretained⟩
    rw [← hsplit] at hid
    exact hs.id_not_mem hlog (List.map_subset _ retained_subset hid)

theorem filter_events (hsummary : ∀ e ∈ log, e.isSummary = false) :
    (ofEvents log).events.filter (fun e => !e.isSummary) = retained .standard log := by
  have hnone : ∀ e ∈ retained .standard log, (!e.isSummary) = true := fun e he => by
    simp [hsummary e (retained_subset he)]
  obtain ⟨before, after, hretained, hevents | ⟨s, hs, hevents⟩⟩ := events_split log
  · rw [hevents, ← hretained]
    exact List.filter_eq_self.mpr hnone
  · rw [hevents, List.filter_append, List.filter_cons_of_neg (by simp [hs.isSummary]),
      ← List.filter_append, ← hretained]
    exact List.filter_eq_self.mpr hnone

/-! ## Order, answers and anchor -/

theorem before_retained (hlog : Identified log) {x y : Event} (hx : x ∈ retained .standard log)
    (hy : y ∈ retained .standard log) (h : Before log x y) : Before (ofEvents log).events x y :=
  (h.restrict (Batching.nodup_of_ids hlog.distinct) (retained_sublist _ _) hx hy).of_sublist
    (retained_sublist_events log)

theorem exists_action (hlog : Identified log) (hanswered : Answered log) {y : Event} {a : Answer}
    (hy : y ∈ retained .standard log) (ha : y.answer? = some a) :
    ∃ x ∈ retained .standard log, x.id = a.action ∧ Before (ofEvents log).events x y := by
  obtain ⟨x, hx, hbefore⟩ := hanswered y (retained_subset hy) a ha
  have hid := (legal_retained log).answered y hy a ha
    (Batching.mem_ids.mpr ⟨x, hbefore.mem_left, hx⟩)
  rw [← hx, Batching.id_mem_ids_iff hlog.distinct retained_subset hbefore.mem_left]
    at hid
  exact ⟨x, hid, hx, before_retained hlog hid hy hbefore⟩

theorem answersFollow_events (hlog : Identified log) (hanswered : Answered log) :
    AnswersFollow (ofEvents log).events := by
  intro y hy a ha x hx hxa
  obtain ⟨z, hz, hza, hbefore⟩ := exists_action hlog hanswered (mem_retained_of_answer? hy ha) ha
  rwa [Batching.eq_of_id_eq (distinct_events hlog) hx hbefore.mem_left (hxa.trans hza.symm)]

theorem mem_retained_of_mem_batch (hdistinct : (ids log).Nodup) {x y : Event} {b : BatchId}
    (hx : x ∈ retained .standard log) (hxb : x.batch? = some b) (hy : y ∈ log)
    (hyb : y.batch? = some b) : y ∈ retained .standard log := by
  have hsub : retained .standard log ⊆ log := retained_subset
  rw [← Batching.id_mem_ids_iff hdistinct hsub hy]
  exact (legal_retained log).whole x (hsub hx) y hy b hxb hyb (Batching.id_mem_ids hx)

theorem batchIds_events (log : List Event) :
    batchIds (ofEvents log).events = batchIds (retained .standard log) := by
  obtain ⟨before, after, hretained, hevents | ⟨s, hs, hevents⟩⟩ := events_split log
  · rw [hevents, hretained]
  · rw [hevents, hretained, batchIds, batchIds, List.filterMap_append, List.filterMap_append,
      List.filterMap_cons_none hs.batch?_eq_none]

theorem precedes_events (hdistinct : (ids log).Nodup) {b later : BatchId} (h : Precedes log b later)
    {x y : Event} (hx : x ∈ (ofEvents log).events) (hxb : x.batch? = some b)
    (hy : y ∈ (ofEvents log).events) (hyl : y.batch? = some later) :
    Precedes (ofEvents log).events b later := by
  have hxr := mem_retained_of_batch? hx hxb
  rw [Batching.precedes_congr (batchIds_events log)]
  exact h.restrict hdistinct (retained_sublist _ _)
    (fun z hz hzb => mem_retained_of_mem_batch hdistinct hxr hxb hz hzb)
    (Batching.mem_batchIds.mpr ⟨y, mem_retained_of_batch? hy hyl, hyl⟩)

/-- A view shows no condensation, so none of its batches is released from an earlier one. -/
theorem mem_dependents_events {b later : BatchId} :
    later ∈ dependents b (ofEvents log).events ↔ Precedes (ofEvents log).events b later := by
  rw [Batching.mem_dependents]
  refine and_iff_left ?_
  rintro ⟨before, k, after, hsplit, -, -, hk⟩
  have hplain : k.asCondensation? = none := by
    have hmem : k ∈ (ofEvents log).events := by simp [hsplit]
    exact (Event.isShowable_iff.mp (isShowable_of_mem_events hmem)).1
  simp [Batching.forgetsAny, hplain] at hk

theorem anchor?_events (hdistinct : (ids log).Nodup) {b : BatchId} (hb : anchor? log = some b)
    {x : Event} (hx : x ∈ (ofEvents log).events) (hxb : x.batch? = some b) :
    anchor? (ofEvents log).events = some b := by
  have hsub := retained_sublist .standard log
  have hxr := mem_retained_of_batch? hx hxb
  obtain ⟨⟨e, he, heb, hreasons⟩, hlast⟩ := Batching.anchor?_eq_some_iff.mp hb
  refine Batching.anchor?_eq_some_iff.mpr ⟨⟨e, ?_, heb, hreasons⟩, ?_⟩
  · exact (retained_sublist_events log).subset (mem_retained_of_mem_batch hdistinct hxr hxb he heb)
  · rintro later hlater ⟨y, hy, hyl, hyreasons⟩
    have hyr := mem_retained_of_batch? hy hyl
    have hne : later ≠ b := fun h => Precedes.irrefl (h ▸ hlater)
    -- in the log the later batch would come first, and then in the view as well
    have hprec : Precedes log later b := by
      refine (Precedes.total (Batching.mem_batchIds.mpr ⟨y, hsub.subset hyr, hyl⟩)
        (Batching.mem_batchIds.mpr ⟨e, he, heb⟩) hne).resolve_right fun h => ?_
      exact hlast later h ⟨y, hsub.subset hyr, hyl, hyreasons⟩
    exact hlater.asymm (precedes_events hdistinct hprec hy hyl hx hxb)

end View
end AgentMemory
