import AgentMemory.Proofs.Condenser.Range
import AgentMemory.Proofs.Event

/-!
# The view after a condensation

A condensation takes its range out of what is retained and nothing else (`retained_snoc`): what was
hidden before stays hidden, though results that lost to a forgotten one are candidates again. The
new summary stands where the range was (`events_condense`).
-/

namespace AgentMemory

open Batching (Legal ids)
open View (retained candidates forgottenIds)
open Sample (said called succeeded failed condensed)

namespace Condenser.Condensing

variable {log : List Event} {e : Event} {d : Condensation} {r : ForgottenRange}
  {head tail : List Event}

/-! ## The condensation -/

theorem asCondensation? (h : Condensing log e d r head tail) : e.asCondensation? = some d := by
  simp [Event.asCondensation?, h.body]

theorem batch? (h : Condensing log e d r head tail) : e.batch? = none := by
  simp [Event.batch?, h.body]

theorem answer? (h : Condensing log e d r head tail) : e.answer? = none := by
  simp [Event.answer?, h.body]

theorem forgottenIds_eq (h : Condensing log e d r head tail) :
    forgottenIds (log ++ [e]) = d.forgotten :=
  View.forgottenIds_snoc_condensation h.asCondensation?

theorem mem_log_of_batch? (h : Condensing log e d r head tail) {x : Event} {b : BatchId}
    (hx : x ∈ log ++ [e]) (hxb : x.batch? = some b) : x ∈ log := by
  refine (List.mem_append.mp hx).resolve_right fun hx => ?_
  rw [List.mem_singleton.mp hx, h.batch?] at hxb
  cases hxb

theorem mem_log_of_answer? (h : Condensing log e d r head tail) {x : Event} {a : Answer}
    (hx : x ∈ log ++ [e]) (ha : x.answer? = some a) : x ∈ log := by
  refine (List.mem_append.mp hx).resolve_right fun hx => ?_
  rw [List.mem_singleton.mp hx, h.answer?] at ha
  cases ha

theorem old (h : Condensing log e d r head tail) : Identified log := h.identified.of_append

theorem subset_forgotten (h : Condensing log e d r head tail) :
    forgottenIds log ⊆ d.forgotten := fun id hid => (h.forgotten id).mpr (Or.inl hid)

/-! ## The range -/

theorem mem_events_of_mem_range (h : Condensing log e d r head tail) {x : Event}
    (hx : x ∈ r.events) : x ∈ (View.ofEvents log).events := by
  rw [h.selected.events]
  simp [hx]

theorem mem_log_of_mem_range (h : Condensing log e d r head tail) {x : Event}
    (hx : x ∈ r.events) (hs : x.isSummary = false) : x ∈ log := by
  have hr : x ∈ retained .standard log :=
    (View.mem_events (h.mem_events_of_mem_range hx)).resolve_right fun hsum => by
      simp [hsum.isSummary] at hs
  exact View.retained_subset hr

theorem mem_range_iff (h : Condensing log e d r head tail) {x : Event} (hx : x ∈ log)
    (hs : x.isSummary = false) (hnew : x.id ∉ forgottenIds log) :
    x ∈ r.events ↔ x.id ∈ d.forgotten := by
  rw [h.forgotten, or_iff_right hnew]
  refine ⟨fun hr => ⟨x, hr, hs, rfl⟩, ?_⟩
  rintro ⟨y, hy, hys, hid⟩
  rwa [← Batching.eq_of_id_eq h.old.distinct (h.mem_log_of_mem_range hy hys) hx hid]

theorem forgotten_subset (h : Condensing log e d r head tail)
    (hold : forgottenIds log ⊆ ids log) : d.forgotten ⊆ ids log := by
  intro id hid
  rcases (h.forgotten id).mp hid with hid | ⟨x, hx, hs, rfl⟩
  · exact hold hid
  · exact Batching.id_mem_ids (h.mem_log_of_mem_range hx hs)

theorem mem_range_of_batch (h : Condensing log e d r head tail) {x y : Event} {b : BatchId}
    (hx : x ∈ r.events) (hxb : x.batch? = some b) (hy : y ∈ log) (hyb : y.batch? = some b) :
    y ∈ r.events := by
  have hxr := View.mem_retained_of_batch? (h.mem_events_of_mem_range hx) hxb
  have hyr := View.mem_retained_of_mem_batch h.old.distinct hxr hxb hy hyb
  refine Batching.mem_middle_of_batch h.selected.start.toBatchCut h.selected.stop.toBatchCut hx hxb
    ?_ hyb
  rw [← h.selected.events]
  exact (View.retained_sublist_events log).subset hyr

theorem mem_range_iff_of_answer (h : Condensing log e d r head tail) {x y : Event} {a : Answer}
    (hxy : Before (View.ofEvents log).events x y) (ha : y.answer? = some a)
    (hx : x.id = a.action) : x ∈ r.events ↔ y ∈ r.events := by
  have hdistinct := View.distinct_events h.old
  rw [h.selected.events] at hxy hdistinct
  exact Batching.mem_middle_iff_of_answer hdistinct h.selected.start h.selected.stop hxy ha hx

theorem action_mem_forgotten (h : Condensing log e d r head tail) (hanswered : Answered log)
    {y : Event} {a : Answer} (hy : y ∈ log) (ha : y.answer? = some a)
    (hnew : y.id ∉ forgottenIds log) (hyd : y.id ∈ d.forgotten)
    (haction : ∀ x ∈ log, x.id = a.action → x.isSummary = false) : a.action ∈ d.forgotten := by
  have hyr := (h.mem_range_iff hy (Event.isSummary_of_answer? ha) hnew).mpr hyd
  have hyv := View.mem_retained_of_answer? (h.mem_events_of_mem_range hyr) ha
  obtain ⟨x, hx, hxa, hbefore⟩ := View.exists_action h.old hanswered hyv ha
  have hxr := (h.mem_range_iff_of_answer hbefore ha hxa).mpr hyr
  rw [← hxa]
  exact (h.forgotten x.id).mpr
    (Or.inr ⟨x, hxr, haction x (View.retained_subset hx) hxa, rfl⟩)

theorem mem_range_of_anchor (h : Condensing log e d r head tail) {b later : BatchId}
    (hb : Batching.anchor? log = some b) {x y : Event} (hx : x ∈ r.events)
    (hxb : x.batch? = some b) (hlater : Batching.Precedes log b later)
    (hy : y ∈ retained .standard log) (hyl : y.batch? = some later) : y ∈ r.events := by
  have hxv := h.mem_events_of_mem_range hx
  have hyv := (View.retained_sublist_events log).subset hy
  have hanchor := View.anchor?_events h.old.distinct hb hxv hxb
  have hprec := View.precedes_events h.old.distinct hlater hxv hxb hyv hyl
  rw [h.selected.events] at hanchor hprec hyv
  have htail := Batching.tail_eq_nil_of_anchor h.selected.stop.toBatchCut hanchor hx hxb
  have hhead : y ∉ head :=
    Batching.not_mem_head_of_precedes h.selected.start.toBatchCut hprec hx hxb hyl
  simpa [htail, hhead] using hyv

theorem mem_candidates_iff (h : Condensing log e d r head tail) {x : Event} :
    x ∈ candidates (log ++ [e]) ↔ x ∈ log ∧ x.isShowable = true ∧ x.id ∉ d.forgotten ∧
      ∀ w ∈ log, w.id ∉ d.forgotten → ¬ Outranks log w x :=
  View.mem_candidates_snoc_condensation h.asCondensation? h.identified.distinct

/-! ## What is retained -/

section

variable (hsummary : ∀ x ∈ log, x.isSummary = false)
include hsummary

theorem mem_filter_iff (h : Condensing log e d r head tail) {x : Event} :
    x ∈ (retained .standard log).filter (·.id ∉ d.forgotten) ↔
      x ∈ retained .standard log ∧ x ∉ r.events := by
  rw [List.mem_filter, decide_eq_true_eq]
  refine and_congr_right fun hx => not_congr ?_
  have hlog := View.retained_subset hx
  have hnew := View.not_mem_forgottenIds h.old.distinct hx
  exact (h.mem_range_iff hlog (hsummary x hlog) hnew).symm

theorem legal_filter (h : Condensing log e d r head tail) (hanswered : Answered log) :
    Legal log ((retained .standard log).filter (·.id ∉ d.forgotten)) := by
  have hsub : (retained .standard log).filter (·.id ∉ d.forgotten) ⊆ log := fun x hx =>
    View.retained_subset (List.mem_of_mem_filter hx)
  have hmem : ∀ {x}, x ∈ log → (x.id ∈ ids ((retained .standard log).filter (·.id ∉ d.forgotten)) ↔
      x ∈ retained .standard log ∧ x ∉ r.events) := fun hx =>
    (Batching.id_mem_ids_iff h.old.distinct hsub hx).trans (h.mem_filter_iff hsummary)
  refine ⟨fun x hx y hy b hxb hyb hid => ?_, fun y hy a ha _ => ?_,
    fun b hb x hx hxb hid y hy later hlater hyl => ?_⟩
  · obtain ⟨hxr, hxrange⟩ := (hmem hx).mp hid
    refine (hmem hy).mpr ⟨View.mem_retained_of_mem_batch h.old.distinct hxr hxb hy hyb,
      fun hyrange => ?_⟩
    exact hxrange (h.mem_range_of_batch hyrange hyb hx hxb)
  · obtain ⟨hyr, hyrange⟩ := (h.mem_filter_iff hsummary).mp hy
    obtain ⟨x, hxr, hxa, hbefore⟩ := View.exists_action h.old hanswered hyr ha
    rw [← hxa]
    refine Batching.id_mem_ids ((h.mem_filter_iff hsummary).mpr ⟨hxr, fun hxrange => ?_⟩)
    exact hyrange ((h.mem_range_iff_of_answer hbefore ha hxa).mp hxrange)
  · obtain ⟨hyr, hyrange⟩ := (h.mem_filter_iff hsummary).mp hy
    by_cases hxr : x ∈ retained .standard log
    · have hxrange : x ∈ r.events := by
        by_contra hxrange
        exact hid ((hmem hx).mpr ⟨hxr, hxrange⟩)
      exact hyrange (h.mem_range_of_anchor hb hxrange hxb (Batching.mem_dependents.mp hlater).1
        hyr hyl)
    · refine (View.legal_retained log).anchored b hb x hx hxb (fun hid => hxr ?_) y hyr later
        hlater hyl
      exact (Batching.id_mem_ids_iff h.old.distinct View.retained_subset hx).mp hid

end

theorem filter_subset_candidates (h : Condensing log e d r head tail) :
    (retained .standard log).filter (·.id ∉ d.forgotten) ⊆ candidates (log ++ [e]) := by
  intro x hx
  obtain ⟨hxr, hxd⟩ := List.mem_filter.mp hx
  obtain ⟨hxl, hshow, -, hbest⟩ := (View.mem_candidates h.old.distinct).mp
    ((View.retained_sublist_candidates _ _).subset hxr)
  refine h.mem_candidates_iff.mpr ⟨hxl, hshow, by simpa using hxd, fun w hw hwd => ?_⟩
  exact hbest w hw fun hid => hwd (h.subset_forgotten hid)

theorem legal_iff (h : Condensing log e d r head tail) (hanswered : Answered log)
    {selection : List Event} (hsub : selection ⊆ log) :
    Legal (log ++ [e]) selection ↔ Legal log selection := by
  refine Batching.legal_snoc_iff h.batch? fun x hx a ha haction => ?_
  obtain ⟨y, hy, hbefore⟩ := hanswered x (hsub hx) a ha
  refine h.identified.not_mem_ids ?_
  rw [← haction, ← hy]
  exact Batching.id_mem_ids hbefore.mem_left

theorem retained_snoc_subset (h : Condensing log e d r head tail) :
    retained .standard (log ++ [e]) ⊆ log := fun _ hx =>
  (h.mem_candidates_iff.mp ((View.retained_sublist_candidates _ _).subset hx)).1

/-- What is retained after a condensation was a candidate before: a result that only a forgotten one
outranked has lost its action together with that one. -/
theorem retained_snoc_subset_candidates (h : Condensing log e d r head tail)
    (hsummary : ∀ x ∈ log, x.isSummary = false) (hanswered : Answered log)
    (hagree : AnswersAgree log) : retained .standard (log ++ [e]) ⊆ candidates log := by
  intro y hy
  have hdistinct := h.old.distinct
  obtain ⟨hyl, hshow, hyd, hbest⟩ :=
    h.mem_candidates_iff.mp ((View.retained_sublist_candidates _ _).subset hy)
  refine (View.mem_candidates hdistinct).mpr
    ⟨hyl, hshow, fun hid => hyd (h.subset_forgotten hid), fun w hw hwk hrank => ?_⟩
  obtain ⟨a, b, ha, hb, hcall, -⟩ := id hrank
  obtain ⟨v, hv, c, hc, hcv⟩ := View.exists_mem_candidates hdistinct hw hwk ha
  obtain ⟨hvl, -, hvk, hvbest⟩ := (View.mem_candidates hdistinct).mp hv
  -- the best result of the call is forgotten now, or else it would be preferred still
  have hvd : v.id ∈ d.forgotten := by
    by_contra hvd
    by_cases hne : v = y
    · exact hvbest w hw hwk (hne ▸ hrank)
    · rcases Outranks.total hvl hyl hne hc hb (hcv.trans hcall) with hrank | hrank
      · exact hbest v hvl hvd hrank
      · exact hvbest y hyl (fun hid => hyd (h.subset_forgotten hid)) hrank
  -- so its action, which is that of the other result as well, is forgotten with it
  have hcd := h.action_mem_forgotten hanswered hvl hc hvk hvd fun x hx _ => hsummary x hx
  rw [hagree v hvl y hyl c b hc hb (hcv.trans hcall)] at hcd
  have hlegal := (h.legal_iff hanswered h.retained_snoc_subset).mp (View.legal_retained _)
  obtain ⟨x, hxb, hbefore⟩ := hanswered y hyl b hb
  obtain ⟨z, hz, hzb⟩ := Batching.mem_ids.mp
    (hlegal.answered y hy b hb (hxb ▸ Batching.id_mem_ids hbefore.mem_left))
  have hzd := View.not_mem_forgottenIds h.identified.distinct hz
  rw [h.forgottenIds_eq, hzb] at hzd
  exact hzd hcd

/-- **A condensation takes its range out of what is retained, and nothing else.** -/
theorem retained_snoc (h : Condensing log e d r head tail)
    (hsummary : ∀ x ∈ log, x.isSummary = false) (hanswered : Answered log)
    (hagree : AnswersAgree log) :
    retained .standard (log ++ [e]) = (retained .standard log).filter (·.id ∉ d.forgotten) := by
  have hsub : (retained .standard log).filter (·.id ∉ d.forgotten) ⊆ log := fun x hx =>
    View.retained_subset (List.mem_of_mem_filter hx)
  refine eq_of_sublist_of_mem_iff (Batching.nodup_of_ids h.identified.distinct)
    (View.retained_sublist _ _) ((List.filter_sublist.trans (View.retained_sublist _ _)).trans
      (List.sublist_append_left _ _)) fun x => ⟨fun hx => ?_, fun hx => ?_⟩
  · refine List.mem_filter.mpr ⟨?_, ?_⟩
    · exact View.mem_retained_of_legal h.old.distinct
        ((h.legal_iff hanswered h.retained_snoc_subset).mp (View.legal_retained _))
        (h.retained_snoc_subset_candidates hsummary hanswered hagree) hx
    · have hcandidate := (View.retained_sublist_candidates _ _).subset hx
      simpa using (h.mem_candidates_iff.mp hcandidate).2.2.1
  · exact View.mem_retained_of_legal h.identified.distinct
      ((h.legal_iff hanswered hsub).mpr (h.legal_filter hsummary hanswered))
      h.filter_subset_candidates hx

/-! ## Where the summary stands -/

theorem filter_retained (h : Condensing log e d r head tail)
    (hsummary : ∀ x ∈ log, x.isSummary = false) :
    (retained .standard log).filter (·.id ∉ d.forgotten) =
      head.filter (fun x => !x.isSummary) ++ tail.filter fun x => !x.isSummary := by
  have hsplit : retained .standard log = head.filter (fun x => !x.isSummary) ++
      r.events.filter (fun x => !x.isSummary) ++ tail.filter fun x => !x.isSummary := by
    rw [← View.filter_events hsummary, h.selected.events, List.filter_append, List.filter_append]
  have hnodup := Batching.nodup_of_ids (View.distinct_events h.old)
  rw [h.selected.events, List.append_assoc] at hnodup
  obtain ⟨-, hrest, hhead⟩ := List.nodup_append.mp hnodup
  obtain ⟨-, -, htail⟩ := List.nodup_append.mp hrest
  have hkept : ∀ {x}, x ∈ retained .standard log →
      (decide (x.id ∉ d.forgotten) = true ↔ x ∉ r.events) := fun {x} hx => by
    have := h.mem_filter_iff hsummary (x := x)
    rw [List.mem_filter, and_congr_right_iff] at this
    exact this hx
  rw [hsplit] at hkept
  rw [hsplit, List.filter_append, List.filter_append]
  have hbegin : (head.filter fun x => !x.isSummary).filter (·.id ∉ d.forgotten) =
      head.filter fun x => !x.isSummary := by
    refine List.filter_eq_self.mpr fun x hx => (hkept (by simp [hx])).mpr fun hxr => ?_
    exact hhead x (List.mem_of_mem_filter hx) x (List.mem_append_left _ hxr) rfl
  have hrange : (r.events.filter fun x => !x.isSummary).filter (·.id ∉ d.forgotten) = [] := by
    refine List.filter_eq_nil_iff.mpr fun x hx hxd => ?_
    exact (hkept (by simp [hx])).mp hxd (List.mem_of_mem_filter hx)
  have hend : (tail.filter fun x => !x.isSummary).filter (·.id ∉ d.forgotten) =
      tail.filter fun x => !x.isSummary := by
    refine List.filter_eq_self.mpr fun x hx => (hkept (by simp [hx])).mpr fun hxr => ?_
    exact htail x hxr x (List.mem_of_mem_filter hx) rfl
  rw [hbegin, hrange, hend, List.append_nil]

end Condenser.Condensing

/-- **A condensation does what it selected.** The range goes out of the view and the new summary
takes its place; the old summary is left out, and nothing else changes. -/
theorem Condenser.events_condense {c : Condenser} {summarize : Summarizer} {log : List Event}
    {s : Stamp} {d : Condensation} (hmodel : c.model = .standard)
    (hlog : Identified (log ++ [.condensation s d])) (hsummary : ∀ e ∈ log, e.isSummary = false)
    (hanswered : Answered log) (hagree : AnswersAgree log)
    (hcondense : c.condense summarize (.ofEvents log) = .ok d) :
    ∃ r text, summarize (Condenser.request (.ofEvents log) r) = .ok text ∧
      (View.ofEvents log).events =
        (View.ofEvents log).events.take (c.rangeStart (.ofEvents log)) ++ r.events ++
          (View.ofEvents log).events.drop (c.rangeEnd (.ofEvents log)) ∧
      (View.ofEvents (log ++ [.condensation s d])).events =
        ((View.ofEvents log).events.take (c.rangeStart (.ofEvents log))).filter
            (fun e => !e.isSummary) ++
          View.summaryEvent (.condensation s d) text ::
          ((View.ofEvents log).events.drop (c.rangeEnd (.ofEvents log))).filter
            fun e => !e.isSummary := by
  obtain ⟨r, text, htext, rfl, h⟩ := condensing_of_condense hmodel hlog hanswered hcondense
  refine ⟨r, text, htext, h.selected.events, ?_⟩
  rw [View.events_of_summary (View.latest?_snoc_condensation h.asCondensation?) rfl,
    h.retained_snoc hsummary hanswered hagree, h.filter_retained hsummary]
  simp only [condensation, Option.getD_some, View.insertAt, h.selected.offset, List.take_left,
    List.drop_left]

namespace Sample

/-- A log with a first condensation, a result that lost to a later one, and three batches. -/
def condensable : List Event :=
  [said "u", called "a1" "b1" "c1", succeeded "r1" "c1" "a1", condensed "k1" ["a1", "r1"] 1,
    called "a2" "b2" "c2", failed "f2" "c2" "a2", succeeded "r2" "c2" "a2", said "v",
    called "a3" "b3" "c3", succeeded "r3" "c3" "a3", said "w"]

def keeper : Condenser := { maxSize := 8, keepFirst := 1 }

/-- What the condenser makes of the log: it forgets all but the first and the last event, among them
the successful result, but not the failure that was hidden behind it. -/
def condensedAgain : Condensation where
  forgotten := [⟨"a1"⟩, ⟨"r1"⟩, ⟨"a2"⟩, ⟨"r2"⟩, ⟨"v"⟩, ⟨"a3"⟩, ⟨"r3"⟩]
  summary := some "later"
  offset := some 1
  turn := some ⟨"b3"⟩

end Sample

open Sample (condensable keeper condensedAgain stamp)

theorem Condenser.events_condense_condensable :
    keeper.condense (fun _ => .ok "later") (.ofEvents condensable) = .ok condensedAgain ∧
      ∃ r text, (fun _ => .ok "later" : Summarizer) (request (.ofEvents condensable) r) = .ok text ∧
        (View.ofEvents condensable).events =
          (View.ofEvents condensable).events.take (keeper.rangeStart (.ofEvents condensable)) ++
            r.events ++
            (View.ofEvents condensable).events.drop (keeper.rangeEnd (.ofEvents condensable)) ∧
        (View.ofEvents (condensable ++ [.condensation (stamp "k2") condensedAgain])).events =
          ((View.ofEvents condensable).events.take
              (keeper.rangeStart (.ofEvents condensable))).filter (fun e => !e.isSummary) ++
            View.summaryEvent (.condensation (stamp "k2") condensedAgain) text ::
            ((View.ofEvents condensable).events.drop
              (keeper.rangeEnd (.ofEvents condensable))).filter fun e => !e.isSummary :=
  have hcondense :
      keeper.condense (fun _ => .ok "later") (.ofEvents condensable) = .ok condensedAgain := by
    with_unfolding_all rfl
  ⟨hcondense, events_condense rfl (by decide +kernel) (by decide) (.of_take (by decide +kernel))
    (by decide +kernel) hcondense⟩

example : Batching.ids (View.ofEvents (condensable ++ [.condensation (stamp "k2")
    condensedAgain])).events = [⟨"u"⟩, ⟨"k2-summary"⟩, ⟨"w"⟩] := by
  decide +kernel

end AgentMemory
