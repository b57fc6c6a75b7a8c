import AgentMemory.Proofs.Batching.Legal
import AgentMemory.Proofs.Event
import AgentMemory.Proofs.View.Results

/-!
# The projection of a log

The events that a view shows of a log are the greatest legal selection of its candidates, and the
candidates are the unforgotten events that no unforgotten result outranks. The summary comes on top.
-/

namespace AgentMemory

open Batching (Model Legal Precedes anchor? dependents ids)

namespace View

variable {log : List Event} {e : Event}

/-! ## The latest condensation -/

/-- An event of a log that is a condensation, with none after it. -/
def IsLatest (log : List Event) (e : Event) (c : Condensation) : Prop :=
  ∃ before after, log = before ++ e :: after ∧ e.asCondensation? = some c ∧
    ∀ x ∈ after, x.asCondensation? = none

theorem latest?_eq_some_iff {c : Condensation} : latest? log = some (e, c) ↔ IsLatest log e c := by
  rw [latest?, List.findSome?_eq_some_iff]
  constructor
  · rintro ⟨xs, x, ys, hsplit, hx, hxs⟩
    obtain ⟨d, hd, hpair⟩ := Option.map_eq_some_iff.mp hx
    cases hpair
    refine ⟨ys.reverse, xs.reverse, ?_, hd, fun y hy => ?_⟩
    · rw [← List.reverse_reverse log, hsplit]
      simp
    · simpa using hxs y (List.mem_reverse.mp hy)
  · rintro ⟨before, after, rfl, he, hafter⟩
    refine ⟨after.reverse, e, before.reverse, by simp, by simp [he], fun x hx => ?_⟩
    simp [hafter x (List.mem_reverse.mp hx)]

theorem latest?_snoc_condensation {c : Condensation} (he : e.asCondensation? = some c) :
    latest? (log ++ [e]) = some (e, c) :=
  latest?_eq_some_iff.mpr ⟨log, [], rfl, he, by simp⟩

theorem latest?_snoc_of_none (he : e.asCondensation? = none) :
    latest? (log ++ [e]) = latest? log := by
  simp [latest?, he]

theorem forgottenIds_snoc_condensation {c : Condensation} (he : e.asCondensation? = some c) :
    forgottenIds (log ++ [e]) = c.forgotten := by
  rw [forgottenIds, latest?_snoc_condensation he]

theorem forgottenIds_snoc_of_none (he : e.asCondensation? = none) :
    forgottenIds (log ++ [e]) = forgottenIds log := by
  rw [forgottenIds, forgottenIds, latest?_snoc_of_none he]

theorem forgottenIds_append_of_none {more : List Event}
    (hmore : ∀ x ∈ more, x.asCondensation? = none) :
    forgottenIds (log ++ more) = forgottenIds log := by
  induction more using List.reverseRecOn with
  | nil => rw [List.append_nil]
  | append_singleton more x ih =>
    rw [← List.append_assoc, forgottenIds_snoc_of_none (hmore x (by simp))]
    exact ih fun y hy => hmore y (by simp [hy])

/-! ## Candidates -/

theorem mem_candidates (hdistinct : (ids log).Nodup) :
    e ∈ candidates log ↔ e ∈ log ∧ e.isShowable = true ∧ e.id ∉ forgottenIds log ∧
      ∀ w ∈ log, w.id ∉ forgottenIds log → ¬ Outranks log w e := by
  have hshown : (log.filter fun e => e.isShowable && e.id ∉ forgottenIds log).Sublist log :=
    List.filter_sublist
  rw [candidates, mem_dedupe (hdistinct.sublist (hshown.map _)), List.mem_filter,
    Bool.and_eq_true, decide_eq_true_eq, and_assoc, and_assoc]
  refine and_congr_right fun he => and_congr_right fun hshow => and_congr_right fun hkept => ?_
  have hmem : e ∈ log.filter fun e => e.isShowable && e.id ∉ forgottenIds log := by
    simp [he, hshow, hkept]
  constructor
  · intro hbest w hw hwk hrank
    obtain ⟨a, -, ha, -⟩ := id hrank
    have hw' : w ∈ log.filter fun e => e.isShowable && e.id ∉ forgottenIds log := by
      simp [hw, hwk, Event.isShowable_of_answer? ha]
    exact hbest w hw' (hrank.restrict (Batching.nodup_of_ids hdistinct) hshown hw' hmem)
  · intro hbest w hw hrank
    obtain ⟨hw, hwk⟩ := List.mem_filter.mp hw
    simp only [Bool.and_eq_true, decide_eq_true_eq] at hwk
    exact hbest w hw hwk.2 (hrank.of_sublist hshown)

theorem candidates_sublist (log : List Event) : (candidates log).Sublist log :=
  (dedupe_sublist _).trans List.filter_sublist

/-- The candidates after a condensation. -/
theorem mem_candidates_snoc_condensation {k : Event} {c : Condensation}
    (hk : k.asCondensation? = some c) (hdistinct : (ids (log ++ [k])).Nodup) :
    e ∈ candidates (log ++ [k]) ↔ e ∈ log ∧ e.isShowable = true ∧ e.id ∉ c.forgotten ∧
      ∀ w ∈ log, w.id ∉ c.forgotten → ¬ Outranks log w e := by
  have hnodup := Batching.nodup_of_ids hdistinct
  have hsub : log.Sublist (log ++ [k]) := List.sublist_append_left _ _
  rw [mem_candidates hdistinct, forgottenIds_snoc_condensation hk]
  constructor
  · rintro ⟨he, hshow, hkept, hbest⟩
    rcases List.mem_append.mp he with he | he
    · refine ⟨he, hshow, hkept, fun w hw hwk hrank => ?_⟩
      exact hbest w (hsub.subset hw) hwk (hrank.of_sublist hsub)
    · rw [List.mem_singleton.mp he, Event.isShowable_iff, hk] at hshow
      simp at hshow
  · rintro ⟨he, hshow, hkept, hbest⟩
    refine ⟨hsub.subset he, hshow, hkept, fun w hw hwk hrank => ?_⟩
    rcases List.mem_append.mp hw with hw | hw
    · exact hbest w hw hwk (hrank.restrict hnodup hsub hw he)
    · obtain ⟨a, -, ha, -⟩ := hrank
      simp [List.mem_singleton.mp hw, Event.answer?_of_asCondensation? hk] at ha

theorem mem_candidates_of_batch? (hdistinct : (ids log).Nodup) {b : BatchId} (he : e ∈ log)
    (hb : e.batch? = some b) (hkept : e.id ∉ forgottenIds log) : e ∈ candidates log := by
  refine (mem_candidates hdistinct).mpr
    ⟨he, Event.isShowable_of_batch? hb, hkept, fun w _ _ hrank => ?_⟩
  obtain ⟨-, a, -, ha, -⟩ := hrank
  simp [Event.answer?_of_batch? hb] at ha

theorem isShowable_of_mem_candidates (he : e ∈ candidates log) : e.isShowable = true := by
  have hshown := (List.mem_filter.mp ((dedupe_sublist _).subset he)).2
  rw [Bool.and_eq_true] at hshown
  exact hshown.1

theorem not_mem_forgottenIds_of_mem_candidates (he : e ∈ candidates log) :
    e.id ∉ forgottenIds log := by
  have hshown := (List.mem_filter.mp ((dedupe_sublist _).subset he)).2
  rw [Bool.and_eq_true, decide_eq_true_eq] at hshown
  exact hshown.2

theorem exists_mem_candidates (hdistinct : (ids log).Nodup) (he : e ∈ log)
    (hkept : e.id ∉ forgottenIds log) {a : Answer} (ha : e.answer? = some a) :
    ∃ w ∈ candidates log, ∃ b, w.answer? = some b ∧ b.call = a.call := by
  refine exists_mem_dedupe (hdistinct.sublist (List.filter_sublist.map _)) ?_ ha
  simp [he, hkept, Event.isShowable_of_answer? ha]

/-! ## What is retained -/

theorem retained_sublist_candidates (m : Model) (log : List Event) :
    (retained m log).Sublist (candidates log) := List.filter_sublist

theorem retained_sublist (m : Model) (log : List Event) : (retained m log).Sublist log :=
  (retained_sublist_candidates m log).trans (candidates_sublist log)

theorem retained_subset {m : Model} : retained m log ⊆ log := (retained_sublist m log).subset

theorem not_mem_forgottenIds (hdistinct : (ids log).Nodup) {m : Model} (he : e ∈ retained m log) :
    e.id ∉ forgottenIds log :=
  ((mem_candidates hdistinct).mp ((retained_sublist_candidates m log).subset he)).2.2.1

theorem distinct_retained (hdistinct : (ids log).Nodup) (m : Model) :
    (ids (retained m log)).Nodup := hdistinct.sublist ((retained_sublist m log).map _)

theorem legal_retained (log : List Event) : Legal log (retained .standard log) :=
  Model.legal_enforce Model.mem_rules_standard (candidates log) log

theorem mem_retained_of_legal (hdistinct : (ids log).Nodup) {selection : List Event}
    (hlegal : Legal log selection) (hsub : selection ⊆ candidates log) (he : e ∈ selection) :
    e ∈ retained .standard log := by
  refine List.mem_filter.mpr ⟨hsub he, decide_eq_true ?_⟩
  refine Model.not_mem_enforce .standard hlegal hsub (fun x hx hid => ?_) (Batching.id_mem_ids he)
  have hselection : selection ⊆ log := fun y hy => (candidates_sublist log).subset (hsub hy)
  exact (Batching.id_mem_ids_iff hdistinct hselection ((candidates_sublist log).subset hx)).mp hid

theorem mem_retained_of_unbatched (hdistinct : (ids log).Nodup) (he : e ∈ candidates log)
    (hbatch : e.batch? = none)
    (hanswer : ∀ a, e.answer? = some a → a.action ∈ ids log →
      a.action ∈ ids (retained .standard log)) : e ∈ retained .standard log := by
  have hlegal := legal_retained log
  have hsub : e :: retained .standard log ⊆ candidates log :=
    List.cons_subset.mpr ⟨he, (retained_sublist_candidates _ _).subset⟩
  have hids : ids (retained .standard log) ⊆ ids (e :: retained .standard log) :=
    List.map_subset _ (List.subset_cons_self _ _)
  have hlog : e :: retained .standard log ⊆ log := fun x hx =>
    (candidates_sublist log).subset (hsub hx)
  have hwith : Legal log (e :: retained .standard log) := by
    refine ⟨?_, ?_, ?_⟩
    · intro x hx y hy b hxb hyb hid
      rcases List.mem_cons.mp ((Batching.id_mem_ids_iff hdistinct hlog hx).mp hid) with rfl | hx'
      · simp [hbatch] at hxb
      · exact hids (hlegal.whole x hx y hy b hxb hyb (Batching.id_mem_ids hx'))
    · intro x hx a ha haction
      rcases List.mem_cons.mp hx with rfl | hx
      · exact hids (hanswer a ha haction)
      · exact hids (hlegal.answered x hx a ha haction)
    · intro b hb x hx hxb hid y hy later hlater
      rcases List.mem_cons.mp hy with rfl | hy
      · simp [hbatch]
      · exact hlegal.anchored b hb x hx hxb (fun h => hid (hids h)) y hy later hlater
  exact mem_retained_of_legal hdistinct hwith hsub (by simp)

/-! ## Batches and results -/

/-- A batch of which nothing is forgotten, nor of the anchor if it depends on that. -/
structure Stands (log : List Event) (b : BatchId) : Prop where
  kept : ∀ x ∈ log, x.batch? = some b → x.id ∉ forgottenIds log
  anchored : ∀ anchor ∈ anchor? log, b ∈ dependents anchor log →
    ∀ x ∈ log, x.batch? = some anchor → x.id ∉ forgottenIds log

instance (b : BatchId) : Decidable (Stands log b) :=
  decidable_of_iff ((∀ x ∈ log, x.batch? = some b → x.id ∉ forgottenIds log) ∧
      ∀ anchor ∈ anchor? log, b ∈ dependents anchor log →
        ∀ x ∈ log, x.batch? = some anchor → x.id ∉ forgottenIds log)
    ⟨fun h => ⟨h.1, h.2⟩, fun h => ⟨h.kept, h.anchored⟩⟩

/-- The events of the batches that stand. -/
def standing (log : List Event) : List Event :=
  log.filter fun e => e.batch?.any fun b => Stands log b

theorem mem_standing :
    e ∈ standing log ↔ e ∈ log ∧ ∃ b, e.batch? = some b ∧ Stands log b := by
  simp only [standing, List.mem_filter, Option.any_eq_true, decide_eq_true_eq]

theorem legal_standing (hdistinct : (ids log).Nodup) : Legal log (standing log) := by
  have hids : ∀ {x}, x ∈ log → (x.id ∈ ids (standing log) ↔ x ∈ standing log) := fun hx =>
    Batching.id_mem_ids_iff hdistinct List.filter_sublist.subset hx
  refine ⟨fun x hx y hy b hxb hyb hid => ?_, fun y hy a ha => ?_,
    fun anchor hanchor x hx hxa hid y hy later hlater hyl => ?_⟩
  · obtain ⟨-, b', hxb', h⟩ := mem_standing.mp ((hids hx).mp hid)
    cases hxb.symm.trans hxb'
    exact Batching.id_mem_ids (mem_standing.mpr ⟨hy, b, hyb, h⟩)
  · obtain ⟨-, b, hyb, -⟩ := mem_standing.mp hy
    simp [Event.answer?_of_batch? hyb] at ha
  · obtain ⟨-, later', hyl', h⟩ := mem_standing.mp hy
    cases hyl.symm.trans hyl'
    refine hid (Batching.id_mem_ids (mem_standing.mpr ⟨hx, anchor, hxa, ?_, ?_⟩))
    · exact h.anchored anchor hanchor hlater
    · intro anchor' hanchor' hself
      cases hanchor.symm.trans hanchor'
      exact absurd (Batching.mem_dependents.mp hself).1 Precedes.irrefl

theorem mem_retained_iff_of_batch? (hdistinct : (ids log).Nodup) {b : BatchId} (he : e ∈ log)
    (hb : e.batch? = some b) : e ∈ retained .standard log ↔ Stands log b := by
  have hlegal := legal_retained log
  have hmem : ∀ {x}, x ∈ log →
      (x.id ∈ ids (retained .standard log) ↔ x ∈ retained .standard log) := fun hx =>
    Batching.id_mem_ids_iff hdistinct retained_subset hx
  constructor
  · intro hr
    refine ⟨fun x hx hxb => ?_, fun anchor hanchor hdepends x hx hxa hforgotten => ?_⟩
    · exact not_mem_forgottenIds hdistinct ((hmem hx).mp
        (hlegal.whole e he x hx b hb hxb (Batching.id_mem_ids hr)))
    · refine hlegal.anchored anchor hanchor x hx hxa (fun hid => ?_) e hr b hdepends hb
      exact not_mem_forgottenIds hdistinct ((hmem hx).mp hid) hforgotten
  · intro hstands
    refine mem_retained_of_legal hdistinct (legal_standing hdistinct) (fun x hx => ?_)
      (mem_standing.mpr ⟨he, b, hb, hstands⟩)
    obtain ⟨hx, b', hxb, h⟩ := mem_standing.mp hx
    exact mem_candidates_of_batch? hdistinct hx hxb (h.kept x hx hxb)

theorem mem_retained_iff_of_answer? (hdistinct : (ids log).Nodup) {a : Answer} {x : Event}
    (ha : e.answer? = some a) (hx : x ∈ log) (hxa : x.id = a.action) :
    e ∈ retained .standard log ↔ e ∈ candidates log ∧ x ∈ retained .standard log := by
  rw [← Batching.id_mem_ids_iff hdistinct retained_subset hx, hxa]
  constructor
  · intro he
    exact ⟨(retained_sublist_candidates _ _).subset he,
      (legal_retained log).answered e he a ha (hxa ▸ Batching.id_mem_ids hx)⟩
  · rintro ⟨he, hid⟩
    refine mem_retained_of_unbatched hdistinct he (Event.batch?_of_answer? ha) fun a' ha' _ => ?_
    cases ha.symm.trans ha'
    exact hid

/-! ## The summary -/

theorem events_of_summary {x : Event} {c : Condensation} {text : String}
    (hlatest : latest? log = some (x, c)) (htext : c.summary = some text) :
    (ofEvents log).events =
      insertAt (c.offset.getD 0) (summaryEvent x text) (retained .standard log) := by
  simp only [ofEvents, ofEventsWith, hlatest, splice, htext]

theorem events_of_no_summary (hnone : ∀ x c, latest? log = some (x, c) → c.summary = none) :
    (ofEvents log).events = retained .standard log := by
  simp only [ofEvents, ofEventsWith]
  cases hlatest : latest? log with
  | none => rfl
  | some r =>
    obtain ⟨x, c⟩ := r
    simp only [splice, hnone x c hlatest]

end View
end AgentMemory
