import AgentMemory.Proofs.View.Events

/-!
# The view of a log that grows

Events that are appended after the latest condensation hide nothing of the log but the failures of
calls that they answer with a success (`Growth.retained_append`). Nothing that was hidden comes back
either, unless it was hidden for the sake of an anchor whose place a batch with reasoning takes.
-/

namespace AgentMemory

open Batching (anchor? batchIds dependents ids)

/-- Every result comes after the action that it names. -/
def AnswersActions (log : List Event) : Prop :=
  ∀ y ∈ log, ∀ a, y.answer? = some a →
    ∃ x p, x.asAction? = some p ∧ x.id = a.action ∧ Before log x y

namespace AnswersActions

variable {log : List Event}

theorem of_take (h : ∀ k < log.length, ∀ y ∈ log[k]?, ∀ a ∈ y.answer?,
    ∃ x ∈ log.take k, x.id = a.action ∧ x.asAction?.isSome) : AnswersActions log := by
  intro y hy a ha
  obtain ⟨before, after, rfl⟩ := List.append_of_mem hy
  obtain ⟨x, hx, hxa, hp⟩ := h before.length (by simp) y (by simp) a ha
  rw [List.take_left] at hx
  obtain ⟨p, hp⟩ := Option.isSome_iff_exists.mp hp
  exact ⟨x, p, hp, hxa, Before.of_mem hx (by simp)⟩

theorem answered (h : AnswersActions log) : Answered log := by
  intro y hy a ha
  obtain ⟨x, p, -, hxa, hbefore⟩ := h y hy a ha
  exact ⟨x, hxa, hbefore⟩

theorem snoc {e : Event} (he : e.answer? = none) (h : AnswersActions log) :
    AnswersActions (log ++ [e]) := by
  intro y hy a ha
  have hy : y ∈ log := (List.mem_append.mp hy).resolve_right fun hy => by
    simp [List.mem_singleton.mp hy, he] at ha
  obtain ⟨x, p, hp, hxa, hbefore⟩ := h y hy a ha
  exact ⟨x, p, hp, hxa, hbefore.of_sublist (List.sublist_append_left _ _)⟩

end AnswersActions

namespace View

variable {log more : List Event} {e : Event} {b : BatchId}

/-- A failure of a call that has succeeded since. -/
def superseded (log more : List Event) (e : Event) : Bool :=
  e.answer?.any fun a => !a.success &&
    more.any fun w => w.id ∉ forgottenIds log && isResultOf (·.success) a.call w

theorem superseded_iff :
    superseded log more e = true ↔ ∃ a, e.answer? = some a ∧ a.success = false ∧
      ∃ w ∈ more, w.id ∉ forgottenIds log ∧ isResultOf (·.success) a.call w = true := by
  simp only [superseded, Option.any_eq_true, Bool.and_eq_true, Bool.not_eq_true', List.any_eq_true,
    decide_eq_true_eq]

theorem superseded_of_not_answer (he : e.answer? = none) : superseded log more e = false := by
  simp [superseded, he]

/-- What may be appended to a log: no condensation, nothing of the batches of the log, and no
reasoning as long as a batch is hidden of which nothing is forgotten. -/
structure Growth (log more : List Event) : Prop where
  plain : ∀ x ∈ more, x.asCondensation? = none
  begun : ∀ x ∈ more, ∀ b, x.batch? = some b → b ∉ batchIds log
  anchored : (∀ x ∈ more, x.hasReasoning = false) ∨
    ∀ b ∈ batchIds log, (∀ x ∈ log, x.batch? = some b → x.id ∉ forgottenIds log) → Stands log b

namespace Growth

/-! ## Batches -/

theorem mem_of_batch? (h : Growth log more) (hb : b ∈ batchIds log) {x : Event}
    (hx : x ∈ log ++ more) (hxb : x.batch? = some b) : x ∈ log :=
  (List.mem_append.mp hx).resolve_right fun hx => h.begun x hx b hxb hb

theorem forgottenIds_append (h : Growth log more) :
    forgottenIds (log ++ more) = forgottenIds log :=
  forgottenIds_append_of_none h.plain

theorem stands_append (h : Growth log more) (hb : b ∈ batchIds log) (hstands : Stands log b) :
    Stands (log ++ more) b := by
  refine ⟨fun x hx hxb => ?_, fun anchor hanchor hdepends x hx hxa => ?_⟩
  · rw [h.forgottenIds_append]
    exact hstands.kept x (h.mem_of_batch? hb hx hxb) hxb
  · by_cases hold : anchor ∈ batchIds log
    · have hmore : ∀ y ∈ more, y.batch? ≠ some anchor := fun y hy hya => h.begun y hy _ hya hold
      rw [h.forgottenIds_append]
      exact hstands.anchored anchor (Batching.anchor?_of_append hmore hanchor)
        (Batching.mem_dependents_of_append hmore hb hdepends) x (h.mem_of_batch? hold hx hxa) hxa
    · exact absurd (Batching.mem_dependents.mp hdepends).1
        (Batching.not_precedes_of_begun hold hb)

theorem stands_of_append (h : Growth log more) (hb : b ∈ batchIds log)
    (hstands : Stands (log ++ more) b) : Stands log b := by
  have hkept : ∀ x ∈ log, x.batch? = some b → x.id ∉ forgottenIds log := by
    intro x hx hxb
    rw [← h.forgottenIds_append]
    exact hstands.kept x (List.mem_append_left _ hx) hxb
  rcases h.anchored with hplain | hwhole
  · refine ⟨hkept, fun anchor hanchor hdepends x hx hxa => ?_⟩
    have hold : anchor ∈ batchIds log := Batching.mem_batchIds.mpr ⟨x, hx, hxa⟩
    have hmore : ∀ y ∈ more, y.batch? ≠ some anchor := fun y hy hya => h.begun y hy _ hya hold
    rw [← h.forgottenIds_append]
    exact hstands.anchored anchor (Batching.anchor?_append hplain hanchor)
      (Batching.mem_dependents_append hmore hdepends) x (List.mem_append_left _ hx) hxa
  · exact hwhole b hb hkept

/-! ## Results -/

section

variable (hdistinct : (ids (log ++ more)).Nodup)
include hdistinct

theorem not_before (he : e ∈ log) {w : Event} (hw : w ∈ more) : ¬ Before (log ++ more) w e := by
  intro hbefore
  have hnodup := Batching.nodup_of_ids hdistinct
  exact (List.nodup_append.mp hnodup).2.2 w (hbefore.mem_of_mem_left hnodup he) w hw rfl

theorem mem_candidates_append_iff (h : Growth log more) (he : e ∈ log) :
    e ∈ candidates (log ++ more) ↔ e ∈ candidates log ∧ superseded log more e = false := by
  have hnodup := Batching.nodup_of_ids hdistinct
  have hsub : log.Sublist (log ++ more) := List.sublist_append_left _ _
  rw [mem_candidates hdistinct, mem_candidates (hdistinct.sublist (hsub.map _)),
    h.forgottenIds_append, ← Bool.not_eq_true, superseded_iff]
  constructor
  · rintro ⟨-, hshow, hkept, hbest⟩
    refine ⟨⟨he, hshow, hkept, fun w hw hwk hrank => ?_⟩, ?_⟩
    · exact hbest w (List.mem_append_left _ hw) hwk (hrank.of_sublist hsub)
    · rintro ⟨a, ha, hfailed, w, hw, hwk, hwins⟩
      obtain ⟨b, hb, hcall, hsuccess⟩ := isResultOf_iff.mp hwins
      exact hbest w (List.mem_append_right _ hw) hwk
        ⟨b, a, hb, ha, hcall, Or.inl ⟨hsuccess, hfailed⟩⟩
  · rintro ⟨⟨-, hshow, hkept, hbest⟩, hnot⟩
    refine ⟨List.mem_append_left _ he, hshow, hkept, fun w hw hwk hrank => ?_⟩
    rcases List.mem_append.mp hw with hw | hw
    · exact hbest w hw hwk (hrank.restrict hnodup hsub hw he)
    · -- what comes later is preferred only as a success to a failure
      obtain ⟨b, a, hb, ha, hcall, ⟨hsuccess, hfailed⟩ | ⟨-, hbefore⟩⟩ := hrank
      · exact hnot ⟨a, ha, hfailed, w, hw, hwk, isResultOf_iff.mpr ⟨b, hb, hcall, hsuccess⟩⟩
      · exact not_before hdistinct he hw hbefore

/-! ## What is retained -/

theorem mem_retained_append_iff_of_batch? (h : Growth log more) (he : e ∈ log)
    (hb : e.batch? = some b) :
    e ∈ retained .standard (log ++ more) ↔ e ∈ retained .standard log := by
  have hold : b ∈ batchIds log := Batching.mem_batchIds.mpr ⟨e, he, hb⟩
  have hsub : log.Sublist (log ++ more) := List.sublist_append_left _ _
  rw [mem_retained_iff_of_batch? hdistinct (List.mem_append_left _ he) hb,
    mem_retained_iff_of_batch? (hdistinct.sublist (hsub.map _)) he hb]
  exact ⟨h.stands_of_append hold, h.stands_append hold⟩

theorem mem_retained_append_iff (h : Growth log more) (hanswers : AnswersActions log)
    (he : e ∈ log) :
    e ∈ retained .standard (log ++ more) ↔
      e ∈ retained .standard log ∧ superseded log more e = false := by
  have hold : (ids log).Nodup :=
    hdistinct.sublist ((List.sublist_append_left log more).map _)
  have hcandidates := mem_candidates_append_iff hdistinct h he
  cases hb : e.batch? with
  | some b =>
    rw [mem_retained_append_iff_of_batch? hdistinct h he hb]
    exact (and_iff_left (superseded_of_not_answer (Event.answer?_of_batch? hb))).symm
  | none =>
    cases ha : e.answer? with
    | some a =>
      obtain ⟨x, p, hp, hxa, hbefore⟩ := hanswers e he a ha
      have hx := hbefore.mem_left
      rw [mem_retained_iff_of_answer? hdistinct ha (List.mem_append_left _ hx) hxa,
        mem_retained_iff_of_answer? hold ha hx hxa, hcandidates,
        mem_retained_append_iff_of_batch? hdistinct h hx (Event.batch?_of_asAction? hp)]
      exact and_right_comm
    | none =>
      have hnot : superseded log more e = false := superseded_of_not_answer ha
      rw [and_iff_left hnot] at hcandidates ⊢
      have hretained := retained_sublist_candidates .standard
      constructor
      · intro hr
        refine mem_retained_of_unbatched hold (hcandidates.mp ((hretained _).subset hr)) hb ?_
        exact fun a ha' => by simp [ha] at ha'
      · intro hr
        refine mem_retained_of_unbatched hdistinct (hcandidates.mpr ((hretained _).subset hr)) hb ?_
        exact fun a ha' => by simp [ha] at ha'

/-- **Of what was retained, appended events hide the failures of calls that they answer with a
success, and nothing else.** -/
theorem retained_append (h : Growth log more) (hanswers : AnswersActions log) :
    ∃ rest, rest.Sublist more ∧ retained .standard (log ++ more) =
      (retained .standard log).filter (fun e => !superseded log more e) ++ rest := by
  obtain ⟨old, rest, hsplit, hold, hrest⟩ :=
    List.sublist_append_iff.mp (retained_sublist .standard (log ++ more))
  refine ⟨rest, hrest, ?_⟩
  have hnodup := Batching.nodup_of_ids hdistinct
  obtain ⟨hlog, -, hdisjoint⟩ := List.nodup_append.mp hnodup
  rw [hsplit]
  congr 1
  refine eq_of_sublist_of_mem_iff hlog hold
    (List.filter_sublist.trans (retained_sublist _ _)) fun e => ?_
  rw [List.mem_filter, Bool.not_eq_true']
  constructor
  · intro he
    refine (mem_retained_append_iff hdistinct h hanswers (hold.subset he)).mp ?_
    rw [hsplit]
    exact List.mem_append_left _ he
  · rintro ⟨he, hnot⟩
    have hel := retained_subset he
    have hmem := (mem_retained_append_iff hdistinct h hanswers hel).mpr ⟨he, hnot⟩
    rw [hsplit] at hmem
    exact (List.mem_append.mp hmem).resolve_right fun hr => hdisjoint e hel e (hrest.subset hr) rfl

end
end Growth
end View
end AgentMemory
