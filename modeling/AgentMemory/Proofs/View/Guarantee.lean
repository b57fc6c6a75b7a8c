import AgentMemory.Proofs.Event
import AgentMemory.Proofs.View.Projection

/-!
# What a view guarantees

Whatever a log with distinct ids holds, its view shows a part of it in which results are single,
batches are whole, answers have their actions, and nothing depends on an anchor that is not there;
nothing that stands on its own is lost (`exists_guaranteed`).
-/

namespace AgentMemory.View

open Batching (Precedes Reasons Released ids)
open Sample (said called reasoned succeeded failed condensed)

/-- What holds of the events of a log that its view shows. -/
structure Guaranteed (log visible : List Event) : Prop where
  order : visible.Sublist log
  shown : ∀ e ∈ visible, e.asCondensation? = none ∧ e.isCondensationRequest = false
  remembered : ∀ e ∈ visible, ∀ x c, IsLatest log x c → e.id ∉ c.forgotten
  /-- No two results answer the same call. -/
  single : ∀ x ∈ visible, ∀ y ∈ visible, ∀ a b, x.answer? = some a → y.answer? = some b →
    a.call = b.call → x = y
  /-- All events of a batch are there, or none. -/
  whole : ∀ b, (∀ e ∈ log, e.batch? = some b → e ∈ visible) ∨
    ∀ e ∈ log, e.batch? = some b → e ∉ visible
  /-- A result is not there without its action. -/
  answered : ∀ e ∈ visible, ∀ a, e.answer? = some a → ∀ x ∈ log, x.id = a.action → x ∈ visible
  /-- When the last batch that carries reasoning is not there, the batches after it are there only
  if a condensation that forgot it came before they began. -/
  anchored : ∀ b, Reasons log b → (∀ later, Precedes log b later → ¬ Reasons log later) →
    (∀ e ∈ visible, e.batch? ≠ some b) →
    ∀ later, Precedes log b later → (∃ e ∈ visible, e.batch? = some later) →
      Released log b later
  /-- What belongs to no batch and is no result is there unless it is forgotten. -/
  kept : ∀ e ∈ log, (e.asSystemPrompt?.isSome ∨ (e.asMessage?.isSome ∧ e.batch? = none)) →
    (∀ x c, IsLatest log x c → e.id ∉ c.forgotten) → e ∈ visible

theorem not_mem_forgottenIds_iff {log : List Event} {id : EventId} :
    id ∉ forgottenIds log ↔ ∀ x c, IsLatest log x c → id ∉ c.forgotten := by
  simp only [forgottenIds, ← latest?_eq_some_iff]
  cases latest? log with
  | none => simp
  | some r =>
    obtain ⟨x, c⟩ := r
    simp

theorem guaranteed_retained {log : List Event} (hdistinct : (ids log).Nodup) :
    Guaranteed log (retained .standard log) := by
  have hlegal := legal_retained log
  have hsub : retained .standard log ⊆ log := retained_subset
  have hcandidate : ∀ {e}, e ∈ retained .standard log → e ∈ candidates log := fun he =>
    (retained_sublist_candidates _ _).subset he
  have hmem : ∀ {e}, e ∈ log → (e.id ∈ ids (retained .standard log) ↔
      e ∈ retained .standard log) := fun he => Batching.id_mem_ids_iff hdistinct hsub he
  refine ⟨retained_sublist _ _, ?_, ?_, ?_, ?_, ?_, ?_, ?_⟩
  · intro e he
    exact Event.isShowable_iff.mp ((mem_candidates hdistinct).mp (hcandidate he)).2.1
  · intro e he
    exact not_mem_forgottenIds_iff.mp ((mem_candidates hdistinct).mp (hcandidate he)).2.2.1
  · intro x hx y hy a b ha hb hcall
    refine eq_of_mem_dedupe ?_ (hcandidate hx) (hcandidate hy) ha hb hcall
    exact hdistinct.sublist (List.filter_sublist.map _)
  · intro b
    by_cases hb : ∃ e ∈ retained .standard log, e.batch? = some b
    · obtain ⟨e, he, heb⟩ := hb
      refine Or.inl fun x hx hxb => (hmem hx).mp ?_
      exact hlegal.whole e (hsub he) x hx b heb hxb ((hmem (hsub he)).mpr he)
    · exact Or.inr fun e _ heb he => hb ⟨e, he, heb⟩
  · intro e he a ha x hx hxa
    refine (hmem hx).mp ?_
    rw [hxa]
    exact hlegal.answered e he a ha (Batching.mem_ids.mpr ⟨x, hx, hxa⟩)
  · intro b hb hlast hgone later hlater hthere
    obtain ⟨e, he, hel⟩ := hthere
    obtain ⟨x, hx, hxb, -⟩ := id hb
    by_contra hreleased
    refine hlegal.anchored b (Batching.anchor?_eq_some_iff.mpr ⟨hb, hlast⟩) x hx hxb (fun hid => ?_)
      e he later (Batching.mem_dependents.mpr ⟨hlater, hreleased⟩) hel
    exact hgone x ((hmem hx).mp hid) hxb
  · intro e he hkind hkept
    have hbatch : e.batch? = none ∧ e.answer? = none ∧ e.isShowable = true := by
      cases hbody : e.body <;>
        simp_all [Event.asSystemPrompt?, Event.asMessage?, Event.batch?, Event.answer?,
          Event.isShowable]
    obtain ⟨hbatch, hanswer, hshow⟩ := hbatch
    refine mem_retained_of_unbatched hdistinct ?_ hbatch (by simp [hanswer])
    refine (mem_candidates hdistinct).mpr
      ⟨he, hshow, not_mem_forgottenIds_iff.mpr hkept, fun w _ _ hrank => ?_⟩
    obtain ⟨-, b, -, hb, -⟩ := hrank
    simp [hanswer] at hb

/-- **What a view guarantees.** The view of a log shows a guaranteed part of it, and with it the
summary of the latest condensation, at its offset or at the end, exactly when that has one. -/
theorem exists_guaranteed (log : List Event) (hdistinct : (ids log).Nodup) :
    ∃ visible, Guaranteed log visible ∧
      (∀ x c text, IsLatest log x c → c.summary = some text →
        (ofEvents log).events = visible.take (c.offset.getD 0) ++
          summaryEvent x text :: visible.drop (c.offset.getD 0)) ∧
      ((∀ x c, IsLatest log x c → c.summary = none) →
        (ofEvents log).events = visible) := by
  refine ⟨retained .standard log, guaranteed_retained hdistinct, ?_, ?_⟩
  · intro x c text hlatest htext
    exact events_of_summary (latest?_eq_some_iff.mpr hlatest) htext
  · intro hnone
    exact events_of_no_summary fun x c hlatest => hnone x c (latest?_eq_some_iff.mp hlatest)

/-- A log with a call answered twice, a batch forgotten in part, a forgotten anchor with batches
before and after its condensation, and a result of no call. -/
def disorderly : List Event :=
  [said "u", reasoned "a1" "b1" "c1", succeeded "r1" "c1" "a1", called "a2" "b2" "c2",
    condensed "k1" ["a1", "r1"] 1, called "a3" "b3" "c3", failed "f3" "c3" "a3",
    succeeded "r3" "c3" "a3", called "a4" "b4" "c4", called "a5" "b4" "c5",
    condensed "k2" ["a1", "r1", "a5"] 1, succeeded "stray" "c9" "gone"]

theorem exists_guaranteed_disorderly :
    (ids disorderly).Nodup ∧ ∃ visible, Guaranteed disorderly visible ∧
      (∀ x c text, IsLatest disorderly x c → c.summary = some text →
        (ofEvents disorderly).events = visible.take (c.offset.getD 0) ++
          summaryEvent x text :: visible.drop (c.offset.getD 0)) ∧
      ((∀ x c, IsLatest disorderly x c → c.summary = none) →
        (ofEvents disorderly).events = visible) :=
  ⟨by decide, exists_guaranteed disorderly (by decide)⟩

example : ids (ofEvents disorderly).events =
    [⟨"u"⟩, ⟨"k2-summary"⟩, ⟨"a3"⟩, ⟨"r3"⟩, ⟨"stray"⟩] := by
  decide +kernel

end AgentMemory.View
