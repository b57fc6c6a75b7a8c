import AgentMemory.Proofs.Condenser.Projection

/-!
# Runs

A log grows event by event. Most events come from outside; condensations are made by a condenser
from the view of the log so far, each by a condenser of its own if need be. In a run nothing that is
forgotten is remembered later, and a result is forgotten only with its action.
-/

namespace AgentMemory

open Batching (ids)
open View (forgottenIds)

/-! ## Results and their actions -/

/-- Every result comes after the action that it names, and answers its call. -/
def Matched (log : List Event) : Prop :=
  ∀ y ∈ log, ∀ a, y.answer? = some a →
    ∃ x p, x.asAction? = some p ∧ x.id = a.action ∧ p.call = a.call ∧ Before log x y

namespace Matched

variable {log more : List Event}

theorem of_append (hdistinct : (ids (log ++ more)).Nodup) (h : Matched (log ++ more)) :
    Matched log := by
  intro y hy a ha
  obtain ⟨x, p, hp, hid, hcall, hbefore⟩ := h y (List.mem_append_left _ hy) a ha
  have hnodup := Batching.nodup_of_ids hdistinct
  have hx := hbefore.mem_of_mem_left hnodup hy
  exact ⟨x, p, hp, hid, hcall, hbefore.restrict hnodup (List.sublist_append_left _ _) hx hy⟩

theorem snoc {e : Event} (h : Matched log)
    (he : ∀ a, e.answer? = some a → ∃ x ∈ log, x.id = a.action ∧
      ∃ p, x.asAction? = some p ∧ p.call = a.call) : Matched (log ++ [e]) := by
  intro y hy a ha
  rcases List.mem_append.mp hy with hy | hy
  · obtain ⟨x, p, hp, hid, hcall, hbefore⟩ := h y hy a ha
    exact ⟨x, p, hp, hid, hcall, hbefore.of_sublist (List.sublist_append_left _ _)⟩
  · rw [List.mem_singleton.mp hy] at ha ⊢
    obtain ⟨x, hx, hid, p, hp, hcall⟩ := he a ha
    exact ⟨x, p, hp, hid, hcall, Before.of_mem hx (by simp)⟩

theorem answered (h : Matched log) : Answered log := by
  intro y hy a ha
  obtain ⟨x, p, -, hid, -, hbefore⟩ := h y hy a ha
  exact ⟨x, hid, hbefore⟩

theorem asAction? (h : Matched log) (hdistinct : (ids log).Nodup) {x y : Event} {a : Answer}
    (hx : x ∈ log) (hy : y ∈ log) (ha : y.answer? = some a) (hid : x.id = a.action) :
    ∃ p, x.asAction? = some p ∧ p.call = a.call := by
  obtain ⟨z, p, hp, hz, hcall, hbefore⟩ := h y hy a ha
  rw [Batching.eq_of_id_eq hdistinct hx hbefore.mem_left (hid.trans hz.symm)]
  exact ⟨p, hp, hcall⟩

end Matched

/-! ## Growing -/

/-- The logs that come about when events are appended that are admitted after the log so far, and
condensations that a condenser under the standard model makes of its view. -/
inductive Run (admits : List Event → Event → Prop) : List Event → Prop
  | nil : Run admits []
  | append {log : List Event} {e : Event} (h : Run admits log)
      (hplain : e.asCondensation? = none) (hadmits : admits log e) : Run admits (log ++ [e])
  | condense {log : List Event} {c : Condenser} {summarize : Summarizer} {s : Stamp}
      {d : Condensation} (h : Run admits log) (hmodel : c.model = .standard)
      (hcondense : c.condense summarize (.ofEvents log) = .ok d) :
      Run admits (log ++ [.condensation s d])

theorem Run.earlier {admits : List Event → Event → Prop} {log later : List Event}
    (h : Run admits later) (hbegins : log <+: later) : Run admits log := by
  induction h with
  | nil =>
    rw [List.prefix_nil.mp hbegins]
    exact .nil
  | append h hplain hadmits ih =>
    rcases List.prefix_concat_iff.mp hbegins with rfl | hbegins
    · exact .append h hplain hadmits
    · exact ih hbegins
  | condense h hmodel hcondense ih =>
    rcases List.prefix_concat_iff.mp hbegins with rfl | hbegins
    · exact .condense h hmodel hcondense
    · exact ih hbegins

theorem Run.of_take {admits : List Event → Event → Prop} {log : List Event}
    (hplain : ∀ e ∈ log, e.asCondensation?.isNone)
    (hadmits : ∀ k < log.length, ∀ e ∈ log[k]?, admits (log.take k) e) : Run admits log := by
  induction log using List.reverseRecOn with
  | nil => exact .nil
  | append_singleton log e ih =>
    have hlog : Run admits log := by
      refine ih (fun x hx => hplain x (List.mem_append_left _ hx)) fun k hk x hx => ?_
      have := hadmits k (by simp; omega) x (by rwa [List.getElem?_append_left hk])
      rwa [List.take_append_of_le_length (Nat.le_of_lt hk)] at this
    refine hlog.append (Option.isNone_iff_eq_none.mp (hplain e (by simp))) ?_
    simpa using hadmits log.length (by simp) e (by simp)

/-! ## What is forgotten -/

section

variable {admits : List Event → Event → Prop} {log later : List Event}

theorem Run.forgottenIds_subset_ids (h : Run admits log) (hlog : Identified log)
    (hmatched : Matched log) : forgottenIds log ⊆ ids log := by
  induction h with
  | nil => exact List.Subset.refl _
  | append h hplain hadmits ih =>
    rw [View.forgottenIds_snoc_of_none hplain, Batching.ids_append]
    exact List.Subset.trans (ih hlog.of_append (hmatched.of_append hlog.distinct))
      (List.subset_append_left _ _)
  | condense h hmodel hcondense ih =>
    have hold := hmatched.of_append hlog.distinct
    obtain ⟨r, text, -, -, hc⟩ :=
      Condenser.condensing_of_condense hmodel hlog hold.answered hcondense
    rw [hc.forgottenIds_eq, Batching.ids_append]
    exact List.Subset.trans (hc.forgotten_subset (ih hlog.of_append hold))
      (List.subset_append_left _ _)

theorem Run.forgottenIds_subset (h : Run admits later) (hlater : Identified later)
    (hmatched : Matched later) (hbegins : log <+: later) :
    forgottenIds log ⊆ forgottenIds later := by
  induction h with
  | nil =>
    rw [List.prefix_nil.mp hbegins]
    exact List.Subset.refl _
  | append h hplain hadmits ih =>
    rcases List.prefix_concat_iff.mp hbegins with rfl | hbegins
    · exact List.Subset.refl _
    · rw [View.forgottenIds_snoc_of_none hplain]
      exact ih hlater.of_append (hmatched.of_append hlater.distinct) hbegins
  | condense h hmodel hcondense ih =>
    rcases List.prefix_concat_iff.mp hbegins with rfl | hbegins
    · exact List.Subset.refl _
    · have hold := hmatched.of_append hlater.distinct
      obtain ⟨r, text, -, -, hc⟩ :=
        Condenser.condensing_of_condense hmodel hlater hold.answered hcondense
      rw [hc.forgottenIds_eq]
      exact List.Subset.trans (ih hlater.of_append hold hbegins) hc.subset_forgotten

theorem Run.action_mem_forgottenIds (h : Run admits log) (hlog : Identified log)
    (hmatched : Matched log) {y : Event} {a : Answer} (hy : y ∈ log) (ha : y.answer? = some a)
    (hyf : y.id ∈ forgottenIds log) : a.action ∈ forgottenIds log := by
  induction h with
  | nil => simp at hy
  | append h hplain hadmits ih =>
    have hold := hmatched.of_append hlog.distinct
    rw [View.forgottenIds_snoc_of_none hplain] at hyf ⊢
    rcases List.mem_append.mp hy with hy | hy
    · exact ih hlog.of_append hold hy hyf
    · rw [List.mem_singleton.mp hy] at hyf
      exact absurd (h.forgottenIds_subset_ids hlog.of_append hold hyf) hlog.not_mem_ids
  | @condense log c summarize s d h hmodel hcondense ih =>
    have hold := hmatched.of_append hlog.distinct
    obtain ⟨r, text, -, -, hc⟩ :=
      Condenser.condensing_of_condense hmodel hlog hold.answered hcondense
    rw [hc.forgottenIds_eq] at hyf ⊢
    have hy := hc.mem_log_of_answer? hy ha
    by_cases hold' : y.id ∈ forgottenIds log
    · exact hc.subset_forgotten (ih hlog.of_append hold hy hold')
    · refine hc.action_mem_forgotten hold.answered hy ha hold' hyf fun x hx hxa => ?_
      obtain ⟨p, hp, -⟩ := hold.asAction? hc.old.distinct hx hy ha hxa
      exact Event.isSummary_of_batch? (Event.batch?_of_asAction? hp)

end

end AgentMemory
