import AgentMemory.Proofs.Batching.Legal
import AgentMemory.Proofs.Event
import Mathlib.Logic.Function.Iterate

/-!
# The greatest permitted selection

A model drops ids in rounds: in each round all that its rules find in what is left. A round that
finds something finds a new id, so the rounds come to an end (`exists_iterate_round`). What is left
then is the greatest selection that the rules permit (`survivors_greatest`); it is the same in
whatever order the rules are listed, it loses nothing when the rules are applied again, and it grows
with the events kept as long as none that is added bears the id of another.
-/

namespace AgentMemory.Batching

open Sample (said called succeeded)

variable {kept larger history selection : List Event}

/-! ## Permitted selections -/

/-- A selection of events that keeps the three rules in a history. -/
structure Permitted (history selection : List Event) : Prop where
  /-- Of each batch all events are selected, or none. -/
  whole : ∀ b, (∀ x ∈ history, x.batch? = some b → x.id ∈ ids selection) ∨
    ∀ x ∈ history, x.batch? = some b → x.id ∉ ids selection
  /-- A result is selected only with its action, if that is in the history. -/
  answered : ∀ e ∈ selection, ∀ a, e.answer? = some a → a.action ∈ ids history →
    a.action ∈ ids selection
  /-- When the last batch that carries reasoning is not selected as a whole, an event of a batch
  that begins after it is selected only if a condensation that forgot it came before that
  beginning. -/
  anchored : ∀ b, Reasons history b →
    (∀ later, Precedes history b later → ¬ Reasons history later) →
    (∃ x ∈ history, x.batch? = some b ∧ x.id ∉ ids selection) →
    ∀ e ∈ selection, ∀ later, e.batch? = some later → Precedes history b later →
      Released history b later

theorem permitted_iff : Permitted history selection ↔ Legal history selection := by
  constructor
  · intro h
    refine ⟨fun x hx y hy b hxb hyb hid => ?_, h.answered, fun b hb x hx hxb hid e he later hlater
      hel => ?_⟩
    · rcases h.whole b with hall | hnone
      · exact hall y hy hyb
      · exact absurd hid (hnone x hx hxb)
    · obtain ⟨hreasons, hlast⟩ := anchor?_eq_some_iff.mp hb
      obtain ⟨hprec, hreleased⟩ := mem_dependents.mp hlater
      exact hreleased (h.anchored b hreasons hlast ⟨x, hx, hxb, hid⟩ e he later hel hprec)
  · intro h
    refine ⟨fun b => ?_, h.answered, fun b hreasons hlast hgone e he later hel hprec => ?_⟩
    · by_cases hsome : ∃ x ∈ history, x.batch? = some b ∧ x.id ∈ ids selection
      · obtain ⟨x, hx, hxb, hid⟩ := hsome
        exact Or.inl fun y hy hyb => h.whole x hx y hy b hxb hyb hid
      · exact Or.inr fun x hx hxb hid => hsome ⟨x, hx, hxb, hid⟩
    · obtain ⟨x, hx, hxb, hid⟩ := hgone
      by_contra hreleased
      exact h.anchored b (anchor?_eq_some_iff.mpr ⟨hreasons, hlast⟩) x hx hxb hid e he later
        (mem_dependents.mpr ⟨hprec, hreleased⟩) hel

namespace Model

variable {m : Model}

/-! ## Rounds -/

/-- One round: the ids dropped so far, and those that the rules find then. -/
def round (m : Model) (kept history : List Event) (removed : List EventId) : List EventId :=
  removed ++ m.fresh kept history removed

theorem exists_iterate_round (m : Model) (kept history : List Event) (removed : List EventId) :
    ∃ n ≤ (remaining kept history removed).length,
      (m.round kept history)^[n] removed = m.enforceFrom kept history removed := by
  fun_induction m.enforceFrom kept history removed with
  | case1 removed new hnew => exact ⟨0, Nat.zero_le _, rfl⟩
  | case2 removed new hnew ih =>
    obtain ⟨n, hn, hrounds⟩ := ih
    have hlt := remaining_lt (Bool.eq_false_iff.mpr hnew)
    exact ⟨n + 1, Nat.lt_of_le_of_lt hn hlt, hrounds⟩

theorem remaining_nil : remaining kept history [] = ids history ++ ids kept := by
  simp [remaining]

/-! ## Survivors -/

/-- What a model leaves of the events kept. -/
def survivors (m : Model) (kept history : List Event) : List Event :=
  kept.filter (·.id ∉ m.enforce kept history)

theorem mem_survivors {e : Event} :
    e ∈ m.survivors kept history ↔ e ∈ kept ∧ e.id ∉ m.enforce kept history := by
  simp only [survivors, List.mem_filter, decide_eq_true_eq]

theorem mem_survivors_of_id {e : Event} (he : e ∈ kept)
    (hid : e.id ∈ ids (m.survivors kept history)) : e ∈ m.survivors kept history :=
  mem_survivors.mpr ⟨he, not_mem_of_mem_ids_filter hid⟩

/-- No event of a legal selection by id is lost. -/
theorem mem_survivors_of_legal (hlegal : Legal history selection) (hsub : selection ⊆ kept)
    (hfull : ∀ e ∈ kept, e.id ∈ ids selection → e ∈ selection) {e : Event} (he : e ∈ selection) :
    e ∈ m.survivors kept history :=
  mem_survivors.mpr ⟨hsub he, m.not_mem_enforce hlegal hsub hfull (id_mem_ids he)⟩

theorem sublist_survivors {chosen : Event → Bool} (hlegal : Legal history (kept.filter chosen))
    (hfull : ∀ e ∈ kept, e.id ∈ ids (kept.filter chosen) → e ∈ kept.filter chosen) :
    (kept.filter chosen).Sublist (m.survivors kept history) := by
  have hchosen : kept.filter chosen = (m.survivors kept history).filter chosen := by
    rw [survivors, List.filter_filter]
    refine List.filter_congr fun e he => ?_
    by_cases hc : chosen e = true
    · have hmem : e ∈ m.survivors kept history :=
        mem_survivors_of_legal hlegal (fun x hx => List.mem_of_mem_filter hx) hfull
          (List.mem_filter.mpr ⟨he, hc⟩)
      simp [hc, (mem_survivors.mp hmem).2]
    · simp [hc]
  rw [hchosen]
  exact List.filter_sublist

theorem survivors_eq (hall : ∀ r, r ∈ m.rules) :
    m.survivors kept history = standard.survivors kept history := by
  refine List.Sublist.antisymm ?_ ?_
  · exact sublist_survivors (legal_enforce hall kept history) fun e he => mem_survivors_of_id he
  · exact sublist_survivors (legal_enforce mem_rules_standard kept history) fun e he =>
      mem_survivors_of_id he

theorem survivors_survivors :
    standard.survivors (standard.survivors kept history) history =
      standard.survivors kept history :=
  List.filter_eq_self.mpr fun _ he => decide_eq_true
    (standard.not_mem_enforce (legal_enforce mem_rules_standard kept history)
      (List.Subset.refl _) (fun _ hx _ => hx) (id_mem_ids he))

theorem survivors_sublist (hsub : kept.Sublist larger)
    (hfull : ∀ x ∈ kept, ∀ y ∈ larger, y.id = x.id → y ∈ kept) :
    (standard.survivors kept history).Sublist (standard.survivors larger history) := by
  have hlegal := legal_enforce mem_rules_standard kept history
  have hmem : ∀ e ∈ standard.survivors kept history, e ∈ standard.survivors larger history := by
    intro e he
    refine mem_survivors_of_legal hlegal (fun x hx => hsub.subset (List.mem_of_mem_filter hx))
      (fun y hy hid => ?_) he
    obtain ⟨x, hx, hxy⟩ := mem_ids.mp hid
    exact mem_survivors_of_id (hfull x (List.mem_of_mem_filter hx) y hy hxy.symm) hid
  have hself : (standard.survivors kept history).filter (·.id ∉ standard.enforce larger history) =
      standard.survivors kept history :=
    List.filter_eq_self.mpr fun e he => decide_eq_true (mem_survivors.mp (hmem e he)).2
  rw [← hself]
  exact (List.filter_sublist.trans hsub).filter _

/-- **What the standard model leaves is the greatest permitted selection by id.** The rounds come to
an end; no permitted selection loses an event; and the survivors depend on nothing but the events
kept and the history. -/
theorem survivors_greatest (kept history : List Event) :
    (∃ n ≤ (ids history ++ ids kept).length,
      (standard.round kept history)^[n] [] = standard.enforce kept history ∧
        standard.round kept history (standard.enforce kept history) =
          standard.enforce kept history) ∧
    Permitted history (standard.survivors kept history) ∧
    (∀ chosen : EventId → Bool, Permitted history (kept.filter (chosen ·.id)) →
      (kept.filter (chosen ·.id)).Sublist (standard.survivors kept history)) ∧
    (∀ m : Model, m.rules.Perm standard.rules →
      m.survivors kept history = standard.survivors kept history) ∧
    standard.survivors (standard.survivors kept history) history =
      standard.survivors kept history ∧
    (∀ larger, kept.Sublist larger → (∀ x ∈ kept, ∀ y ∈ larger, y.id = x.id → y ∈ kept) →
      (standard.survivors kept history).Sublist (standard.survivors larger history)) := by
  refine ⟨?_, ?_, fun chosen hchosen => ?_, fun m hm => ?_, survivors_survivors,
    fun larger => survivors_sublist⟩
  · obtain ⟨n, hn, hrounds⟩ := standard.exists_iterate_round kept history []
    rw [remaining_nil] at hn
    refine ⟨n, hn, hrounds, ?_⟩
    rw [round, enforce, fresh_enforceFrom, List.append_nil]
  · exact permitted_iff.mpr (legal_enforce mem_rules_standard kept history)
  · refine sublist_survivors (permitted_iff.mp hchosen) fun e he hid => ?_
    obtain ⟨x, hx, hxe⟩ := mem_ids.mp hid
    exact List.mem_filter.mpr ⟨he, hxe ▸ (List.mem_filter.mp hx).2⟩
  · exact survivors_eq fun r => hm.mem_iff.mpr (mem_rules_standard r)

/-- Where events share an id, more events kept can leave fewer: here the id is dropped for a result
without its action, and a message goes with it. -/
theorem survivors_of_shared_id :
    [said "x"].Sublist [said "x", succeeded "x" "c1" "a1"] ∧
      ¬ (standard.survivors [said "x"] [called "a1" "b1" "c1"]).length ≤
        (standard.survivors [said "x", succeeded "x" "c1" "a1"] [called "a1" "b1" "c1"]).length :=
  ⟨List.sublist_append_left _ [_], by decide +kernel⟩

end Model
end AgentMemory.Batching
