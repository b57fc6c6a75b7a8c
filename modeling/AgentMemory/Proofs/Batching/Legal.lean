import AgentMemory.Batching.Model
import AgentMemory.Proofs.Batching.Order

/-!
# Legal selections

A selection of the events of a history is legal when every rule accepts it. What a model leaves of
the events kept is the greatest legal selection of them: it is legal (`legal_enforce`), and no legal
selection loses an event (`not_mem_enforce`).
-/

namespace AgentMemory.Batching

/-- A selection of events that every rule accepts in a history. -/
structure Legal (history selection : List Event) : Prop where
  whole : ∀ x ∈ history, ∀ y ∈ history, ∀ b, x.batch? = some b → y.batch? = some b →
    x.id ∈ ids selection → y.id ∈ ids selection
  answered : ∀ e ∈ selection, ∀ a, e.answer? = some a → a.action ∈ ids history →
    a.action ∈ ids selection
  anchored : ∀ b, anchor? history = some b → ∀ x ∈ history, x.batch? = some b →
    x.id ∉ ids selection → ∀ e ∈ selection, ∀ later ∈ dependents b history,
      e.batch? ≠ some later

theorem legal_snoc_iff {history selection : List Event} {e : Event} (hbatch : e.batch? = none)
    (hanswer : ∀ x ∈ selection, ∀ a, x.answer? = some a → a.action ≠ e.id) :
    Legal (history ++ [e]) selection ↔ Legal history selection := by
  have hmem : ∀ {x b}, x.batch? = some b → (x ∈ history ++ [e] ↔ x ∈ history) := by
    intro x b hx
    rw [List.mem_append, List.mem_singleton, or_iff_left]
    rintro rfl
    simp [hbatch] at hx
  constructor
  · intro h
    refine ⟨fun x hx y hy b hxb hyb => ?_, fun x hx a ha haction => ?_, fun b hb x hx hxb hid y hy
      later hlater => ?_⟩
    · exact h.whole x ((hmem hxb).mpr hx) y ((hmem hyb).mpr hy) b hxb hyb
    · refine h.answered x hx a ha ?_
      rw [ids_append]
      exact List.mem_append_left _ haction
    · exact h.anchored b (by rwa [anchor?_snoc hbatch]) x ((hmem hxb).mpr hx) hxb hid y hy later
        ((mem_dependents_snoc_iff hbatch).mpr hlater)
  · intro h
    refine ⟨fun x hx y hy b hxb hyb => ?_, fun x hx a ha haction => ?_, fun b hb x hx hxb hid y hy
      later hlater => ?_⟩
    · exact h.whole x ((hmem hxb).mp hx) y ((hmem hyb).mp hy) b hxb hyb
    · refine h.answered x hx a ha ?_
      rw [ids_append, List.mem_append] at haction
      exact haction.resolve_right fun h => hanswer x hx a ha (by simpa [ids] using h)
    · exact h.anchored b (by rwa [anchor?_snoc hbatch] at hb) x ((hmem hxb).mp hx) hxb hid y hy
        later ((mem_dependents_snoc_iff hbatch).mp hlater)

/-! ## What the rules remove -/

namespace Rule

variable {kept history : List Event} {id : EventId}

theorem mem_removals_batchAtomicity :
    id ∈ batchAtomicity.removals kept history ↔
      ∃ b, id ∈ ids (members b history) ∧ (∃ x ∈ members b history, x.id ∈ ids kept) ∧
        ∃ y ∈ members b history, y.id ∉ ids kept := by
  simp only [removals, List.mem_flatMap, List.mem_filter, isPartial, Bool.and_eq_true,
    List.any_eq_true, decide_eq_true_eq, mem_batchIds]
  constructor
  · rintro ⟨b, ⟨-, ⟨i, hi, hik⟩, j, hj, hjk⟩, hid⟩
    obtain ⟨x, hx, rfl⟩ := mem_ids.mp hi
    obtain ⟨y, hy, rfl⟩ := mem_ids.mp hj
    exact ⟨b, hid, ⟨x, hx, hik⟩, y, hy, hjk⟩
  · rintro ⟨b, hid, ⟨x, hx, hxk⟩, y, hy, hyk⟩
    exact ⟨b, ⟨⟨x, mem_members.mp hx⟩, ⟨_, id_mem_ids hx, hxk⟩, _, id_mem_ids hy, hyk⟩, hid⟩

theorem isOrphan_iff {e : Event} :
    isOrphan kept history e = true ↔
      ∃ a, e.answer? = some a ∧ a.action ∈ ids history ∧ a.action ∉ ids kept := by
  rw [isOrphan]
  cases e.answer? with
  | none => simp
  | some a => simp only [Bool.and_eq_true, decide_eq_true_eq, Option.some.injEq, exists_eq_left']

theorem mem_removals_toolCallMatching :
    id ∈ toolCallMatching.removals kept history ↔
      ∃ e ∈ kept, e.id = id ∧ ∃ a, e.answer? = some a ∧ a.action ∈ ids history ∧
        a.action ∉ ids kept := by
  simp only [removals, mem_ids, List.mem_filter, isOrphan_iff]
  exact exists_congr fun e => by rw [and_assoc, and_comm (b := e.id = id)]

theorem inAny_iff {batches : List BatchId} {e : Event} :
    inAny batches e = true ↔ ∃ b ∈ batches, e.batch? = some b := by
  rw [inAny]
  cases e.batch? with
  | none => simp
  | some b => simp only [decide_eq_true_eq, Option.some.injEq, exists_eq_right']

theorem mem_unanchored {later : BatchId} :
    later ∈ unanchored kept history ↔
      ∃ b, anchor? history = some b ∧ (∃ x ∈ members b history, x.id ∉ ids kept) ∧
        later ∈ dependents b history := by
  rw [unanchored]
  cases anchor? history with
  | none => simp
  | some b =>
    simp only [Option.some.injEq, exists_eq_left']
    split
    next hall =>
      have hnone : ¬ ∃ x ∈ members b history, x.id ∉ ids kept := by
        rintro ⟨x, hx, hxk⟩
        exact hxk (by simpa using List.all_eq_true.mp hall _ (id_mem_ids hx))
      simp [hnone]
    next hall =>
      have hsome : ∃ x ∈ members b history, x.id ∉ ids kept := by
        simp only [List.all_eq_true, decide_eq_true_eq, not_forall] at hall
        obtain ⟨i, hi, hik⟩ := hall
        obtain ⟨x, hx, rfl⟩ := mem_ids.mp hi
        exact ⟨x, hx, hik⟩
      exact ⟨fun hlater => ⟨hsome, hlater⟩, fun h => h.2⟩

theorem mem_removals_reasoningTail :
    id ∈ reasoningTail.removals kept history ↔
      ∃ e ∈ kept, e.id = id ∧ ∃ b, anchor? history = some b ∧
        (∃ x ∈ members b history, x.id ∉ ids kept) ∧
        ∃ later ∈ dependents b history, e.batch? = some later := by
  simp only [removals, mem_ids, List.mem_filter, inAny_iff, mem_unanchored]
  constructor
  · rintro ⟨e, ⟨he, later, ⟨b, hb, hx, hlater⟩, hel⟩, hid⟩
    exact ⟨e, he, hid, b, hb, hx, later, hlater, hel⟩
  · rintro ⟨e, he, hid, b, hb, hx, later, hlater, hel⟩
    exact ⟨e, ⟨he, later, ⟨b, hb, hx, hlater⟩, hel⟩, hid⟩

theorem not_mem_removals {selection : List Event} (hlegal : Legal history selection)
    (hsub : selection ⊆ kept) (hfull : ∀ e ∈ kept, e.id ∈ ids selection → e ∈ selection)
    (hid : id ∈ ids selection) (r : Rule) : id ∉ r.removals kept history := by
  have hids : ids selection ⊆ ids kept := List.map_subset _ hsub
  intro hmem
  cases r with
  | batchAtomicity =>
    obtain ⟨b, hb, -, y, hy, hyk⟩ := mem_removals_batchAtomicity.mp hmem
    obtain ⟨x, hx, hxb, rfl⟩ := mem_ids_members.mp hb
    obtain ⟨hy, hyb⟩ := mem_members.mp hy
    exact hyk (hids (hlegal.whole x hx y hy b hxb hyb hid))
  | toolCallMatching =>
    obtain ⟨e, he, rfl, a, ha, hhistory, hkept⟩ := mem_removals_toolCallMatching.mp hmem
    exact hkept (hids (hlegal.answered e (hfull e he hid) a ha hhistory))
  | reasoningTail =>
    obtain ⟨e, he, rfl, b, hb, ⟨x, hx, hxk⟩, later, hlater, hel⟩ :=
      mem_removals_reasoningTail.mp hmem
    obtain ⟨hx, hxb⟩ := mem_members.mp hx
    exact hlegal.anchored b hb x hx hxb (fun h => hxk (hids h)) e (hfull e he hid) later hlater hel

theorem removals_eq_nil (hlegal : Legal history kept) (r : Rule) :
    r.removals kept history = [] := by
  refine List.eq_nil_iff_forall_not_mem.mpr fun id hmem => ?_
  cases r with
  | batchAtomicity =>
    obtain ⟨b, -, ⟨x, hx, hxk⟩, y, hy, hyk⟩ := mem_removals_batchAtomicity.mp hmem
    obtain ⟨hx, hxb⟩ := mem_members.mp hx
    obtain ⟨hy, hyb⟩ := mem_members.mp hy
    exact hyk (hlegal.whole x hx y hy b hxb hyb hxk)
  | toolCallMatching =>
    obtain ⟨e, he, -, a, ha, hhistory, hkept⟩ := mem_removals_toolCallMatching.mp hmem
    exact hkept (hlegal.answered e he a ha hhistory)
  | reasoningTail =>
    obtain ⟨e, he, -, b, hb, ⟨x, hx, hxk⟩, later, hlater, hel⟩ :=
      mem_removals_reasoningTail.mp hmem
    obtain ⟨hx, hxb⟩ := mem_members.mp hx
    exact hlegal.anchored b hb x hx hxb hxk e he later hlater hel

end Rule

/-! ## What a model removes -/

namespace Model

variable {m : Model} {kept history : List Event}

/-- What holds of the ids removed at first, and stays true when the rules remove more, holds of all
ids that a model removes. -/
theorem enforceFrom_induction {motive : List EventId → Prop}
    (hstep : ∀ removed, motive removed → motive (removed ++ m.fresh kept history removed))
    (removed : List EventId) (h : motive removed) :
    motive (m.enforceFrom kept history removed) := by
  fun_induction m.enforceFrom kept history removed with
  | case1 removed => exact h
  | case2 removed new hnew ih => exact ih (hstep removed h)

theorem fresh_enforceFrom (removed : List EventId) :
    m.fresh kept history (m.enforceFrom kept history removed) = [] := by
  fun_induction m.enforceFrom kept history removed with
  | case1 removed new hnew => exact List.isEmpty_iff.mp hnew
  | case2 removed new hnew ih => exact ih

theorem mem_enforce_of_mem_removals {r : Rule} (hr : r ∈ m.rules) {id : EventId}
    (hid : id ∈ r.removals (kept.filter (·.id ∉ m.enforce kept history)) history) :
    id ∈ m.enforce kept history := by
  by_contra hnot
  have hfresh : id ∈ m.fresh kept history (m.enforce kept history) := by
    simp only [fresh, found, List.mem_eraseDups, List.mem_filter, List.mem_flatMap,
      decide_eq_true_eq]
    exact ⟨⟨r, hr, hid⟩, hnot⟩
  rw [enforce, fresh_enforceFrom] at hfresh
  simp at hfresh

theorem not_mem_of_mem_ids_filter {removed : List EventId} {id : EventId}
    (h : id ∈ ids (kept.filter (·.id ∉ removed))) : id ∉ removed := by
  obtain ⟨e, he, rfl⟩ := mem_ids.mp h
  simpa using (List.mem_filter.mp he).2

theorem mem_rules_standard (r : Rule) : r ∈ standard.rules := by
  cases r <;> simp [standard]

/-- **What a model with all three rules leaves is legal.** -/
theorem legal_enforce (hall : ∀ r, r ∈ m.rules) (kept history : List Event) :
    Legal history (kept.filter (·.id ∉ m.enforce kept history)) where
  whole := by
    intro x hx y hy b hxb hyb hid
    by_contra hnot
    refine not_mem_of_mem_ids_filter hid ?_
    refine mem_enforce_of_mem_removals (hall .batchAtomicity) ?_
    exact Rule.mem_removals_batchAtomicity.mpr ⟨b, mem_ids_members.mpr ⟨x, hx, hxb, rfl⟩,
      ⟨x, mem_members.mpr ⟨hx, hxb⟩, hid⟩, y, mem_members.mpr ⟨hy, hyb⟩, hnot⟩
  answered := by
    intro e he a ha hhistory
    by_contra hnot
    refine not_mem_of_mem_ids_filter (id_mem_ids he) ?_
    refine mem_enforce_of_mem_removals (hall .toolCallMatching) ?_
    exact Rule.mem_removals_toolCallMatching.mpr ⟨e, he, rfl, a, ha, hhistory, hnot⟩
  anchored := by
    intro b hb x hx hxb hnot e he later hlater hel
    refine not_mem_of_mem_ids_filter (id_mem_ids he) ?_
    refine mem_enforce_of_mem_removals (hall .reasoningTail) ?_
    exact Rule.mem_removals_reasoningTail.mpr ⟨e, he, rfl, b, hb,
      ⟨x, mem_members.mpr ⟨hx, hxb⟩, hnot⟩, later, hlater, hel⟩

/-- **No model removes an event of a legal selection** that is closed in the events kept. -/
theorem not_mem_enforce (m : Model) {selection : List Event} (hlegal : Legal history selection)
    (hsub : selection ⊆ kept) (hfull : ∀ e ∈ kept, e.id ∈ ids selection → e ∈ selection)
    {id : EventId} (hid : id ∈ ids selection) : id ∉ m.enforce kept history := by
  refine enforceFrom_induction (motive := fun removed => ∀ id ∈ ids selection, id ∉ removed)
    (fun removed hremoved id hid hmem => ?_) [] (by simp) id hid
  rcases List.mem_append.mp hmem with hmem | hmem
  · exact hremoved id hid hmem
  · simp only [fresh, found, List.mem_eraseDups, List.mem_filter, List.mem_flatMap,
      decide_eq_true_eq] at hmem
    obtain ⟨⟨r, -, hr⟩, -⟩ := hmem
    refine Rule.not_mem_removals hlegal (fun e he => ?_) (fun e he => ?_) hid r hr
    · exact List.mem_filter.mpr ⟨hsub he, by simpa using hremoved e.id (id_mem_ids he)⟩
    · exact hfull e (List.mem_filter.mp he).1

/-- **A model removes nothing from a legal selection.** -/
theorem enforce_eq_nil (hlegal : Legal history kept) : m.enforce kept history = [] := by
  have hkept : (kept.filter fun e => decide (e.id ∉ ([] : List EventId))) = kept :=
    List.filter_eq_self.mpr fun e _ => by simp
  have hfound : m.found kept history [] = [] := by
    rw [found, hkept]
    exact List.flatMap_eq_nil_iff.mpr fun r _ => Rule.removals_eq_nil hlegal r
  have hfresh : m.fresh kept history [] = [] := by
    rw [fresh, hfound]
    rfl
  rw [enforce, enforceFrom]
  simp [hfresh]

end Model
end AgentMemory.Batching
