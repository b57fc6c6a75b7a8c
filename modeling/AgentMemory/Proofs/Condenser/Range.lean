import AgentMemory.Condenser
import AgentMemory.Proofs.View.Events

/-!
# The range that a condenser selects

Both ends of the range are places where the view may be cut, so nothing else has to go with it
(`selected_of_select`): what is to be forgotten is the range itself, and the summary takes its
place.
-/

namespace AgentMemory

open Batching (BatchCut Cut Model NoAnswerAhead ids)

namespace Condenser

variable {c : Condenser} {v : View} {r : ForgottenRange}

/-- A range of the events of a view that may be taken out, between a head and a tail. -/
structure Selected (v : View) (r : ForgottenRange) (head tail : List Event) : Prop where
  events : v.events = head ++ r.events ++ tail
  nonempty : r.events ≠ []
  start : Cut head (r.events ++ tail)
  stop : Cut (head ++ r.events) tail
  offset : r.offset = (head.filter fun e => !e.isSummary).length

theorem snap_le (v : View) (position : Nat) : snap v position ≤ v.size := by
  rw [snap]
  cases hfind : (v.cuts.map (Batching.boundaryOffset v.size)).find? (position ≤ ·) with
  | none => exact Nat.le_refl _
  | some o =>
    obtain ⟨k, -, rfl⟩ := List.mem_map.mp (List.mem_of_find?_eq_some hfind)
    exact Batching.boundaryOffset_le _ _

theorem snap_cases (hcuts : v.cuts = Model.standard.cuts v.events) (position : Nat) :
    snap v position = v.events.length ∨ ∃ k ∈ Model.standard.cuts v.events,
      snap v position = Batching.boundaryOffset v.events.length k := by
  rw [snap]
  cases hfind : (v.cuts.map (Batching.boundaryOffset v.size)).find? (position ≤ ·) with
  | none => exact Or.inl rfl
  | some o =>
    obtain ⟨k, hk, rfl⟩ := List.mem_map.mp (List.mem_of_find?_eq_some hfind)
    exact Or.inr ⟨k, hcuts ▸ hk, rfl⟩

theorem batchCut_snap (hcuts : v.cuts = Model.standard.cuts v.events) (position : Nat) :
    BatchCut (v.events.take (snap v position)) (v.events.drop (snap v position)) := by
  rcases snap_cases hcuts position with hsnap | ⟨k, hk, hsnap⟩
  · rw [hsnap, List.take_length, List.drop_length]
    exact (Batching.cut_end _).toBatchCut
  · rw [hsnap]
    exact Batching.batchCut_of_mem_cuts hk

theorem cut_snap (hdistinct : (ids v.events).Nodup) (hcuts : v.cuts = Model.standard.cuts v.events)
    (position : Nat) :
    Cut (v.events.take (snap v position)) (v.events.drop (snap v position)) := by
  rcases snap_cases hcuts position with hsnap | ⟨k, hk, hsnap⟩
  · rw [hsnap, List.take_length, List.drop_length]
    exact Batching.cut_end _
  · rw [hsnap]
    exact Batching.cut_of_mem_cuts hk hdistinct

private theorem map_filter_zipIdx {α : Type} (xs ys zs : List α) (p : α → Bool)
    (hxs : ∀ x ∈ xs, p x = false) (hzs : ∀ z ∈ zs, p z = false) :
    ((xs ++ ys ++ zs).zipIdx.filter fun (e, i) =>
      (decide (xs.length ≤ i) && decide (i < (xs ++ ys).length)) || p e).map (·.1) = ys := by
  have hpast : ∀ q ∈ xs.zipIdx, ¬ ((decide (xs.length ≤ q.2) &&
      decide (q.2 < (xs ++ ys).length)) || p q.1) = true := by
    rintro ⟨x, i⟩ hq
    obtain ⟨-, hi, hx⟩ := List.mem_zipIdx hq
    have := hxs x (hx ▸ List.getElem_mem _)
    simp only [this, Bool.or_false, Bool.and_eq_true, decide_eq_true_eq]
    omega
  have hrest : ∀ q ∈ zs.zipIdx (xs ++ ys).length, ¬ ((decide (xs.length ≤ q.2) &&
      decide (q.2 < (xs ++ ys).length)) || p q.1) = true := by
    rintro ⟨z, i⟩ hq
    obtain ⟨hi, -, hz⟩ := List.mem_zipIdx hq
    have := hzs z (hz ▸ List.getElem_mem _)
    simp only [this, Bool.or_false, Bool.and_eq_true, decide_eq_true_eq]
    omega
  have hrange : ∀ q ∈ ys.zipIdx xs.length, ((decide (xs.length ≤ q.2) &&
      decide (q.2 < (xs ++ ys).length)) || p q.1) = true := by
    rintro ⟨y, i⟩ hq
    obtain ⟨hi, hlt, -⟩ := List.mem_zipIdx hq
    simp only [List.length_append, Bool.or_eq_true, Bool.and_eq_true, decide_eq_true_eq]
    exact Or.inl ⟨hi, by omega⟩
  rw [List.zipIdx_append, List.zipIdx_append, List.filter_append, List.filter_append,
    List.filter_eq_nil_iff.mpr hpast, Nat.zero_add, List.filter_eq_self.mpr hrange, Nat.zero_add,
    List.filter_eq_nil_iff.mpr hrest]
  simp

/-! ## Selecting -/

/-- The events between the two ends of the range of a view. -/
def between (c : Condenser) (v : View) : List Event :=
  (v.events.take (c.rangeEnd v)).drop (c.rangeStart v)

def around (c : Condenser) (v : View) : List Event :=
  v.events.take (c.rangeStart v) ++ v.events.drop (c.rangeEnd v)

theorem length_take_rangeStart : (v.events.take (c.rangeStart v)).length = c.rangeStart v := by
  rw [List.length_take]
  exact Nat.min_eq_left (snap_le _ _)

section

variable (hlt : c.rangeStart v < c.rangeEnd v)
include hlt

theorem take_append_between :
    v.events.take (c.rangeStart v) ++ c.between v = v.events.take (c.rangeEnd v) := by
  have htake : v.events.take (c.rangeStart v) =
      (v.events.take (c.rangeEnd v)).take (c.rangeStart v) := by
    rw [List.take_take, Nat.min_eq_left (Nat.le_of_lt hlt)]
  rw [htake, between, List.take_append_drop]

theorem between_append_drop :
    c.between v ++ v.events.drop (c.rangeEnd v) = v.events.drop (c.rangeStart v) := by
  have hsplit := congrArg (List.drop (c.rangeStart v))
    (List.take_append_drop (c.rangeEnd v) v.events)
  have hle : c.rangeStart v ≤ (v.events.take (c.rangeEnd v)).length := by
    have := snap_le v (max (v.size - c.tailFor (c.target v)) (c.rangeStart v))
    rw [← rangeEnd, View.size] at this
    rw [List.length_take]
    omega
  rwa [List.drop_append_of_le_length hle] at hsplit

theorem events_eq_between :
    v.events = v.events.take (c.rangeStart v) ++ c.between v ++ v.events.drop (c.rangeEnd v) := by
  rw [take_append_between hlt, List.take_append_drop]

theorem length_take_append_between :
    (v.events.take (c.rangeStart v) ++ c.between v).length = c.rangeEnd v := by
  rw [take_append_between hlt, List.length_take]
  exact Nat.min_eq_left (snap_le _ _)

theorem between_ne_nil : c.between v ≠ [] := by
  intro hnil
  have hlength := length_take_append_between hlt
  rw [hnil, List.append_nil, length_take_rangeStart] at hlength
  omega

variable (hcuts : v.cuts = Model.standard.cuts v.events)
include hcuts

theorem batchCut_rangeStart :
    BatchCut (v.events.take (c.rangeStart v)) (c.between v ++ v.events.drop (c.rangeEnd v)) := by
  rw [between_append_drop hlt]
  exact batchCut_snap hcuts _

theorem batchCut_rangeEnd :
    BatchCut (v.events.take (c.rangeStart v) ++ c.between v) (v.events.drop (c.rangeEnd v)) := by
  rw [take_append_between hlt]
  exact batchCut_snap hcuts _

variable (hdistinct : (ids v.events).Nodup)
include hdistinct

theorem cut_rangeStart :
    Cut (v.events.take (c.rangeStart v)) (c.between v ++ v.events.drop (c.rangeEnd v)) := by
  rw [between_append_drop hlt]
  exact cut_snap hdistinct hcuts _

theorem cut_rangeEnd :
    Cut (v.events.take (c.rangeStart v) ++ c.between v) (v.events.drop (c.rangeEnd v)) := by
  rw [take_append_between hlt]
  exact cut_snap hdistinct hcuts _

theorem not_mem_enforce (hahead : NoAnswerAhead v.events) {e : Event}
    (he : e ∈ c.around v) : e.id ∉ Model.standard.enforce (c.around v) v.events := by
  have hlegal : Batching.Legal v.events (c.around v) :=
    Batching.legal_around (Nat.le_of_lt hlt) hdistinct hahead (cut_snap hdistinct hcuts _)
      (cut_snap hdistinct hcuts _)
  exact Model.not_mem_enforce .standard hlegal (List.Subset.refl _) (fun x hx _ => hx)
    (Batching.id_mem_ids he)

end

/-- **The selected range is taken out alone.** -/
theorem selected_of_select (hmodel : c.model = .standard) (hdistinct : (ids v.events).Nodup)
    (hcuts : v.cuts = Model.standard.cuts v.events) (hahead : NoAnswerAhead v.events)
    (h : c.select v = .ok r) :
    Selected v r (v.events.take (c.rangeStart v)) (v.events.drop (c.rangeEnd v)) := by
  rw [select, hmodel] at h
  split at h
  · cases h
  next hlt =>
  have hlt := Nat.lt_of_not_le hlt
  have hextra := fun {e} (he : e ∈ c.around v) => not_mem_enforce hlt hcuts hdistinct hahead he
  have hsplit := events_eq_between hlt
  rw [Except.ok.injEq] at h
  have hevents : r.events = c.between v := by
    rw [← h]
    have hmiddle := map_filter_zipIdx (v.events.take (c.rangeStart v)) (c.between v)
      (v.events.drop (c.rangeEnd v)) _
      (fun x hx => decide_eq_false (hextra (List.mem_append_left _ hx)))
      fun z hz => decide_eq_false (hextra (List.mem_append_right _ hz))
    rwa [← hsplit, length_take_append_between hlt, length_take_rangeStart] at hmiddle
  have hoffset : r.offset =
      ((v.events.take (c.rangeStart v)).filter fun e => !e.isSummary).length := by
    rw [← h]
    refine congrArg List.length (List.filter_congr fun e he => ?_)
    have hkept := hextra (List.mem_append_left _ he)
    rw [around] at hkept
    simp [hkept]
  rw [← hevents] at hsplit
  refine ⟨hsplit, hevents ▸ between_ne_nil hlt, ?_, ?_, hoffset⟩
  · exact hevents ▸ cut_rangeStart hlt hcuts hdistinct
  · exact hevents ▸ cut_rangeEnd hlt hcuts hdistinct

/-! ## What is left -/

private theorem mem_map_filter_zipIdx {α : Type} (xs ys zs : List α) (p : α → Bool) {e : α} :
    e ∈ (((xs ++ ys ++ zs).zipIdx.filter fun (e, i) =>
      (decide (xs.length ≤ i) && decide (i < (xs ++ ys).length)) || p e).map (·.1)) ↔
      e ∈ ys ∨ e ∈ xs ++ ys ++ zs ∧ p e = true := by
  simp only [List.mem_map, List.mem_filter, Prod.exists, exists_and_right, exists_eq_right,
    List.mem_zipIdx_iff_getElem?, Bool.or_eq_true, Bool.and_eq_true, decide_eq_true_eq]
  constructor
  · rintro ⟨i, hi, ⟨hle, hlt⟩ | hp⟩
    · rw [List.getElem?_append_left hlt, List.getElem?_append_right hle] at hi
      exact Or.inl (List.mem_of_getElem? hi)
    · exact Or.inr ⟨List.mem_of_getElem? hi, hp⟩
  · rintro (he | ⟨he, hp⟩)
    · obtain ⟨j, hj, rfl⟩ := List.mem_iff_getElem.mp he
      have hlt : xs.length + j < (xs ++ ys).length := by
        rw [List.length_append]
        omega
      refine ⟨xs.length + j, ?_, Or.inl ⟨Nat.le_add_right _ _, hlt⟩⟩
      rw [List.getElem?_append_left hlt, List.getElem?_append_right (Nat.le_add_right _ _)]
      simp [hj]
    · obtain ⟨i, hi, rfl⟩ := List.mem_iff_getElem.mp he
      exact ⟨i, List.getElem?_eq_getElem hi, Or.inr hp⟩

theorem mem_select_iff (h : c.select v = .ok r) {e : Event} :
    e ∈ r.events ↔ e ∈ c.between v ∨ e ∈ v.events ∧
      e.id ∈ c.model.enforce (c.around v) v.events := by
  rw [select] at h
  split at h
  · cases h
  next hlt =>
  have hlt := Nat.lt_of_not_le hlt
  rw [Except.ok.injEq] at h
  have hmem := mem_map_filter_zipIdx (v.events.take (c.rangeStart v)) (c.between v)
    (v.events.drop (c.rangeEnd v)) (fun e => decide (e.id ∈ c.model.enforce (c.around v) v.events))
    (e := e)
  rw [← h]
  rwa [← events_eq_between hlt, length_take_append_between hlt, length_take_rangeStart,
    decide_eq_true_eq] at hmem

theorem rangeStart_lt_of_select (h : c.select v = .ok r) : c.rangeStart v < c.rangeEnd v := by
  rw [select] at h
  split at h
  · cases h
  next hlt => exact Nat.lt_of_not_le hlt

theorem select_sublist (h : c.select v = .ok r) : r.events.Sublist v.events := by
  rw [select] at h
  split at h
  · cases h
  · cases h
    have hmap := fun p : Event × Nat → Bool =>
      (List.filter_sublist (p := p) (l := v.events.zipIdx)).map Prod.fst
    rw [List.zipIdx_map_fst] at hmap
    exact hmap _

theorem select_subset (h : c.select v = .ok r) : r.events ⊆ v.events := (select_sublist h).subset

/-- What the standard model leaves of the events around the range. -/
def left (c : Condenser) (v : View) : List Event :=
  (c.around v).filter (·.id ∉ Model.standard.enforce (c.around v) v.events)

theorem legal_left (c : Condenser) (v : View) : Batching.Legal v.events (c.left v) :=
  Model.legal_enforce Model.mem_rules_standard _ _

section

variable (hmodel : c.model = .standard) (h : c.select v = .ok r)
include hmodel h

theorem mem_left_of_not_mem_select {e : Event} (he : e ∈ v.events) (her : e ∉ r.events) :
    e ∈ c.left v := by
  rw [mem_select_iff h, hmodel, not_or, not_and] at her
  refine List.mem_filter.mpr ⟨?_, decide_eq_true (her.2 he)⟩
  rw [events_eq_between (rangeStart_lt_of_select h)] at he
  simp only [around, List.mem_append] at he ⊢
  tauto

variable (hcuts : v.cuts = Model.standard.cuts v.events) {x y : Event} {b : BatchId}
  (hx : x ∈ r.events) (hxb : x.batch? = some b) (hy : y ∈ v.events)
include hcuts hx hxb hy

/-- Of a batch in the view all events are selected, or none. -/
theorem mem_select_of_batch (hyb : y.batch? = some b) : y ∈ r.events := by
  have hlt := rangeStart_lt_of_select h
  rcases (mem_select_iff h).mp hx with hxm | ⟨hxv, hextra⟩
  · refine (mem_select_iff h).mpr (Or.inl ?_)
    rw [events_eq_between hlt] at hy
    exact Batching.mem_middle_of_batch (batchCut_rangeStart hlt hcuts) (batchCut_rangeEnd hlt hcuts)
      hxm hxb hy hyb
  · by_contra hyr
    have hid := (c.legal_left v).whole y hy x hxv b hyb hxb
      (Batching.id_mem_ids (mem_left_of_not_mem_select hmodel h hy hyr))
    exact Model.not_mem_of_mem_ids_filter hid (hmodel ▸ hextra)

/-- With the anchor of the view, what depends on it is selected. -/
theorem mem_select_of_anchor {later : BatchId} (hb : Batching.anchor? v.events = some b)
    (hlater : later ∈ Batching.dependents b v.events) (hyl : y.batch? = some later) :
    y ∈ r.events := by
  have hlt := rangeStart_lt_of_select h
  rcases (mem_select_iff h).mp hx with hxm | ⟨hxv, hextra⟩
  · refine (mem_select_iff h).mpr (Or.inl ?_)
    have hprec := (Batching.mem_dependents.mp hlater).1
    rw [events_eq_between hlt] at hb hprec hy
    have htail := Batching.tail_eq_nil_of_anchor (batchCut_rangeEnd hlt hcuts) hb hxm hxb
    have hhead := Batching.not_mem_head_of_precedes (batchCut_rangeStart hlt hcuts) hprec hxm hxb
      hyl
    simpa [htail, hhead] using hy
  · by_contra hyr
    exact (c.legal_left v).anchored b hb x hxv hxb
      (fun hid => Model.not_mem_of_mem_ids_filter hid (hmodel ▸ hextra)) y
      (mem_left_of_not_mem_select hmodel h hy hyr) later hlater hyl

end

/-! ## Condensing a log -/

theorem condense_eq_ok {summarize : Summarizer} {d : Condensation}
    (h : c.condense summarize v = .ok d) :
    ∃ r text, c.select v = .ok r ∧ summarize (request v r) = .ok text ∧
      d = condensation v r text := by
  rw [condense] at h
  cases hselect : c.select v with
  | error error => simp [hselect, bind, Except.bind] at h
  | ok r =>
    cases htext : summarize (request v r) with
    | error error => simp [hselect, htext, bind, Except.bind, Except.mapError] at h
    | ok text =>
      simp only [hselect, htext, bind, Except.bind, Except.mapError, pure, Except.pure,
        Except.ok.injEq] at h
      exact ⟨r, text, rfl, htext, h.symm⟩

theorem mem_forgotten_condensation {text : String} {id : EventId} :
    id ∈ (condensation v r text).forgotten ↔
      id ∈ v.forgotten ∨ ∃ e ∈ r.events, e.isSummary = false ∧ e.id = id := by
  simp only [condensation, List.mem_append, List.mem_map, List.mem_filter, Bool.and_eq_true,
    Bool.not_eq_true', decide_eq_true_eq]
  constructor
  · rintro (h | ⟨e, ⟨he, hs, -⟩, hid⟩)
    · exact Or.inl h
    · exact Or.inr ⟨e, he, hs, hid⟩
  · rintro (h | ⟨e, he, hs, rfl⟩)
    · exact Or.inl h
    · by_cases hf : e.id ∈ v.forgotten
      · exact Or.inl hf
      · exact Or.inr ⟨e, ⟨he, hs, hf⟩, rfl⟩

section

variable {log : List Event} (hselect : c.select (.ofEvents log) = .ok r)
include hselect

theorem filter_select_sublist :
    (r.events.filter fun e => !e.isSummary).Sublist (View.retained .standard log) := by
  have hfilter := (select_sublist hselect).filter fun e => !e.isSummary
  obtain ⟨before, after, hretained, hevents | ⟨s, hs, hevents⟩⟩ := View.events_split log
  · rw [hevents, ← hretained] at hfilter
    exact hfilter.trans List.filter_sublist
  · rw [hevents, List.filter_append, List.filter_cons_of_neg (by simp [hs.isSummary]),
      ← List.filter_append, ← hretained] at hfilter
    exact hfilter.trans List.filter_sublist

theorem forgotten_condensation (hdistinct : (ids log).Nodup) (text : String) :
    (condensation (.ofEvents log) r text).forgotten =
      View.forgottenIds log ++ ids (r.events.filter fun e => !e.isSummary) := by
  show View.forgottenIds log ++ _ = _
  congr 2
  refine List.filter_congr fun e he => ?_
  cases hs : e.isSummary with
  | true => rfl
  | false =>
    have hr : e ∈ View.retained .standard log :=
      (filter_select_sublist hselect).subset (List.mem_filter.mpr ⟨he, by simp [hs]⟩)
    have hnew : e.id ∉ (View.ofEvents log).forgotten := View.not_mem_forgottenIds hdistinct hr
    simp [hnew]

end

/-- A condensation of the view of a log, as an event after it: what it forgets is what was forgotten
and a range that was taken out of the view. -/
structure Condensing (log : List Event) (e : Event) (d : Condensation) (r : ForgottenRange)
    (head tail : List Event) : Prop where
  identified : Identified (log ++ [e])
  body : e.body = .condensation d
  selected : Selected (View.ofEvents log) r head tail
  forgotten : ∀ id, id ∈ d.forgotten ↔
    id ∈ View.forgottenIds log ∨ ∃ x ∈ r.events, x.isSummary = false ∧ x.id = id

theorem condensing_of_condense {log : List Event} {summarize : Summarizer} {s : Stamp}
    {d : Condensation} (hmodel : c.model = .standard)
    (hlog : Identified (log ++ [.condensation s d])) (hanswered : Answered log)
    (h : c.condense summarize (.ofEvents log) = .ok d) :
    ∃ r text, summarize (request (.ofEvents log) r) = .ok text ∧
      d = condensation (.ofEvents log) r text ∧
      Condensing log (.condensation s d) d r
        ((View.ofEvents log).events.take (c.rangeStart (.ofEvents log)))
        ((View.ofEvents log).events.drop (c.rangeEnd (.ofEvents log))) := by
  obtain ⟨r, text, hselect, htext, rfl⟩ := condense_eq_ok h
  have hold := hlog.of_append
  refine ⟨r, text, htext, rfl, hlog, rfl, ?_, fun id => mem_forgotten_condensation⟩
  have hdistinct := View.distinct_events hold
  exact selected_of_select hmodel hdistinct rfl
    ((View.answersFollow_events hold hanswered).noAnswerAhead (Batching.nodup_of_ids hdistinct))
    hselect

end Condenser
end AgentMemory
