import AgentMemory.Proofs.Condenser.Projection

/-!
# What is appended in the meantime

A condensation is made of the view of a log, but it takes effect after the events that were appended
while its summary was written. Of those events it hides the ones that are `Displaced`
(`events_meantime`): the rules tie the batches before a condensation to the anchor that it forgets,
wherever its range was chosen. When no other condensation came in between this is the only reason,
the anchor was the anchor before, and only the batches begun in the meantime are reached.
-/

namespace AgentMemory

open Batching (anchor? batchIds dependents ids)
open View (Stands candidates forgottenIds retained)
open Sample (said called reasoned succeeded)

/-- An event is of a batch, or answers an action of it. -/
def Belongs (log : List Event) (e : Event) (b : BatchId) : Prop :=
  e.batch? = some b ∨
    ∃ a x, e.answer? = some a ∧ x ∈ log ∧ x.id = a.action ∧ x.batch? = some b

/-- Of the anchor something is forgotten, and an event belongs to a batch that depends on it. -/
structure Unanchored (log : List Event) (d : Condensation) (e : Event) (anchor later : BatchId) :
    Prop where
  last : anchor? log = some anchor
  forgotten : ∃ x ∈ log, x.batch? = some anchor ∧ x.id ∈ d.forgotten
  depends : later ∈ dependents anchor log
  belongs : Belongs log e later

/-- An event is a result, and another of its call that is not forgotten is preferred. -/
def Outranked (log : List Event) (d : Condensation) (e : Event) : Prop :=
  ∃ w ∈ log, w.id ∉ d.forgotten ∧ Outranks log w e

/-- Of the batch of an event, or of the action that it answers, something is forgotten. -/
def Parted (log : List Event) (d : Condensation) (e : Event) : Prop :=
  ∃ b, Belongs log e b ∧ ∃ x ∈ log, x.batch? = some b ∧ x.id ∈ d.forgotten

/-- The reasons for which a condensation hides an event that it does not forget. -/
inductive Displaced (log : List Event) (d : Condensation) (e : Event) : Prop
  | unanchored (anchor later : BatchId) (h : Unanchored log d e anchor later)
  | outranked (h : Outranked log d e)
  | parted (h : Parted log d e)

/-- Events that may be appended to a log before a condensation of its view arrives. -/
structure Meantime (log more : List Event) (s : Stamp) (d : Condensation) : Prop where
  distinct : (ids (log ++ more ++ [.condensation s d])).Nodup
  fresh : ∀ x ∈ more, x.id ∉ forgottenIds log
  begun : ∀ x ∈ more, ∀ b, x.batch? = some b → b ∉ batchIds log
  matched : ∀ y ∈ more, ∀ a, y.answer? = some a →
    ∃ x p, x.asAction? = some p ∧ x.id = a.action ∧ Before (log ++ more) x y

variable {log more : List Event} {e : Event} {b : BatchId} {s : Stamp} {d : Condensation}

theorem Belongs.unique (hdistinct : (ids log).Nodup) {b' : BatchId} (h : Belongs log e b)
    (h' : Belongs log e b') : b = b' := by
  rcases h with h | ⟨a, x, ha, hx, hxa, hxb⟩
  · rcases h' with h' | ⟨a, -, ha, -⟩
    · exact Option.some.inj (h.symm.trans h')
    · simp [Event.answer?_of_batch? h] at ha
  · rcases h' with h' | ⟨a', x', ha', hx', hxa', hxb'⟩
    · simp [Event.answer?_of_batch? h'] at ha
    · cases ha.symm.trans ha'
      rw [Batching.eq_of_id_eq hdistinct hx hx' (hxa.trans hxa'.symm)] at hxb
      exact Option.some.inj (hxb.symm.trans hxb')

/-! ## What a condensation forgets -/

section

variable {c : Condenser} {summarize : Summarizer}
  (hcondense : c.condense summarize (.ofEvents log) = .ok d)
include hcondense

theorem Condenser.forgottenIds_subset : forgottenIds log ⊆ d.forgotten := by
  obtain ⟨r, text, -, -, rfl⟩ := condense_eq_ok hcondense
  exact fun id hid => mem_forgotten_condensation.mpr (Or.inl hid)

theorem Condenser.retained_of_mem_forgotten {id : EventId} (hid : id ∈ d.forgotten) :
    id ∈ forgottenIds log ∨ ∃ x ∈ retained .standard log, x.id = id := by
  obtain ⟨r, text, hselect, -, rfl⟩ := condense_eq_ok hcondense
  rcases mem_forgotten_condensation.mp hid with hid | ⟨x, hx, hs, rfl⟩
  · exact Or.inl hid
  · refine Or.inr ⟨x, (View.mem_events (select_subset hselect hx)).resolve_right ?_, rfl⟩
    exact fun hsum => by simp [hsum.isSummary] at hs

variable {x y : Event} (hdistinct : (ids log).Nodup)
include hdistinct

theorem Condenser.exists_select :
    ∃ r, c.select (.ofEvents log) = .ok r ∧ ∀ x ∈ log, x.isSummary = false →
      x.id ∉ forgottenIds log → (x ∈ r.events ↔ x.id ∈ d.forgotten) := by
  obtain ⟨r, text, hselect, -, rfl⟩ := condense_eq_ok hcondense
  refine ⟨r, hselect, fun x hx hs hnew => ?_⟩
  rw [mem_forgotten_condensation]
  refine ⟨fun hr => Or.inr ⟨x, hr, hs, rfl⟩, fun hid => ?_⟩
  obtain ⟨y, hy, hys, hid⟩ := hid.resolve_left hnew
  have hylog : y ∈ retained .standard log :=
    (View.mem_events (select_subset hselect hy)).resolve_right fun hsum => by
      simp [hsum.isSummary] at hys
  rwa [← Batching.eq_of_id_eq hdistinct (View.retained_subset hylog) hx hid]

variable (hmodel : c.model = .standard) (hx : x ∈ log) (hxb : x.batch? = some b)
  (hnew : x.id ∉ forgottenIds log) (hforgotten : x.id ∈ d.forgotten)
include hmodel hx hxb hnew hforgotten

theorem Condenser.forgets_batch (hy : y ∈ log) (hyb : y.batch? = some b) :
    y ∈ (View.ofEvents log).events ∧ y.id ∈ d.forgotten := by
  obtain ⟨r, hselect, hr⟩ := exists_select hcondense hdistinct
  have hxr := (hr x hx (Event.isSummary_of_batch? hxb) hnew).mpr hforgotten
  have hyretained := View.mem_retained_of_mem_batch hdistinct
    (View.mem_retained_of_batch? (select_subset hselect hxr) hxb) hxb hy hyb
  have hyv := (View.retained_sublist_events log).subset hyretained
  have hyr := mem_select_of_batch hmodel hselect rfl hxr hxb hyv hyb
  refine ⟨hyv, (hr y hy (Event.isSummary_of_batch? hyb) ?_).mp hyr⟩
  exact View.not_mem_forgottenIds hdistinct hyretained

/-- With the anchor a condensation forgets what is retained of the batches that depend on it. -/
theorem Condenser.forgets_dependents {later : BatchId} (hanchor : anchor? log = some b)
    (hlater : later ∈ dependents b log) (hy : y ∈ retained .standard log)
    (hyl : y.batch? = some later) : y.id ∈ d.forgotten := by
  obtain ⟨r, hselect, hr⟩ := exists_select hcondense hdistinct
  have hxr := (hr x hx (Event.isSummary_of_batch? hxb) hnew).mpr hforgotten
  have hxv := select_subset hselect hxr
  have hyv := (View.retained_sublist_events log).subset hy
  have hprec := View.precedes_events hdistinct (Batching.mem_dependents.mp hlater).1 hxv hxb hyv hyl
  have hyr := mem_select_of_anchor hmodel hselect rfl hxr hxb hyv
    (View.anchor?_events hdistinct hanchor hxv hxb) (View.mem_dependents_events.mpr hprec) hyl
  refine (hr y (View.retained_subset hy) (Event.isSummary_of_batch? hyl) ?_).mp hyr
  exact View.not_mem_forgottenIds hdistinct hy

end

/-! ## The batches that stand after a condensation -/

section

variable {k : Event} (hk : k.asCondensation? = some d)
include hk

theorem stands_snoc_of_not_displaced (hb : Belongs log e b) (h : ¬ Displaced log d e) :
    Stands (log ++ [k]) b := by
  have hkb := Event.batch?_of_asCondensation? hk
  have hmem : ∀ {x b}, x ∈ log ++ [k] → x.batch? = some b → x ∈ log := fun hx hxb => by
    refine (List.mem_append.mp hx).resolve_right fun hx => ?_
    simp [List.mem_singleton.mp hx, hkb] at hxb
  have hforgotten : forgottenIds (log ++ [k]) = d.forgotten :=
    View.forgottenIds_snoc_condensation hk
  refine ⟨fun x hx hxb hf => h ?_, fun anchor hanchor hdepends x hx hxb hf => h ?_⟩
  · exact .parted ⟨b, hb, x, hmem hx hxb, hxb, hforgotten ▸ hf⟩
  · exact .unanchored anchor b ⟨Batching.anchor?_snoc hkb ▸ hanchor,
      ⟨x, hmem hx hxb, hxb, hforgotten ▸ hf⟩,
      (Batching.mem_dependents_snoc_iff hkb).mp hdepends, hb⟩

theorem not_displaced_of_stands (hdistinct : (ids log).Nodup) (hb : Belongs log e b)
    (hbest : ¬ Outranked log d e) (hstands : Stands (log ++ [k]) b) : ¬ Displaced log d e := by
  have hkb := Event.batch?_of_asCondensation? hk
  have hforgotten : forgottenIds (log ++ [k]) = d.forgotten :=
    View.forgottenIds_snoc_condensation hk
  rintro (⟨anchor, later, hanchor, ⟨x, hx, hxb, hf⟩, hlater, he⟩ | hrank | ⟨b', he, x, hx, hxb, hf⟩)
  · cases hb.unique hdistinct he
    refine hstands.anchored anchor ?_ ((Batching.mem_dependents_snoc_iff hkb).mpr hlater) x
      (List.mem_append_left _ hx) hxb (hforgotten ▸ hf)
    rwa [Batching.anchor?_snoc hkb]
  · exact hbest hrank
  · cases hb.unique hdistinct he
    exact hstands.kept x (List.mem_append_left _ hx) hxb (hforgotten ▸ hf)

end

theorem not_displaced_of_unbatched (hb : e.batch? = none) (ha : e.answer? = none) :
    ¬ Displaced log d e := by
  have hnone : ∀ b, ¬ Belongs log e b := by
    rintro b (hb' | ⟨a, -, ha', -⟩)
    · simp [hb] at hb'
    · simp [ha] at ha'
  rintro (⟨anchor, later, -, -, -, hbelongs⟩ | ⟨w, -, -, -, a, -, ha', -⟩ | ⟨b, hbelongs, -⟩)
  · exact hnone later hbelongs
  · simp [ha] at ha'
  · exact hnone b hbelongs

/-! ## What a condensation hides -/

namespace Meantime

theorem of_positions (hdistinct : (ids (log ++ more ++ [.condensation s d])).Nodup)
    (hfresh : ∀ x ∈ more, x.id ∉ forgottenIds log)
    (hbegun : ∀ x ∈ more, ∀ b ∈ x.batch?, b ∉ batchIds log)
    (hmatched : ∀ k < more.length, ∀ y ∈ more[k]?, ∀ a ∈ y.answer?, ∃ x ∈ log ++ more.take k,
      x.id = a.action ∧ x.asAction?.isSome) : Meantime log more s d where
  distinct := hdistinct
  fresh := hfresh
  begun := hbegun
  matched := by
    intro y hy a ha
    obtain ⟨before, after, rfl⟩ := List.append_of_mem hy
    obtain ⟨x, hx, hxa, hp⟩ := hmatched before.length (by simp) y (by simp) a ha
    rw [List.take_left] at hx
    obtain ⟨p, hp⟩ := Option.isSome_iff_exists.mp hp
    refine ⟨x, p, hp, hxa, ?_⟩
    rw [← List.append_assoc]
    exact Before.of_mem hx (by simp)

theorem distinct_before (h : Meantime log more s d) : (ids (log ++ more)).Nodup := by
  have hdistinct := h.distinct
  rw [Batching.ids_append] at hdistinct
  exact (List.nodup_append.mp hdistinct).1

theorem id_ne (h : Meantime log more s d) {x y : Event} (hx : x ∈ log) (hy : y ∈ more) :
    x.id ≠ y.id := by
  have hdistinct := h.distinct_before
  rw [Batching.ids_append] at hdistinct
  exact (List.nodup_append.mp hdistinct).2.2 _ (Batching.id_mem_ids hx) _ (Batching.id_mem_ids hy)

theorem distinct_log (h : Meantime log more s d) : (ids log).Nodup := by
  have hdistinct := h.distinct_before
  rw [Batching.ids_append] at hdistinct
  exact (List.nodup_append.mp hdistinct).1

theorem batch?_ne (h : Meantime log more s d) (hb : b ∈ batchIds log) :
    ∀ x ∈ more, x.batch? ≠ some b := fun x hx hxb => h.begun x hx b hxb hb

theorem mem_log_of_batch? (h : Meantime log more s d) {x : Event} (hx : x ∈ log ++ more)
    (hxb : x.batch? = some b) (hb : b ∈ batchIds log) : x ∈ log :=
  (List.mem_append.mp hx).resolve_right fun hx => h.begun x hx b hxb hb

/-- A condensation of the view of a log forgets nothing that comes after the log. -/
theorem not_mem_forgotten (h : Meantime log more s d) {c : Condenser} {summarize : Summarizer}
    (hcondense : c.condense summarize (.ofEvents log) = .ok d) {x : Event} (hx : x ∈ more) :
    x.id ∉ d.forgotten := by
  intro hid
  rcases Condenser.retained_of_mem_forgotten hcondense hid with hid | ⟨y, hy, hyx⟩
  · exact h.fresh x hx hid
  · exact h.id_ne (View.retained_subset hy) hx hyx

theorem mem_log_of_mem_forgotten (h : Meantime log more s d) {c : Condenser}
    {summarize : Summarizer} (hcondense : c.condense summarize (.ofEvents log) = .ok d) {x : Event}
    (hx : x ∈ log ++ more) (hf : x.id ∈ d.forgotten) : x ∈ log :=
  (List.mem_append.mp hx).resolve_right fun hx => h.not_mem_forgotten hcondense hx hf

end Meantime

section

variable (hmeantime : Meantime log more s d) (he : e ∈ more)
include hmeantime he

theorem Condenser.mem_retained_snoc_iff_of_batch? (hb : e.batch? = some b) :
    e ∈ retained .standard (log ++ more ++ [.condensation s d]) ↔
      ¬ Displaced (log ++ more) d e := by
  have hlog : e ∈ log ++ more := List.mem_append_right _ he
  have hbelongs : Belongs (log ++ more) e b := Or.inl hb
  rw [View.mem_retained_iff_of_batch? hmeantime.distinct (List.mem_append_left _ hlog) hb]
  refine ⟨fun hstands => ?_, stands_snoc_of_not_displaced rfl hbelongs⟩
  refine not_displaced_of_stands rfl hmeantime.distinct_before hbelongs ?_ hstands
  rintro ⟨w, -, -, -, a, -, ha, -⟩
  simp [Event.answer?_of_batch? hb] at ha

variable {c : Condenser} {summarize : Summarizer}
  (hcondense : c.condense summarize (.ofEvents log) = .ok d)
include hcondense

theorem Condenser.mem_retained_snoc_iff_of_answer? {a : Answer} (ha : e.answer? = some a) :
    e ∈ retained .standard (log ++ more ++ [.condensation s d]) ↔
      ¬ Displaced (log ++ more) d e := by
  have hdistinct := hmeantime.distinct
  obtain ⟨x, p, hp, hxa, hxe⟩ := hmeantime.matched e he a ha
  have hxb := Event.batch?_of_asAction? hp
  have hx := List.mem_append_left [Event.condensation s d] hxe.mem_left
  have hbelongs : Belongs (log ++ more) e p.batch := Or.inr ⟨a, x, ha, hxe.mem_left, hxa, hxb⟩
  rw [View.mem_retained_iff_of_answer? hdistinct ha hx hxa,
    View.mem_retained_iff_of_batch? hdistinct hx hxb,
    View.mem_candidates_snoc_condensation rfl hdistinct]
  refine ⟨fun ⟨⟨_, _, _, hbest⟩, hstands⟩ => ?_, fun h => ⟨⟨?_, ?_, ?_, ?_⟩, ?_⟩⟩
  · refine not_displaced_of_stands rfl hmeantime.distinct_before hbelongs ?_ hstands
    exact fun ⟨w, hw, hkept, hrank⟩ => hbest w hw hkept hrank
  · exact List.mem_append_right _ he
  · exact Event.isShowable_of_answer? ha
  · exact hmeantime.not_mem_forgotten hcondense he
  · exact fun w hw hkept hrank => h (.outranked ⟨w, hw, hkept, hrank⟩)
  · exact stands_snoc_of_not_displaced rfl hbelongs h

theorem Condenser.mem_retained_snoc_of_unbatched (hb : e.batch? = none) (ha : e.answer? = none)
    (hshowable : e.isShowable = true) :
    e ∈ retained .standard (log ++ more ++ [.condensation s d]) := by
  have hdistinct := hmeantime.distinct
  refine View.mem_retained_of_unbatched hdistinct ?_ hb fun a ha' => by simp [ha] at ha'
  refine (View.mem_candidates_snoc_condensation rfl hdistinct).mpr ⟨?_, hshowable, ?_, ?_⟩
  · exact List.mem_append_right _ he
  · exact hmeantime.not_mem_forgotten hcondense he
  · rintro w - - ⟨-, a, -, ha', -⟩
    simp [ha] at ha'

theorem Condenser.mem_events_snoc_iff (hvisible : e ∈ (View.ofEvents (log ++ more)).events) :
    e ∈ (View.ofEvents (log ++ more ++ [.condensation s d])).events ↔
      ¬ Displaced (log ++ more) d e := by
  have hshow := (View.retained_sublist_events (log ++ more ++ [.condensation s d])).subset (a := e)
  cases hb : e.batch? with
  | some b =>
    rw [← mem_retained_snoc_iff_of_batch? hmeantime he hb]
    exact ⟨fun h => View.mem_retained_of_batch? h hb, hshow⟩
  | none =>
    cases ha : e.answer? with
    | some a =>
      rw [← mem_retained_snoc_iff_of_answer? hmeantime he hcondense ha]
      exact ⟨fun h => View.mem_retained_of_answer? h ha, hshow⟩
    | none =>
      have hshowable := View.isShowable_of_mem_events hvisible
      exact iff_of_true
        (hshow (mem_retained_snoc_of_unbatched hmeantime he hcondense hb ha hshowable))
        (not_displaced_of_unbatched hb ha)

end

/-! ## When nothing else is condensed in the meantime -/

theorem Belongs.stands (hdistinct : (ids log).Nodup) (hvisible : e ∈ (View.ofEvents log).events)
    (hlog : e ∈ log) (h : Belongs log e b) : Stands log b := by
  rcases h with hb | ⟨a, x, ha, hx, hxa, hxb⟩
  · exact (View.mem_retained_iff_of_batch? hdistinct hlog hb).mp
      (View.mem_retained_of_batch? hvisible hb)
  · have hretained := (View.mem_retained_iff_of_answer? hdistinct ha hx hxa).mp
      (View.mem_retained_of_answer? hvisible ha)
    exact (View.mem_retained_iff_of_batch? hdistinct hx hxb).mp hretained.2

theorem View.Stands.of_append {anchor : BatchId} (h : Stands (log ++ more) b)
    (hold : forgottenIds (log ++ more) = forgottenIds log)
    (hanchor : anchor? (log ++ more) = some anchor) (hbefore : anchor? log = some anchor)
    (hdepends : b ∈ dependents anchor (log ++ more)) : Stands log b := by
  refine ⟨fun x hx hxb => ?_, fun anchor' hanchor' _ x hx hxb => ?_⟩
  · exact hold ▸ h.kept x (List.mem_append_left _ hx) hxb
  · cases hbefore.symm.trans hanchor'
    exact hold ▸ h.anchored anchor hanchor hdepends x (List.mem_append_left _ hx) hxb

section

variable {c : Condenser} {summarize : Summarizer} (hmeantime : Meantime log more s d)
  (hcondense : c.condense summarize (.ofEvents log) = .ok d)
  (hplain : ∀ x ∈ more, x.asCondensation? = none)
  (hvisible : e ∈ (View.ofEvents (log ++ more)).events)
include hmeantime hcondense hplain hvisible

theorem Condenser.not_outranked : ¬ Outranked (log ++ more) d e := by
  rintro ⟨w, hw, hkept, hrank⟩
  obtain ⟨-, a, -, ha, -⟩ := id hrank
  have hcandidate := (View.mem_candidates hmeantime.distinct_before).mp
    ((View.retained_sublist_candidates _ _).subset (View.mem_retained_of_answer? hvisible ha))
  refine hcandidate.2.2.2 w hw (fun hwf => hkept ?_) hrank
  rw [View.forgottenIds_append_of_none hplain] at hwf
  exact forgottenIds_subset hcondense hwf

variable (hmodel : c.model = .standard) (he : e ∈ more)
  (haction : ∀ a, e.answer? = some a → a.action ∉ d.forgotten)
include hmodel he haction

theorem Condenser.not_parted : ¬ Parted (log ++ more) d e := by
  rintro ⟨b, hbelongs, x, hx, hxb, hf⟩
  have hstands := hbelongs.stands hmeantime.distinct_before hvisible (List.mem_append_right _ he)
  have hxlog := hmeantime.mem_log_of_mem_forgotten hcondense hx hf
  have hnew : x.id ∉ forgottenIds log :=
    View.forgottenIds_append_of_none hplain ▸ hstands.kept x hx hxb
  have hblog := Batching.mem_batchIds.mpr ⟨x, hxlog, hxb⟩
  rcases hbelongs with hb | ⟨a, z, ha, hz, hza, hzb⟩
  · exact hmeantime.begun e he b hb hblog
  · have hzlog := hmeantime.mem_log_of_batch? hz hzb hblog
    have hzf :=
      (forgets_batch hcondense hmeantime.distinct_log hmodel hxlog hxb hnew hf hzlog hzb).2
    exact haction a ha (hza ▸ hzf)

/-- An anchor that is forgotten was in the view as a whole and is forgotten as a whole, and what
depended on it then has gone with it. -/
theorem Condenser.unanchored_cases {anchor later : BatchId}
    (h : Unanchored (log ++ more) d e anchor later) :
    anchor? log = some anchor ∧
      (∀ x ∈ log, x.batch? = some anchor →
        x ∈ (View.ofEvents log).events ∧ x.id ∈ d.forgotten) ∧
      later ∉ batchIds log := by
  have hdistinct := hmeantime.distinct_log
  have hold : forgottenIds (log ++ more) = forgottenIds log :=
    View.forgottenIds_append_of_none hplain
  obtain ⟨hanchor, ⟨x, hx, hxb, hf⟩, hlater, hbelongs⟩ := h
  have hstands := hbelongs.stands hmeantime.distinct_before hvisible (List.mem_append_right _ he)
  have hnew : x.id ∉ forgottenIds log := hold ▸ hstands.anchored anchor hanchor hlater x hx hxb
  have hxlog := hmeantime.mem_log_of_mem_forgotten hcondense hx hf
  have hnone := hmeantime.batch?_ne (Batching.mem_batchIds.mpr ⟨x, hxlog, hxb⟩)
  have hanchorlog := Batching.anchor?_of_append hnone hanchor
  refine ⟨hanchorlog, fun y hy hyb => ?_, fun hlaterlog => ?_⟩
  · exact forgets_batch hcondense hdistinct hmodel hxlog hxb hnew hf hy hyb
  · rcases hbelongs with hb | ⟨a, z, ha, hz, hza, hzl⟩
    · exact hmeantime.begun e he later hb hlaterlog
    -- the action would have been forgotten with the anchor
    · have hzlog := hmeantime.mem_log_of_batch? hz hzl hlaterlog
      have hzretained := (View.mem_retained_iff_of_batch? hdistinct hzlog hzl).mpr
        (hstands.of_append hold hanchor hanchorlog hlater)
      exact haction a ha (hza ▸ forgets_dependents hcondense hdistinct hmodel hxlog hxb hnew hf
        hanchorlog (Batching.mem_dependents_of_append hnone hlaterlog hlater) hzretained hzl)

end

/-- **Of the events appended while a summary is written, the condensation hides those that are
displaced.** When no other condensation comes in between, only a forgotten anchor displaces, and it
is the anchor of before, which goes from the view as a whole; it displaces batches begun in the
meantime and their results. -/
theorem Condenser.events_meantime {c : Condenser} {summarize : Summarizer}
    (hmodel : c.model = .standard) (hmeantime : Meantime log more s d)
    (hcondense : c.condense summarize (.ofEvents log) = .ok d) (he : e ∈ more)
    (hvisible : e ∈ (View.ofEvents (log ++ more)).events) :
    (e ∈ (View.ofEvents (log ++ more ++ [.condensation s d])).events ↔
      ¬ Displaced (log ++ more) d e) ∧
    ((∀ x ∈ more, x.asCondensation? = none) →
      (∀ a, e.answer? = some a → a.action ∉ d.forgotten) →
      ¬ Outranked (log ++ more) d e ∧ ¬ Parted (log ++ more) d e ∧
        ∀ anchor later, Unanchored (log ++ more) d e anchor later →
          anchor? log = some anchor ∧
            (∀ x ∈ log, x.batch? = some anchor →
              x ∈ (View.ofEvents log).events ∧ x.id ∈ d.forgotten) ∧
            later ∉ batchIds log) := by
  refine ⟨mem_events_snoc_iff hmeantime he hcondense hvisible, fun hplain haction =>
    ⟨?_, ?_, fun anchor later h => ?_⟩⟩
  · exact not_outranked hmeantime hcondense hplain hvisible
  · exact not_parted hmeantime hcondense hplain hvisible hmodel he haction
  · exact unanchored_cases hmeantime hcondense hplain hvisible hmodel he haction h

namespace Sample

/-- A short log, with or without reasoning in its batch. -/
def brief (action : Event) : List Event := [said "u", action, succeeded "r1" "c1" "a1", said "v"]

def briefly (forgotten : List String) : Condensation where
  forgotten := forgotten.map .mk
  summary := some "later"
  offset := some 1
  turn := some ⟨"b1"⟩

end Sample

open Sample (keeper brief briefly stamp)

namespace Condenser

theorem condense_brief_reasoned :
    keeper.condense (fun _ => .ok "later") (.ofEvents (brief (reasoned "a1" "b1" "c1"))) =
      .ok (briefly ["a1", "r1", "v"]) := by
  with_unfolding_all rfl

theorem meantime_brief_reasoned :
    Meantime (brief (reasoned "a1" "b1" "c1")) [called "a2" "b2" "c2"] (stamp "k1")
      (briefly ["a1", "r1", "v"]) :=
  .of_positions (by decide +kernel) (by decide +kernel) (by decide +kernel) (by decide +kernel)

theorem mem_events_brief_reasoned :
    called "a2" "b2" "c2" ∈ (View.ofEvents (brief (reasoned "a1" "b1" "c1") ++
      [called "a2" "b2" "c2"])).events :=
  (View.retained_sublist_events _).subset
    ((View.mem_retained_iff_of_batch? (by decide +kernel) (by simp) rfl).mpr (by decide +kernel))

theorem unanchored_brief_reasoned :
    Unanchored (brief (reasoned "a1" "b1" "c1") ++ [called "a2" "b2" "c2"])
      (briefly ["a1", "r1", "v"]) (called "a2" "b2" "c2") ⟨"b1"⟩ ⟨"b2"⟩ where
  last := by decide +kernel
  forgotten := ⟨reasoned "a1" "b1" "c1", by simp [brief], rfl, by decide⟩
  depends := by decide +kernel
  belongs := Or.inl rfl

theorem events_meantime_brief :
    (keeper.condense (fun _ => .ok "later") (.ofEvents (brief (called "a1" "b1" "c1"))) =
        .ok (briefly ["a1", "r1"]) ∧
      called "a2" "b2" "c2" ∈ (View.ofEvents (brief (called "a1" "b1" "c1") ++
        [called "a2" "b2" "c2", succeeded "r2" "c2" "a2"])).events ∧
      (called "a2" "b2" "c2" ∈ (View.ofEvents (brief (called "a1" "b1" "c1") ++
          [called "a2" "b2" "c2", succeeded "r2" "c2" "a2"] ++
            [.condensation (stamp "k1") (briefly ["a1", "r1"])])).events ↔
        ¬ Displaced (brief (called "a1" "b1" "c1") ++
          [called "a2" "b2" "c2", succeeded "r2" "c2" "a2"]) (briefly ["a1", "r1"])
            (called "a2" "b2" "c2"))) ∧
    (anchor? (brief (reasoned "a1" "b1" "c1")) = some ⟨"b1"⟩ ∧
      (∀ x ∈ brief (reasoned "a1" "b1" "c1"), x.batch? = some ⟨"b1"⟩ →
        x ∈ (View.ofEvents (brief (reasoned "a1" "b1" "c1"))).events ∧
          x.id ∈ (briefly ["a1", "r1", "v"]).forgotten) ∧
      (⟨"b2"⟩ : BatchId) ∉ batchIds (brief (reasoned "a1" "b1" "c1"))) := by
  have hmeantime : Meantime (brief (called "a1" "b1" "c1"))
      [called "a2" "b2" "c2", succeeded "r2" "c2" "a2"] (stamp "k1") (briefly ["a1", "r1"]) :=
    .of_positions (by decide +kernel) (by decide +kernel) (by decide +kernel) (by decide +kernel)
  have hcondense : keeper.condense (fun _ => .ok "later")
      (.ofEvents (brief (called "a1" "b1" "c1"))) = .ok (briefly ["a1", "r1"]) := by
    with_unfolding_all rfl
  have hvisible : called "a2" "b2" "c2" ∈ (View.ofEvents (brief (called "a1" "b1" "c1") ++
      [called "a2" "b2" "c2", succeeded "r2" "c2" "a2"])).events :=
    (View.retained_sublist_events _).subset
      ((View.mem_retained_iff_of_batch? (by decide +kernel) (by simp) rfl).mpr (by decide +kernel))
  refine ⟨⟨hcondense, hvisible,
    (events_meantime rfl hmeantime hcondense (by simp) hvisible).1⟩, ?_⟩
  have hplain : ∀ x ∈ [called "a2" "b2" "c2"], x.asCondensation? = none := by decide
  have honly := (events_meantime rfl meantime_brief_reasoned condense_brief_reasoned (by simp)
    mem_events_brief_reasoned).2 hplain fun a ha => by cases ha
  exact honly.2.2 _ _ unanchored_brief_reasoned

/-- With reasoning in that batch, a call made in the meantime is lost: it was visible, and the
condensation does not forget it. -/
theorem lost_in_the_meantime :
    keeper.condense (fun _ => .ok "later") (.ofEvents (brief (reasoned "a1" "b1" "c1"))) =
        .ok (briefly ["a1", "r1", "v"]) ∧
      Meantime (brief (reasoned "a1" "b1" "c1")) [called "a2" "b2" "c2"] (stamp "k1")
        (briefly ["a1", "r1", "v"]) ∧
      called "a2" "b2" "c2" ∈ (View.ofEvents (brief (reasoned "a1" "b1" "c1") ++
        [called "a2" "b2" "c2"])).events ∧
      (called "a2" "b2" "c2").answer? = none ∧
      called "a2" "b2" "c2" ∉ (View.ofEvents (brief (reasoned "a1" "b1" "c1") ++
        [called "a2" "b2" "c2"] ++
          [.condensation (stamp "k1") (briefly ["a1", "r1", "v"])])).events := by
  refine ⟨condense_brief_reasoned, meantime_brief_reasoned, mem_events_brief_reasoned, rfl,
    fun h => ?_⟩
  have hstands := (View.mem_retained_iff_of_batch? (by decide +kernel) (by simp) rfl).mp
    (View.mem_retained_of_batch? h rfl)
  exact absurd hstands (by decide +kernel)

end Condenser
end AgentMemory
