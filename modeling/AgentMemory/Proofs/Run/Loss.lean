import AgentMemory.Proofs.Run.Basic

/-!
# Nothing is lost silently

In an orderly log an event is missing from the view only for a reason that can be named (`Excused`),
and no such reason ever goes away: what is missing once stays missing. Along a run the batches that
the rules would drop are those that a condensation forgot, so the rules themselves hide nothing but
results whose action is forgotten.
-/

namespace AgentMemory

open Batching (Legal Precedes Released anchor? batchIds dependents ids members)
open Condenser (Condensing)
open View (retained candidates forgottenIds)
open Sample (said called reasoned succeeded failed)

/-! ## Orderly logs -/

/-- A log in which calls are issued once, results come after their actions, and batches are not
interrupted. -/
structure Orderly (log : List Event) : Prop extends Identified log where
  issued : ∀ x ∈ log, ∀ y ∈ log, ∀ p q, x.asAction? = some p → y.asAction? = some q →
    p.call = q.call → x = y
  matched : Matched log
  /-- Between two events of a batch there is no condensation and no event of another batch. -/
  contiguous : ∀ x z y b, Before log x z → Before log z y → x.batch? = some b →
    y.batch? = some b → z.asCondensation? = none ∧ (z.batch? = none ∨ z.batch? = some b)

namespace Orderly

variable {log more : List Event}

theorem of_append (h : Orderly (log ++ more)) : Orderly log where
  toIdentified := h.toIdentified.of_append
  issued x hx y hy := h.issued x (List.mem_append_left _ hx) y (List.mem_append_left _ hy)
  matched := h.matched.of_append h.distinct
  contiguous x z y b hxz hzy :=
    h.contiguous x z y b (hxz.of_sublist (List.sublist_append_left _ _))
      (hzy.of_sublist (List.sublist_append_left _ _))

theorem of_positions (hlog : Identified log)
    (hissued : ∀ x ∈ log, ∀ y ∈ log, ∀ p ∈ x.asAction?, ∀ q ∈ y.asAction?, p.call = q.call →
      x.id = y.id)
    (hmatched : ∀ k < log.length, ∀ y ∈ log[k]?, ∀ a ∈ y.answer?, ∃ x ∈ log.take k,
      x.id = a.action ∧ x.asAction?.any fun p => p.call = a.call)
    (hcontiguous : ∀ k < log.length, ∀ z ∈ log[k]?, ∀ b ∈ batchIds (log.take k),
      b ∈ batchIds (log.drop (k + 1)) →
        z.asCondensation?.isNone ∧ (z.batch? = none ∨ z.batch? = some b)) : Orderly log where
  toIdentified := hlog
  issued x hx y hy p q hp hq hcall :=
    Batching.eq_of_id_eq hlog.distinct hx hy (hissued x hx y hy p hp q hq hcall)
  matched := by
    intro y hy a ha
    obtain ⟨before, after, rfl⟩ := List.append_of_mem hy
    obtain ⟨x, hx, hxa, hcall⟩ := hmatched before.length (by simp) y (by simp) a ha
    rw [List.take_left] at hx
    simp only [Option.any_eq_true, decide_eq_true_eq] at hcall
    obtain ⟨p, hp, hcall⟩ := hcall
    exact ⟨x, p, hp, hxa, hcall, Before.of_mem hx (by simp)⟩
  contiguous := by
    intro x z y b hxz hzy hxb hyb
    have hnodup := Batching.nodup_of_ids hlog.distinct
    obtain ⟨before, after, rfl⟩ := List.append_of_mem hxz.mem_right
    have hx := hxz.mem_of_split hnodup
    have hy := hzy.mem_after_of_split hnodup
    obtain ⟨hz, hzb⟩ := hcontiguous before.length (by simp) z (by simp) b
      (by rw [List.take_left]; exact Batching.mem_batchIds.mpr ⟨x, hx, hxb⟩)
      (by simpa [Batching.mem_batchIds] using ⟨y, hy, hyb⟩)
    exact ⟨Option.isNone_iff_eq_none.mp hz, hzb⟩

theorem agree (h : Orderly log) : AnswersAgree log := by
  intro x hx y hy a b ha hb hcall
  obtain ⟨v, p, hp, hv, hpa, hvx⟩ := h.matched x hx a ha
  obtain ⟨w, q, hq, hw, hqb, hwy⟩ := h.matched y hy b hb
  rw [← hv, ← hw, h.issued v hvx.mem_left w hwy.mem_left p q hp hq (by rw [hpa, hqb, hcall])]

end Orderly

/-! ## Coherent logs -/

/-- What the latest condensation forgets is cut along the rules: it lies before the condensation,
batches are forgotten as a whole, and the anchor only with all that depends on it. -/
structure Coherent (log : List Event) : Prop where
  past : ∀ id ∈ forgottenIds log, ∃ x ∈ log, x.id = id ∧
    ∃ z c, View.latest? log = some (z, c) ∧ Before log x z
  whole : ∀ x ∈ log, ∀ y ∈ log, ∀ b, x.batch? = some b → y.batch? = some b →
    x.id ∈ forgottenIds log → y.id ∈ forgottenIds log
  anchored : ∀ b, anchor? log = some b → ∀ x ∈ log, x.batch? = some b →
    x.id ∈ forgottenIds log → ∀ later ∈ dependents b log, ∀ y ∈ log, y.batch? = some later →
      y.id ∈ forgottenIds log

/-- The reasons for which an event is missing from the view. -/
inductive Excused (log : List Event) (e : Event) : Prop
  | control (h : e.isShowable = false)
  | forgotten (h : e.id ∈ forgottenIds log)
  | outranked (w : Event) (hw : w ∈ log) (hkept : w.id ∉ forgottenIds log)
      (h : Outranks log w e)
  | orphaned (a : Answer) (ha : e.answer? = some a) (h : a.action ∈ forgottenIds log)

namespace Coherent

variable {log : List Event} {e : Event}

def unexcused (log : List Event) : List Event :=
  (candidates log).filter fun e => e.answer?.all fun a => a.action ∉ forgottenIds log

theorem mem_unexcused :
    e ∈ unexcused log ↔
      e ∈ candidates log ∧ ∀ a, e.answer? = some a → a.action ∉ forgottenIds log := by
  simp only [unexcused, List.mem_filter, Option.all_eq_true, decide_eq_true_eq]

theorem mem_unexcused_of_batch? (horderly : Orderly log) {b : BatchId} (he : e ∈ log)
    (hb : e.batch? = some b) (hkept : e.id ∉ forgottenIds log) : e ∈ unexcused log := by
  refine mem_unexcused.mpr ⟨View.mem_candidates_of_batch? horderly.distinct he hb hkept, ?_⟩
  simp [Event.answer?_of_batch? hb]

/-- In a coherent log the events without an excuse keep all the rules. -/
theorem legal_unexcused (h : Coherent log) (horderly : Orderly log) :
    Legal log (unexcused log) := by
  have hsub : unexcused log ⊆ log := fun x hx =>
    (View.candidates_sublist log).subset (mem_unexcused.mp hx).1
  have hkept : ∀ {x}, x ∈ unexcused log → x.id ∉ forgottenIds log := fun hx =>
    ((View.mem_candidates horderly.distinct).mp (mem_unexcused.mp hx).1).2.2.1
  have hmem : ∀ {x}, x ∈ log → (x.id ∈ ids (unexcused log) ↔ x ∈ unexcused log) := fun hx =>
    Batching.id_mem_ids_iff horderly.distinct hsub hx
  refine ⟨fun x hx y hy b hxb hyb hid => ?_, fun y hy a ha _ => ?_,
    fun b hb x hx hxb hid y hy later hlater hyl => ?_⟩
  · refine Batching.id_mem_ids (mem_unexcused_of_batch? horderly hy hyb fun hyf => ?_)
    exact hkept ((hmem hx).mp hid) (h.whole y hy x hx b hyb hxb hyf)
  · obtain ⟨x, p, hp, hxa, -, hbefore⟩ := horderly.matched y (hsub hy) a ha
    rw [← hxa]
    refine Batching.id_mem_ids (mem_unexcused_of_batch? horderly hbefore.mem_left
      (Event.batch?_of_asAction? hp) ?_)
    rw [hxa]
    exact (mem_unexcused.mp hy).2 a ha
  · have hxf : x.id ∈ forgottenIds log := by
      by_contra hxf
      exact hid (Batching.id_mem_ids (mem_unexcused_of_batch? horderly hx hxb hxf))
    exact hkept hy (h.anchored b hb x hx hxb hxf later hlater y (hsub hy) hyl)

theorem mem_retained_iff (h : Coherent log) (horderly : Orderly log) :
    e ∈ retained .standard log ↔ e ∈ unexcused log := by
  refine ⟨fun he => mem_unexcused.mpr ⟨?_, fun a ha haction => ?_⟩, fun he => ?_⟩
  · exact (View.retained_sublist_candidates _ _).subset he
  · have hlog := View.retained_subset he
    obtain ⟨x, p, hp, hxa, -, hbefore⟩ := horderly.matched e hlog a ha
    have hid := (View.legal_retained log).answered e he a ha
      (hxa ▸ Batching.id_mem_ids hbefore.mem_left)
    obtain ⟨y, hy, hya⟩ := Batching.mem_ids.mp hid
    exact View.not_mem_forgottenIds horderly.distinct hy (hya ▸ haction)
  · exact View.mem_retained_of_legal horderly.distinct (h.legal_unexcused horderly)
      (fun x hx => (mem_unexcused.mp hx).1) he

theorem not_mem_events_iff (h : Coherent log) (horderly : Orderly log) (he : e ∈ log) :
    e ∉ (View.ofEvents log).events ↔ Excused log e := by
  rw [View.mem_events_iff horderly.toIdentified he, h.mem_retained_iff horderly, mem_unexcused,
    View.mem_candidates horderly.distinct]
  constructor
  · intro hnot
    by_contra hno
    refine hnot ⟨⟨he, ?_, fun hf => hno (.forgotten hf), fun w hw hk hr =>
      hno (.outranked w hw hk hr)⟩, fun a ha hf => hno (.orphaned a ha hf)⟩
    rw [← Bool.not_eq_false]
    exact fun hs => hno (.control hs)
  · rintro hexcused ⟨⟨-, hshow, hkept, hbest⟩, horphan⟩
    cases hexcused with
    | control hs => simp [hshow] at hs
    | forgotten hf => exact hkept hf
    | outranked w hw hk hr => exact hbest w hw hk hr
    | orphaned a ha hf => exact horphan a ha hf

/-! ## Appending an event -/

/-- A batch of which an event is forgotten gets no further event: the condensation that forgot it
would stand in between. -/
theorem batch?_ne (h : Coherent log) (horderly : Orderly (log ++ [e])) {x : Event} {b : BatchId}
    (hx : x ∈ log) (hxb : x.batch? = some b) (hxf : x.id ∈ forgottenIds log) :
    e.batch? ≠ some b := by
  intro heb
  obtain ⟨y, hy, hid, z, c, hlatest, hbefore⟩ := h.past x.id hxf
  rw [Batching.eq_of_id_eq horderly.of_append.distinct hy hx hid] at hbefore
  obtain ⟨hz, -⟩ := horderly.contiguous x z e b
    (hbefore.of_sublist (List.sublist_append_left _ _))
    (Before.of_mem hbefore.mem_right (by simp)) hxb heb
  obtain ⟨-, -, -, hzc, -⟩ := View.latest?_eq_some_iff.mp hlatest
  rw [hz] at hzc
  cases hzc

theorem released (h : Coherent log) (horderly : Orderly (log ++ [e])) {x : Event}
    {b later : BatchId} (hx : x ∈ log) (hxb : x.batch? = some b) (hxf : x.id ∈ forgottenIds log)
    (hnew : later ∉ batchIds log) : Released (log ++ [e]) b later := by
  have hne := h.batch?_ne horderly hx hxb hxf
  obtain ⟨y, hy, hid, z, c, hlatest, hbefore⟩ := h.past x.id hxf
  have hforgotten : forgottenIds log = c.forgotten := by rw [View.forgottenIds, hlatest]
  rw [Batching.eq_of_id_eq horderly.of_append.distinct hy hx hid] at hbefore
  obtain ⟨before, after, hsplit, hzc, -⟩ := View.latest?_eq_some_iff.mp hlatest
  refine Released.snoc hne ⟨before, z, after, hsplit, fun w hw hwl => ?_, fun w hw hwb => ?_, ?_⟩
  · exact hnew (Batching.mem_batchIds.mpr ⟨w, by simp [hsplit, hw], hwl⟩)
  · obtain ⟨hz, -⟩ := horderly.of_append.contiguous x z w b hbefore
      (hsplit ▸ Before.of_split hw) hxb hwb
    rw [hz] at hzc
    cases hzc
  · simp only [Batching.forgetsAny, hzc, List.any_eq_true, decide_eq_true_eq]
    exact ⟨x.id, hforgotten ▸ hxf, Batching.mem_ids_members.mpr ⟨x, hx, hxb, rfl⟩⟩

theorem append (h : Coherent log) (horderly : Orderly (log ++ [e]))
    (hplain : e.asCondensation? = none) : Coherent (log ++ [e]) := by
  have hforgotten : forgottenIds (log ++ [e]) = forgottenIds log :=
    View.forgottenIds_snoc_of_none hplain
  have hnew : e.id ∉ forgottenIds log := fun hid => by
    obtain ⟨x, hx, hxe, -⟩ := h.past _ hid
    exact horderly.toIdentified.not_mem_ids (hxe ▸ Batching.id_mem_ids hx)
  have hold : ∀ {x}, x ∈ log ++ [e] → x.id ∈ forgottenIds log → x ∈ log := fun {x} hx hxf =>
    (List.mem_append.mp hx).resolve_right fun hx => hnew (List.mem_singleton.mp hx ▸ hxf)
  rw [← hforgotten] at hnew
  refine ⟨?_, ?_, ?_⟩ <;> rw [hforgotten]
  · intro id hid
    obtain ⟨x, hx, hxe, z, c, hlatest, hbefore⟩ := h.past id hid
    refine ⟨x, List.mem_append_left _ hx, hxe, z, c, ?_, ?_⟩
    · rwa [View.latest?_snoc_of_none hplain]
    · exact hbefore.of_sublist (List.sublist_append_left _ _)
  · intro x hx y hy b hxb hyb hxf
    rcases List.mem_append.mp hy with hy | hy
    · exact h.whole x (hold hx hxf) y hy b hxb hyb hxf
    · rw [List.mem_singleton.mp hy] at hyb
      exact absurd hyb (h.batch?_ne horderly (hold hx hxf) hxb hxf)
  · intro b hb x hx hxb hxf later hlater y hy hyl
    have hx := hold hx hxf
    have hne := h.batch?_ne horderly hx hxb hxf
    obtain ⟨hprec, hreleased⟩ := Batching.mem_dependents.mp hlater
    by_cases hmem : later ∈ batchIds log
    · have hlater : later ∈ dependents b log := Batching.mem_dependents.mpr
        ⟨hprec.of_snoc hne hmem, fun h => hreleased (h.snoc hne)⟩
      have hall := h.anchored b (Batching.anchor?_of_snoc hne hb) x hx hxb hxf later hlater
      rcases List.mem_append.mp hy with hy | hy
      · exact hall y hy hyl
      · -- the event appended would belong to a batch that is forgotten
        obtain ⟨w, hw, hwl⟩ := Batching.mem_batchIds.mp hmem
        rw [List.mem_singleton.mp hy] at hyl
        exact absurd hyl (h.batch?_ne horderly hw hwl (hall w hw hwl))
    · exact absurd (h.released horderly hx hxb hxf hmem) hreleased

/-! ## Condensing -/

section

variable {d : Condensation} {r : ForgottenRange} {head tail : List Event}

theorem mem_forgotten_iff_of_batch? (hc : Condensing log e d r head tail) {x : Event}
    {b : BatchId} (hx : x ∈ log) (hxb : x.batch? = some b) :
    x.id ∈ d.forgotten ↔ x.id ∈ forgottenIds log ∨ x ∈ r.events := by
  by_cases hxf : x.id ∈ forgottenIds log
  · exact iff_of_true (hc.subset_forgotten hxf) (Or.inl hxf)
  · rw [or_iff_right hxf]
    exact (hc.mem_range_iff hx (Event.isSummary_of_batch? hxb) hxf).symm

theorem condense (h : Coherent log) (horderly : Orderly (log ++ [e]))
    (hc : Condensing log e d r head tail) : Coherent (log ++ [e]) := by
  have hbatch := fun {x b} => mem_forgotten_iff_of_batch? hc (x := x) (b := b)
  have hold := horderly.of_append
  refine ⟨?_, ?_, ?_⟩ <;> rw [hc.forgottenIds_eq]
  · intro id hid
    obtain ⟨x, hx, hxe⟩ := Batching.mem_ids.mp (hc.forgotten_subset (fun id hid => by
      obtain ⟨x, hx, hxe, -⟩ := h.past id hid
      exact Batching.mem_ids.mpr ⟨x, hx, hxe⟩) hid)
    exact ⟨x, List.mem_append_left _ hx, hxe, e, d,
      View.latest?_snoc_condensation hc.asCondensation?,
      Before.of_mem hx (by simp)⟩
  · intro x hx y hy b hxb hyb hxd
    have hx := hc.mem_log_of_batch? hx hxb
    have hy := hc.mem_log_of_batch? hy hyb
    refine (hbatch hy hyb).mpr (((hbatch hx hxb).mp hxd).imp (fun hxf => ?_) fun hxr => ?_)
    · exact h.whole x hx y hy b hxb hyb hxf
    · exact hc.mem_range_of_batch hxr hxb hy hyb
  · intro b hb x hx hxb hxd later hlater y hy hyl
    have hx := hc.mem_log_of_batch? hx hxb
    have hy := hc.mem_log_of_batch? hy hyl
    rw [Batching.anchor?_snoc hc.batch?] at hb
    rw [Batching.mem_dependents_snoc_iff hc.batch?] at hlater
    refine (hbatch hy hyl).mpr ?_
    rcases (hbatch hx hxb).mp hxd with hxf | hxr
    · exact Or.inl (h.anchored b hb x hx hxb hxf later hlater y hy hyl)
    · by_cases hyf : y.id ∈ forgottenIds log
      · exact Or.inl hyf
      · refine Or.inr (hc.mem_range_of_anchor hb hxr hxb (Batching.mem_dependents.mp hlater).1
          ?_ hyl)
        exact (h.mem_retained_iff hold).mpr (mem_unexcused_of_batch? hold hy hyl hyf)

end

end Coherent

/-! ## Runs -/

theorem Run.coherent {admits : List Event → Event → Prop} {log : List Event}
    (h : Run admits log) (horderly : Orderly log) : Coherent log := by
  induction h with
  | nil => exact ⟨by simp [View.forgottenIds, View.latest?], by simp, by simp⟩
  | append h hplain hadmits ih => exact (ih horderly.of_append).append horderly hplain
  | condense h hmodel hcondense ih =>
    obtain ⟨r, text, -, -, hc⟩ := Condenser.condensing_of_condense hmodel horderly.toIdentified
      horderly.of_append.matched.answered hcondense
    exact (ih horderly.of_append).condense horderly hc

/-- An excuse holds for good: when a result that outranks another is forgotten, the other loses its
action. -/
theorem Run.excused_later {admits : List Event → Event → Prop} {log later : List Event}
    {e : Event} (h : Run admits later) (horderly : Orderly later) (hbegins : log <+: later)
    (he : e ∈ log) (hexcused : Excused log e) : Excused later e := by
  have hforgotten := h.forgottenIds_subset horderly.toIdentified horderly.matched hbegins
  cases hexcused with
  | control hs => exact .control hs
  | forgotten hf => exact .forgotten (hforgotten hf)
  | outranked w hw hkept hrank =>
    by_cases hwf : w.id ∈ forgottenIds later
    · obtain ⟨a, b, ha, hb, hcall, -⟩ := hrank
      have hwl := hbegins.subset hw
      refine .orphaned b hb ?_
      rw [← horderly.agree w hwl e (hbegins.subset he) a b ha hb hcall]
      exact h.action_mem_forgottenIds horderly.toIdentified horderly.matched hwl ha hwf
    · exact .outranked w (hbegins.subset hw) hwf (hrank.of_sublist hbegins.sublist)
  | orphaned a ha hf => exact .orphaned a ha (hforgotten hf)

/-- **In an orderly run nothing is lost silently, and nothing comes back.** Whenever an event is
missing from the view there is an excuse, and it is missing at every later moment. -/
theorem Run.excused_of_not_mem {admits : List Event → Event → Prop} {log later : List Event}
    {e : Event} (h : Run admits later) (horderly : Orderly later) (hbegins : log <+: later)
    (he : e ∈ log) (hmissing : e ∉ (View.ofEvents log).events) :
    Excused log e ∧ e ∉ (View.ofEvents later).events := by
  obtain ⟨more, rfl⟩ := id hbegins
  have hcoherent := (h.earlier hbegins).coherent horderly.of_append
  have hexcused := (hcoherent.not_mem_events_iff horderly.of_append he).mp hmissing
  refine ⟨hexcused, ?_⟩
  rw [(h.coherent horderly).not_mem_events_iff horderly (hbegins.subset he)]
  exact h.excused_later horderly hbegins he hexcused

namespace Sample

/-- A log with a failure that a later success outranks, and with reasoning. -/
def retried : List Event :=
  [said "u", reasoned "a1" "b1" "c1", failed "f1" "c1" "a1", succeeded "r1" "c1" "a1",
    called "a2" "b2" "c2", succeeded "r2" "c2" "a2", said "v"]

def forgetting : Condensation where
  forgotten := [⟨"a1"⟩, ⟨"r1"⟩, ⟨"a2"⟩, ⟨"r2"⟩, ⟨"v"⟩]
  summary := some "later"
  offset := some 1
  turn := some ⟨"b2"⟩

def resumed : List Event :=
  retried ++ [.condensation (stamp "k1") forgetting] ++ [called "a3" "b3" "c3"]

end Sample

open Sample (retried forgetting resumed stamp)

theorem Run.excused_of_not_mem_resumed :
    Run (fun _ _ => True) resumed ∧ Orderly resumed ∧ retried <+: resumed ∧
      Sample.failed "f1" "c1" "a1" ∈ retried ∧
      Sample.failed "f1" "c1" "a1" ∉ (View.ofEvents retried).events ∧
      Excused retried (Sample.failed "f1" "c1" "a1") ∧
      Sample.failed "f1" "c1" "a1" ∉ (View.ofEvents resumed).events := by
  have hretried : Run (fun _ _ => True) retried := .of_take (by decide) fun _ _ _ _ => trivial
  have hcondense : ({ maxSize := 6, keepFirst := 1 } : Condenser).condense (fun _ => .ok "later")
      (.ofEvents retried) = .ok forgetting := by with_unfolding_all rfl
  have hcondensed : Run (fun _ _ => True) (retried ++ [.condensation (stamp "k1") forgetting]) :=
    hretried.condense (by rfl) hcondense
  have hrun : Run (fun _ _ => True) resumed := hcondensed.append rfl trivial
  have horderly : Orderly resumed := .of_positions (by decide +kernel) (by decide +kernel)
    (by decide +kernel) (by decide +kernel)
  have hbegins : retried <+: resumed := ⟨_, (List.append_assoc _ _ _).symm⟩
  have hmem : Sample.failed "f1" "c1" "a1" ∈ retried := by simp [retried]
  have hmissing : Sample.failed "f1" "c1" "a1" ∉ (View.ofEvents retried).events := fun h => by
    have hids : (⟨"f1"⟩ : EventId) ∉ ids (View.ofEvents retried).events := by decide +kernel
    exact hids (Batching.id_mem_ids h)
  exact ⟨hrun, horderly, hbegins, hmem, hmissing,
    Run.excused_of_not_mem hrun horderly hbegins hmem hmissing⟩

end AgentMemory
