import AgentMemory.Proofs.Compliance.Clean

/-!
# Parts of clean logs

A part of a clean log that keeps batches whole, and calls together with their results, is clean
(`Clean.filter`): what is open in the part is open in the log, and of a batch that is kept the part
has the same calls and answers.
-/

namespace AgentMemory.Compliance

variable {order : Order} {log : List Event} {e : Event}

/-- A selection that keeps batches whole, and calls together with their results. -/
structure Keeps (q : Event → Bool) (log : List Event) : Prop where
  batch : ∀ x ∈ log, ∀ y ∈ log, ∀ b, x.batch? = some b → y.batch? = some b → q x = true →
    q y = true
  answer : ∀ x ∈ log, ∀ y ∈ log, ∀ p a, x.asAction? = some p → y.answer? = some a →
    p.call = a.call → (q x = true ↔ q y = true)

/-- What a selection leaves out does not matter to what is looked for. -/
private theorem filter_filterMap_filter {α β : Type} {q : α → Bool} {f : α → Option β}
    {p : β → Bool} {l : List α} (h : ∀ x ∈ l, ∀ y, f x = some y → p y = true → q x = true) :
    ((l.filter q).filterMap f).filter p = (l.filterMap f).filter p := by
  induction l with
  | nil => rfl
  | cons x l ih =>
    have ih := ih fun y hy => h y (List.mem_cons_of_mem _ hy)
    have hx := h x (by simp)
    cases hfx : f x with
    | none => by_cases hq : q x = true <;> simp [hq, hfx, ih]
    | some y =>
      by_cases hp : p y = true
      · simp [hx y hfx hp, hfx, hp, ih]
      · by_cases hq : q x = true <;> simp [hq, hfx, hp, ih]

namespace Keeps

variable {q : Event → Bool} {b : BatchId}

theorem of_append {more : List Event} (h : Keeps q (log ++ more)) : Keeps q log where
  batch x hx y hy := h.batch x (List.mem_append_left _ hx) y (List.mem_append_left _ hy)
  answer x hx y hy := h.answer x (List.mem_append_left _ hx) y (List.mem_append_left _ hy)

theorem issued_subset : issued (log.filter q) ⊆ issued log := fun _ hi => by
  obtain ⟨x, hx, hxi⟩ := mem_issued.mp hi
  exact mem_issued.mpr ⟨x, List.mem_of_mem_filter hx, hxi⟩

theorem answered_subset : answered (log.filter q) ⊆ answered log := fun call hcall => by
  obtain ⟨y, hy, hyc⟩ := mem_answered.mp hcall
  exact mem_answered.mpr ⟨y, List.mem_of_mem_filter hy, hyc⟩

theorem not_mem_answered (h : Keeps q log) {i : Issue} (hi : i ∈ issued (log.filter q))
    (hopen : i.call ∉ answered (log.filter q)) : i.call ∉ answered log := by
  intro hanswered
  obtain ⟨x, hx, p, hp, -, hpi⟩ := mem_issued.mp hi
  obtain ⟨hx, hqx⟩ := List.mem_filter.mp hx
  obtain ⟨y, hy, a, ha, hcall⟩ := mem_answered.mp hanswered
  have hqy := (h.answer x hx y hy p a hp ha (hpi.trans hcall.symm)).mp hqx
  exact hopen (mem_answered.mpr ⟨y, List.mem_filter.mpr ⟨hy, hqy⟩, a, ha, hcall⟩)

theorem openOnlyIn (h : Keeps q log) (hopen : OpenOnlyIn b log) : OpenOnlyIn b (log.filter q) :=
  fun i hi hi' => hopen i (issued_subset hi) (h.not_mem_answered hi hi')

theorem settled (h : Keeps q log) (hsettled : Settled log) : Settled (log.filter q) := by
  intro i hi
  by_contra hopen
  exact h.not_mem_answered hi hopen (hsettled i (issued_subset hi))

section

variable {x : Event} (hx : x ∈ log) (hxb : x.batch? = some b) (hqx : q x = true)
include hx hxb hqx

theorem issuedIn_eq (h : Keeps q log) : issuedIn b (log.filter q) = issuedIn b log := by
  rw [issuedIn, issuedIn, issued, issued, filter_filterMap_filter fun y hy i hi hib => ?_]
  obtain ⟨p, hp, rfl⟩ := Option.map_eq_some_iff.mp hi
  have hpb : p.batch = b := of_decide_eq_true hib
  exact h.batch x hx y hy b hxb (hpb ▸ Event.batch?_of_asAction? hp) hqx

theorem mem_issued_filter_iff (h : Keeps q log) {call : ToolCallId} :
    (⟨b, call⟩ : Issue) ∈ issued (log.filter q) ↔ (⟨b, call⟩ : Issue) ∈ issued log := by
  refine ⟨fun hi => issued_subset hi, fun hi => ?_⟩
  obtain ⟨y, hy, p, hp, rfl, rfl⟩ := mem_issued.mp hi
  have hqy := h.batch x hx y hy _ hxb (Event.batch?_of_asAction? hp) hqx
  exact mem_issued.mpr ⟨y, List.mem_filter.mpr ⟨hy, hqy⟩, p, hp, rfl, rfl⟩

theorem answeredIn_eq (h : Keeps q log) : answeredIn b (log.filter q) = answeredIn b log := by
  simp only [answeredIn, h.mem_issued_filter_iff hx hxb hqx, answered]
  refine filter_filterMap_filter fun y hy call hcall hi => ?_
  obtain ⟨a, ha, rfl⟩ := Option.map_eq_some_iff.mp hcall
  obtain ⟨z, hz, p, hp, rfl, hcall⟩ := mem_issued.mp (of_decide_eq_true hi)
  have hqz := h.batch x hx z hz _ hxb (Event.batch?_of_asAction? hp) hqx
  exact (h.answer z hz y hy p a hp ha hcall).mp hqz

end

theorem accepts (h : Keeps q log) {call : ToolCallId}
    (hkept : ∀ x ∈ log, ∀ p, x.asAction? = some p → p.call = call → q x = true)
    (haccepts : Accepts order log call) : Accepts order (log.filter q) call := by
  obtain ⟨hopen, b, hb, haccepts⟩ := haccepts
  obtain ⟨x, hx, p, hp, rfl, rfl⟩ := mem_issued.mp hb
  have hxb := Event.batch?_of_asAction? hp
  have hqx := hkept x hx p hp rfl
  refine ⟨fun hanswered => hopen (answered_subset hanswered), _,
    (h.mem_issued_filter_iff hx hxb hqx).mpr hb, ?_⟩
  rw [h.issuedIn_eq hx hxb hqx, h.answeredIn_eq hx hxb hqx]
  exact haccepts

theorem allowed (h : Keeps q (log ++ [e])) (he : q e = true) (hallowed : Allowed order log e) :
    Allowed order (log.filter q) e := by
  have hlog := h.of_append
  have hkept : ∀ a, e.answer? = some a → ∀ x ∈ log, ∀ p, x.asAction? = some p →
      p.call = a.call → q x = true := fun a ha x hx p hp hcall =>
    (h.answer x (List.mem_append_left _ hx) e (by simp) p a hp ha hcall).mpr he
  rw [Allowed] at hallowed ⊢
  cases hbody : e.body <;> rw [hbody] at hallowed
  case action p =>
    refine ⟨hlog.openOnlyIn hallowed.1, fun hissued => hallowed.2 ?_⟩
    exact List.map_subset _ issued_subset hissued
  case observation r =>
    exact hlog.accepts (hkept ⟨r.call, r.action, true⟩ (by simp [Event.answer?, hbody])) hallowed
  case agentError r =>
    exact hlog.accepts (hkept ⟨r.call, r.action, false⟩ (by simp [Event.answer?, hbody])) hallowed
  case message t =>
    rcases hallowed with hsettled | ⟨hrole, b, hb, hopen⟩
    · exact Or.inl (hlog.settled hsettled)
    · exact Or.inr ⟨hrole, b, hb, hlog.openOnlyIn hopen⟩
  case systemPrompt p => exact hlog.settled hallowed
  all_goals trivial

end Keeps

/-- **A part of a clean log is clean** when it keeps batches whole and calls with their results. -/
theorem Clean.filter (hpolicy : order.NeverFails) {q : Event → Bool} (h : Clean order log)
    (hkeeps : Keeps q log) : Clean order (log.filter q) := by
  induction log using List.reverseRecOn with
  | nil => exact h
  | append_singleton log e ih =>
    obtain ⟨hlog, he⟩ := (clean_snoc_iff_allowed hpolicy).mp h
    have ih := ih hlog hkeeps.of_append
    rw [List.filter_append, List.filter_singleton]
    cases hq : q e with
    | false => simpa using ih
    | true => exact (clean_snoc_iff_allowed hpolicy).mpr ⟨ih, hkeeps.allowed hq he⟩

end AgentMemory.Compliance
