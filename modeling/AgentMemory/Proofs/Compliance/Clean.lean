import AgentMemory.Compliance.Monitor
import AgentMemory.Proofs.Event
import AgentMemory.Proofs.Order
import Mathlib.Data.List.Perm.Basic

/-!
# Clean logs

A monitor reports nothing of a log exactly when every event is allowed after those before it
(`clean_snoc_iff_allowed`), where what is allowed is said of the log alone: which calls are issued,
which are answered. What a monitor knows of a clean log is told by the same (`Knows`).
-/

namespace AgentMemory.Compliance

variable {order : Order} {log : List Event} {e : Event}

/-- An order that always says whether a call may be answered. -/
def Order.NeverFails (order : Order) : Prop :=
  ∀ issued resolved call, order.accepts issued resolved call ≠ none

/-! ## Replaying -/

namespace Monitor

/-- What a new monitor knows after a log. -/
def after (order : Order) (log : List Event) : Monitor := ((ofOrder order).replay log).1

theorem replay_append (m : Monitor) (xs ys : List Event) :
    (m.replay (xs ++ ys)).1 = ((m.replay xs).1.replay ys).1 ∧
      (m.replay (xs ++ ys)).2.1 = (m.replay xs).2.1 ++ ((m.replay xs).1.replay ys).2.1 := by
  induction xs generalizing m with
  | nil => exact ⟨rfl, rfl⟩
  | cons x xs ih =>
    obtain ⟨hmonitor, hviolations⟩ := ih (m.step x).monitor
    refine ⟨hmonitor, ?_⟩
    simp only [List.cons_append, replay, List.append_assoc]
    rw [hviolations]

theorem after_snoc : after order (log ++ [e]) = ((after order log).step e).monitor :=
  (replay_append _ _ _).1

end Monitor

/-- A new monitor reports no violation in a log. -/
def Clean (order : Order) (log : List Event) : Prop :=
  ((Monitor.ofOrder order).replay log).2.1 = []

theorem clean_snoc_iff :
    Clean order (log ++ [e]) ↔
      Clean order log ∧ ((Monitor.after order log).step e).violations = [] := by
  rw [Clean, (Monitor.replay_append _ _ _).2, List.append_eq_nil_iff, ← Monitor.after, ← Clean]
  simp [Monitor.replay]

theorem clean_append_cons_iff {before rest : List Event}
    (he : ∀ m : Monitor, m.step e = { monitor := m }) :
    Clean order (before ++ e :: rest) ↔ Clean order (before ++ rest) := by
  rw [Clean, Clean, (Monitor.replay_append _ _ _).2, (Monitor.replay_append _ _ _).2,
    Monitor.replay, he]
  rfl

/-! ## Calls of a log -/

/-- The call that an event issues. -/
def issue? (e : Event) : Option Issue := e.asAction?.map fun p => ⟨p.batch, p.call⟩

def issued (log : List Event) : List Issue := log.filterMap issue?

def answered (log : List Event) : List ToolCallId := log.filterMap fun e => e.answer?.map (·.call)

theorem mem_issued {b : BatchId} {call : ToolCallId} :
    (⟨b, call⟩ : Issue) ∈ issued log ↔
      ∃ x ∈ log, ∃ p, x.asAction? = some p ∧ p.batch = b ∧ p.call = call := by
  simp only [issued, issue?, List.mem_filterMap, Option.map_eq_some_iff, Issue.mk.injEq]

theorem mem_answered {call : ToolCallId} :
    call ∈ answered log ↔ ∃ y ∈ log, ∃ a, y.answer? = some a ∧ a.call = call := by
  simp only [answered, List.mem_filterMap, Option.map_eq_some_iff]

theorem mem_map_call_iff {call : ToolCallId} :
    call ∈ (issued log).map (·.call) ↔ ∃ b, (⟨b, call⟩ : Issue) ∈ issued log := by
  rw [List.mem_map]
  constructor
  · rintro ⟨i, hi, rfl⟩
    exact ⟨i.batch, hi⟩
  · rintro ⟨b, hb⟩
    exact ⟨_, hb, rfl⟩

private theorem eq_of_nodup_filterMap {α β : Type} {f : α → Option β} {l : List α}
    (hnodup : (l.filterMap f).Nodup) {x y : α} {b : β} (hx : x ∈ l) (hy : y ∈ l)
    (hfx : f x = some b) (hfy : f y = some b) : x = y := by
  obtain ⟨before, after, rfl⟩ := List.append_of_mem hx
  rw [List.filterMap_append, List.filterMap_cons_some hfx] at hnodup
  obtain ⟨-, hafter, hdisjoint⟩ := List.nodup_append.mp hnodup
  rcases List.mem_append.mp hy with hy | hy
  · exact absurd rfl (hdisjoint b (List.mem_filterMap.mpr ⟨y, hy, hfy⟩) b (by simp))
  · rcases List.mem_cons.mp hy with rfl | hy
    · rfl
    · exact absurd (List.mem_filterMap.mpr ⟨y, hy, hfy⟩) (List.nodup_cons.mp hafter).1

theorem eq_of_issued_once (h : ((issued log).map (·.call)).Nodup) {x y : Event} {p q : Action}
    (hx : x ∈ log) (hy : y ∈ log) (hp : x.asAction? = some p) (hq : y.asAction? = some q)
    (hcall : p.call = q.call) : x = y := by
  rw [issued, List.map_filterMap] at h
  exact eq_of_nodup_filterMap h hx hy (b := q.call) (by simp [issue?, hp, hcall])
    (by simp [issue?, hq])

theorem eq_of_answered_once (h : (answered log).Nodup) {x y : Event} {a b : Answer}
    (hx : x ∈ log) (hy : y ∈ log) (ha : x.answer? = some a) (hb : y.answer? = some b)
    (hcall : a.call = b.call) : x = y :=
  eq_of_nodup_filterMap h hx hy (b := b.call) (by simp [ha, hcall]) (by simp [hb])

theorem issued_snoc : issued (log ++ [e]) = issued log ++ (issue? e).toList := by
  simp only [issued, List.filterMap_append]
  cases h : issue? e <;> simp [h]

theorem answered_snoc :
    answered (log ++ [e]) = answered log ++ (e.answer?.map (·.call)).toList := by
  simp only [answered, List.filterMap_append]
  cases h : e.answer? <;> simp [h]

def issuedIn (b : BatchId) (log : List Event) : List ToolCallId :=
  ((issued log).filter (·.batch = b)).map (·.call)

def answeredIn (b : BatchId) (log : List Event) : List ToolCallId :=
  (answered log).filter fun call => (⟨b, call⟩ : Issue) ∈ issued log

section

variable {b b' : BatchId} {call : ToolCallId}

theorem answeredIn_snoc_of_issue (he : issue? e = some ⟨b, call⟩) (hanswer : e.answer? = none)
    (hnew : call ∉ answered log) : answeredIn b' (log ++ [e]) = answeredIn b' log := by
  have hanswered : answered (log ++ [e]) = answered log := by simp [answered_snoc, hanswer]
  rw [answeredIn, answeredIn, hanswered]
  refine List.filter_congr fun c hc => ?_
  have hne : (⟨b', c⟩ : Issue) ≠ ⟨b, call⟩ := by
    rintro ⟨⟩
    exact hnew hc
  simp [issued_snoc, he, hne]

theorem answeredIn_snoc_of_answer (he : issue? e = none)
    (hanswer : e.answer?.map (·.call) = some call) :
    answeredIn b' (log ++ [e]) =
      answeredIn b' log ++ if (⟨b', call⟩ : Issue) ∈ issued log then [call] else [] := by
  have hissued : issued (log ++ [e]) = issued log := by simp [issued_snoc, he]
  have hanswered : answered (log ++ [e]) = answered log ++ [call] := by
    rw [answered_snoc, hanswer]
    rfl
  rw [answeredIn, answeredIn, hanswered, hissued, List.filter_append]
  by_cases hmem : (⟨b', call⟩ : Issue) ∈ issued log <;> simp [hmem]

end

/-- Every call issued is answered. -/
def Settled (log : List Event) : Prop := ∀ i ∈ issued log, i.call ∈ answered log

def OpenOnlyIn (b : BatchId) (log : List Event) : Prop :=
  ∀ i ∈ issued log, i.call ∉ answered log → i.batch = b

/-- A call may be answered: it waits for an answer, and the order lets it be the next of its
batch. -/
def Accepts (order : Order) (log : List Event) (call : ToolCallId) : Prop :=
  call ∉ answered log ∧ ∃ b, (⟨b, call⟩ : Issue) ∈ issued log ∧
    order.accepts (issuedIn b log) (answeredIn b log) call = some true

/-- An event may come after a log. -/
def Allowed (order : Order) (log : List Event) (e : Event) : Prop :=
  match e.body with
  | .action p => OpenOnlyIn p.batch log ∧ p.call ∉ (issued log).map (·.call)
  | .observation r => Accepts order log r.call
  | .agentError r => Accepts order log r.call
  | .message t => Settled log ∨ (t.role = .agent ∧ ∃ b, t.batch = some b ∧ OpenOnlyIn b log)
  | .systemPrompt _ => Settled log
  | .condensation _ | .condensationRequest _ | .condensationSummary _ => True

/-! ## Sets of calls -/

theorem eq_of_not_lt {x y : ToolCallId} (hxy : ¬ x.text < y.text) (hyx : ¬ y.text < x.text) :
    x = y := by
  obtain ⟨x⟩ := x
  obtain ⟨y⟩ := y
  exact congrArg _ (String.le_antisymm (String.not_lt.mp hyx) (String.not_lt.mp hxy))

theorem insert_perm {call : ToolCallId} {calls : List ToolCallId}
    (h : call ∉ calls) : (call.insert calls).Perm (call :: calls) := by
  induction calls with
  | nil => exact List.Perm.refl _
  | cons x xs ih =>
    rw [ToolCallId.insert]
    split
    · exact List.Perm.refl _
    · split
      · exact ((ih fun hx => h (List.mem_cons_of_mem _ hx)).cons x).trans (List.Perm.swap _ _ _)
      · rename_i hlt hgt
        exact absurd (eq_of_not_lt hlt hgt ▸ List.mem_cons_self ..) h

/-! ## What a monitor knows -/

/-- A monitor knows a log in which every event was allowed. -/
structure Knows (order : Order) (m : Monitor) (log : List Event) : Prop where
  order_eq : m.order = order
  pending : ∀ call, call ∈ m.pending ↔ call ∈ (issued log).map (·.call) ∧ call ∉ answered log
  distinct : m.pending.Nodup
  completed : ∀ call, call ∈ m.completed ↔ call ∈ answered log
  issues : m.issues = (issued log).reverse
  results : ∀ b, Monitor.callsOf b m.results = answeredIn b log
  /-- Calls are issued once. -/
  once : ((issued log).map (·.call)).Nodup
  known : ∀ call ∈ answered log, call ∈ (issued log).map (·.call)
  single : (answered log).Nodup

namespace Knows

variable {m : Monitor} {b : BatchId} {call : ToolCallId}

theorem nil (order : Order) : Knows order (.ofOrder order) [] := by
  constructor <;> simp [Monitor.ofOrder, issued, answered, answeredIn, Monitor.callsOf]

theorem eq_of_call_eq (h : Knows order m log) {i j : Issue} (hi : i ∈ issued log)
    (hj : j ∈ issued log) (hcall : i.call = j.call) : i = j :=
  List.inj_on_of_nodup_map h.once hi hj hcall

theorem batchOf?_eq_some_iff (h : Knows order m log) :
    m.batchOf? call = some b ↔ (⟨b, call⟩ : Issue) ∈ issued log := by
  rw [Monitor.batchOf?, h.issues, Option.map_eq_some_iff]
  constructor
  · rintro ⟨i, hi, rfl⟩
    have hcall : i.call = call := by simpa using List.find?_some hi
    rw [← hcall]
    exact List.mem_reverse.mp (List.mem_of_find?_eq_some hi)
  · intro hi
    cases hfind : (issued log).reverse.find? (·.call = call) with
    | none => simpa using List.find?_eq_none.mp hfind _ (List.mem_reverse.mpr hi)
    | some j =>
      have hcall : j.call = call := by simpa using List.find?_some hfind
      have hj := List.mem_reverse.mp (List.mem_of_find?_eq_some hfind)
      exact ⟨j, rfl, by rw [h.eq_of_call_eq hj hi hcall]⟩

theorem callsOf_issues (h : Knows order m log) : Monitor.callsOf b m.issues = issuedIn b log := by
  rw [Monitor.callsOf, h.issues, List.filter_reverse, List.map_reverse, List.reverse_reverse,
    issuedIn]

theorem pendingOutside_eq_false_iff (h : Knows order m log) :
    m.pendingOutside b = false ↔ OpenOnlyIn b log := by
  simp only [Monitor.pendingOutside, List.any_eq_false, decide_eq_true_eq, not_not]
  constructor
  · intro hall i hi hopen
    have hbatch := hall i.call ((h.pending _).mpr ⟨List.mem_map_of_mem hi, hopen⟩)
    rw [h.batchOf?_eq_some_iff] at hbatch
    rw [h.eq_of_call_eq hi hbatch rfl]
  · intro hall call hcall
    obtain ⟨hissued, hopen⟩ := (h.pending _).mp hcall
    obtain ⟨i, hi, rfl⟩ := List.mem_map.mp hissued
    rw [h.batchOf?_eq_some_iff, ← hall i hi hopen]
    exact hi

theorem isEmpty_pending_iff (h : Knows order m log) :
    m.pending.isEmpty = true ↔ Settled log := by
  rw [List.isEmpty_iff, List.eq_nil_iff_forall_not_mem]
  constructor
  · intro hnone i hi
    by_contra hopen
    exact hnone i.call ((h.pending _).mpr ⟨List.mem_map_of_mem hi, hopen⟩)
  · intro hall call hcall
    obtain ⟨hissued, hopen⟩ := (h.pending _).mp hcall
    obtain ⟨i, hi, rfl⟩ := List.mem_map.mp hissued
    exact hopen (hall i hi)

theorem not_mem_issued_iff (h : Knows order m log) :
    call ∉ (issued log).map (·.call) ↔ call ∉ m.pending ∧ call ∉ m.completed := by
  rw [h.pending, h.completed]
  constructor
  · exact fun hnew => ⟨fun hpending => hnew hpending.1, fun hdone => hnew (h.known _ hdone)⟩
  · exact fun ⟨hpending, hdone⟩ hissued => hpending ⟨hissued, hdone⟩

/-! ## One event -/

theorem issue_violations (h : Knows order m log) {id : EventId} :
    (m.issue id b call).violations = [] ↔
      OpenOnlyIn b log ∧ call ∉ (issued log).map (·.call) := by
  rw [← h.pendingOutside_eq_false_iff, h.not_mem_issued_iff, Monitor.issue]
  by_cases hpending : call ∈ m.pending
  · simp [hpending]
  · by_cases hcompleted : call ∈ m.completed
    · simp [hpending, hcompleted]
    · simp [hpending, hcompleted]

theorem issue_monitor (h : Knows order m log) {id : EventId}
    (hnew : call ∉ (issued log).map (·.call)) (he : issue? e = some ⟨b, call⟩)
    (hanswer : e.answer? = none) : Knows order (m.issue id b call).monitor (log ++ [e]) := by
  obtain ⟨hpending, hcompleted⟩ := h.not_mem_issued_iff.mp hnew
  have hissued : issued (log ++ [e]) = issued log ++ [⟨b, call⟩] := by rw [issued_snoc, he]; rfl
  have hanswered : answered (log ++ [e]) = answered log := by simp [answered_snoc, hanswer]
  have hunanswered : call ∉ answered log := fun hdone => hnew (h.known _ hdone)
  have hperm := insert_perm hpending
  rw [Monitor.issue, if_neg hpending]
  refine ⟨h.order_eq, ?_, ?_, ?_, ?_, ?_, ?_, ?_, ?_⟩
  · intro c
    rw [hperm.mem_iff, hissued, hanswered, List.mem_cons, List.map_append, List.mem_append,
      h.pending]
    constructor
    · rintro (rfl | ⟨hc, hopen⟩)
      · exact ⟨Or.inr (by simp), hunanswered⟩
      · exact ⟨Or.inl hc, hopen⟩
    · rintro ⟨hc | hc, hopen⟩
      · exact Or.inr ⟨hc, hopen⟩
      · exact Or.inl (by simpa using hc)
  · exact hperm.nodup_iff.mpr (List.nodup_cons.mpr ⟨hpending, h.distinct⟩)
  · intro c
    rw [hanswered, List.erase_of_not_mem hcompleted]
    exact h.completed c
  · simp only [hissued, List.reverse_append, h.issues]
    rfl
  · intro b'
    rw [answeredIn_snoc_of_issue he hanswer hunanswered]
    exact h.results b'
  · rw [hissued, List.map_append, List.nodup_append]
    refine ⟨h.once, by simp, fun c hc d hd hcd => hnew ?_⟩
    have hd : d = call := by simpa using hd
    rwa [← hd, ← hcd]
  · intro c hc
    rw [hanswered] at hc
    rw [hissued, List.map_append, List.mem_append]
    exact Or.inl (h.known c hc)
  · rw [hanswered]
    exact h.single

theorem resolve_eq (h : Knows order m log) (hpolicy : order.NeverFails) {id : EventId}
    (hb : (⟨b, call⟩ : Issue) ∈ issued log) :
    m.resolve id call = {
      monitor := { m with
        pending := m.pending.erase call
        completed := call.insert m.completed
        results := ⟨b, call⟩ :: m.results }
      violations :=
        if order.accepts (issuedIn b log) (answeredIn b log) call = some true then []
        else [.outOfOrder id call order.name] } := by
  rw [Monitor.resolve, h.batchOf?_eq_some_iff.mpr hb]
  simp only [h.callsOf_issues, h.results, h.order_eq]
  cases haccepts : order.accepts (issuedIn b log) (answeredIn b log) call with
  | none => exact absurd haccepts (hpolicy _ _ _)
  | some accepted => cases accepted <;> simp

theorem answer_violations (h : Knows order m log) (hpolicy : order.NeverFails) {id : EventId} :
    (m.answer id call).violations = [] ↔ Accepts order log call := by
  rw [Monitor.answer, Accepts]
  by_cases hpending : call ∈ m.pending
  · obtain ⟨hissued, hopen⟩ := (h.pending _).mp hpending
    obtain ⟨b, hb⟩ := mem_map_call_iff.mp hissued
    rw [if_pos hpending, h.resolve_eq hpolicy hb]
    simp only [ite_eq_left_iff, List.cons_ne_self, imp_false, not_not, hopen, not_false_eq_true,
      true_and]
    constructor
    · exact fun haccepts => ⟨b, hb, haccepts⟩
    · rintro ⟨b', hb', haccepts⟩
      cases h.eq_of_call_eq hb hb' rfl
      exact haccepts
  · rw [if_neg hpending]
    refine iff_of_false (by simp) ?_
    rintro ⟨hopen, b, hb, -⟩
    exact hpending ((h.pending _).mpr ⟨mem_map_call_iff.mpr ⟨b, hb⟩, hopen⟩)

theorem answer_monitor (h : Knows order m log) (hpolicy : order.NeverFails) {id : EventId}
    (haccepts : Accepts order log call) (he : issue? e = none)
    (hanswer : e.answer?.map (·.call) = some call) :
    Knows order (m.answer id call).monitor (log ++ [e]) := by
  obtain ⟨hopen, b, hb, -⟩ := haccepts
  have hissued : issued (log ++ [e]) = issued log := by simp [issued_snoc, he]
  have hanswered : answered (log ++ [e]) = answered log ++ [call] := by
    rw [answered_snoc, hanswer]; rfl
  have hpending : call ∈ m.pending := (h.pending _).mpr ⟨mem_map_call_iff.mpr ⟨b, hb⟩, hopen⟩
  have hperm := insert_perm fun hdone => hopen ((h.completed call).mp hdone)
  rw [Monitor.answer, if_pos hpending, h.resolve_eq hpolicy hb]
  refine ⟨h.order_eq, ?_, ?_, ?_, ?_, ?_, ?_, ?_, ?_⟩
  · intro c
    rw [h.distinct.mem_erase_iff, hissued, hanswered, List.mem_append, List.mem_singleton,
      h.pending, not_or]
    exact ⟨fun ⟨hne, hc, hopen⟩ => ⟨hc, hopen, hne⟩, fun ⟨hc, hopen, hne⟩ => ⟨hne, hc, hopen⟩⟩
  · exact h.distinct.erase _
  · intro c
    rw [hperm.mem_iff, hanswered, List.mem_cons, List.mem_append, List.mem_singleton, h.completed,
      or_comm]
  · rw [hissued]
    exact h.issues
  · intro b'
    have hcalls : Monitor.callsOf b' (⟨b, call⟩ :: m.results) =
        Monitor.callsOf b' m.results ++ if b = b' then [call] else [] := by
      simp only [Monitor.callsOf, List.filter_cons]
      by_cases hbb : b = b' <;> simp [hbb]
    have hmem : (⟨b', call⟩ : Issue) ∈ issued log ↔ b = b' := by
      refine ⟨fun hb' => ?_, fun hbb => hbb ▸ hb⟩
      cases h.eq_of_call_eq hb hb' rfl
      rfl
    rw [answeredIn_snoc_of_answer he hanswer, hcalls, h.results]
    simp only [hmem]
  · rw [hissued]
    exact h.once
  · intro c hc
    rw [hanswered, List.mem_append, List.mem_singleton] at hc
    rw [hissued]
    rcases hc with hc | rfl
    · exact h.known c hc
    · exact mem_map_call_iff.mpr ⟨b, hb⟩
  · rw [hanswered, List.nodup_append]
    refine ⟨h.single, by simp, fun c hc d hd hcd => hopen ?_⟩
    rwa [← List.mem_singleton.mp hd, ← hcd]

theorem interrupt_violations (h : Knows order m log) {id : EventId} {what : String}
    {allowed : Bool} :
    (m.interrupt id what allowed).violations = [] ↔ Settled log ∨ allowed = true := by
  rw [← h.isEmpty_pending_iff, Monitor.interrupt, ← Bool.or_eq_true]
  split <;> simp_all

theorem joins_iff (h : Knows order m log) {t : Message} :
    m.joins t = true ↔ t.role = .agent ∧ ∃ b, t.batch = some b ∧ OpenOnlyIn b log := by
  simp only [Monitor.joins, Bool.and_eq_true, decide_eq_true_eq, Option.any_eq_true,
    Bool.not_eq_true', h.pendingOutside_eq_false_iff]

theorem of_other (h : Knows order m log) (he : issue? e = none) (hanswer : e.answer? = none) :
    Knows order m (log ++ [e]) := by
  have hissued : issued (log ++ [e]) = issued log := by simp [issued_snoc, he]
  have hanswered : answered (log ++ [e]) = answered log := by simp [answered_snoc, hanswer]
  refine ⟨h.order_eq, ?_, h.distinct, ?_, ?_, ?_, ?_, ?_, ?_⟩ <;>
    simp only [hissued, hanswered, answeredIn]
  · exact h.pending
  · exact h.completed
  · exact h.issues
  · exact h.results
  · exact h.once
  · exact h.known
  · exact h.single

/-- The monitor reports nothing exactly when the event is allowed. -/
theorem step_violations (h : Knows order m log) (hpolicy : order.NeverFails) :
    (m.step e).violations = [] ↔ Allowed order log e := by
  rw [Monitor.step, Allowed]
  cases e.body with
  | action p => exact h.issue_violations
  | observation r => exact h.answer_violations hpolicy
  | agentError r => exact h.answer_violations hpolicy
  | message t => exact h.interrupt_violations.trans (or_congr_right h.joins_iff)
  | systemPrompt p => exact h.interrupt_violations.trans (or_iff_left Bool.false_ne_true)
  | condensation c => exact iff_of_true rfl trivial
  | condensationRequest r => exact iff_of_true rfl trivial
  | condensationSummary t => exact iff_of_true rfl trivial

theorem step_monitor (h : Knows order m log) (hpolicy : order.NeverFails)
    (hallowed : Allowed order log e) : Knows order (m.step e).monitor (log ++ [e]) := by
  rw [Monitor.step]
  rw [Allowed] at hallowed
  cases hbody : e.body <;> rw [hbody] at hallowed
  case action p =>
    exact h.issue_monitor hallowed.2 (by simp [issue?, Event.asAction?, hbody])
      (by simp [Event.answer?, hbody])
  case observation r =>
    exact h.answer_monitor hpolicy hallowed (by simp [issue?, Event.asAction?, hbody])
      (by simp [Event.answer?, hbody])
  case agentError r =>
    exact h.answer_monitor hpolicy hallowed (by simp [issue?, Event.asAction?, hbody])
      (by simp [Event.answer?, hbody])
  all_goals
    exact h.of_other (by simp [issue?, Event.asAction?, hbody]) (by simp [Event.answer?, hbody])

end Knows

/-! ## Clean logs -/

theorem Clean.knows (hpolicy : order.NeverFails) (h : Clean order log) :
    Knows order (Monitor.after order log) log := by
  induction log using List.reverseRecOn with
  | nil => exact .nil order
  | append_singleton log e ih =>
    obtain ⟨hlog, he⟩ := clean_snoc_iff.mp h
    have hknows := ih hlog
    rw [Monitor.after_snoc]
    exact hknows.step_monitor hpolicy ((hknows.step_violations hpolicy).mp he)

/-- **A monitor reports nothing of a log when it reports nothing of its beginning and the last event
is allowed after that.** -/
theorem clean_snoc_iff_allowed (hpolicy : order.NeverFails) :
    Clean order (log ++ [e]) ↔ Clean order log ∧ Allowed order log e := by
  rw [clean_snoc_iff]
  exact and_congr_right fun h => (h.knows hpolicy).step_violations hpolicy

end AgentMemory.Compliance
