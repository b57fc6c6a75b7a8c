import AgentMemory.Proofs.Compliance.Clean
import AgentMemory.Proofs.Event
import Mathlib.Data.List.Dedup
import Mathlib.Data.List.Sort
import Mathlib.Data.String.Basic

/-!
# What a monitor knows of any trace

What a monitor knows, and what it reports of the next event, is said here of the trace alone,
however far it is from the protocol: a call is **open** when an action issues it and no result for
it comes after, and **done** when its last action is answered (`Open`, `Done`). An action opens its
call unless it is open already, and a result closes the call it answers if that is open; `openings`
and `closings` list these with the batches they count for.

The monitor is what the trace tells (`Monitor.after_eq_told`), by one case for each kind of event
(`Monitor.told_step`).
-/

namespace AgentMemory.Compliance

open Sample (called succeeded)

variable {order : Order} {trace : List Event} {e : Event} {c call : ToolCallId} {b : BatchId}

/-! ## Sets of calls in order -/

/-- Calls in the order of their texts, each once. -/
def Ascending (calls : List ToolCallId) : Prop := calls.Pairwise (·.text < ·.text)

theorem mem_insert {calls : List ToolCallId} : c ∈ call.insert calls ↔ c = call ∨ c ∈ calls := by
  induction calls with
  | nil => simp [ToolCallId.insert]
  | cons x xs ih =>
    rw [ToolCallId.insert]
    split
    · exact List.mem_cons
    · split
      · rw [List.mem_cons, ih, List.mem_cons, or_left_comm]
      · rename_i hlt hgt
        rw [eq_of_not_lt hlt hgt, List.mem_cons, ← or_assoc, or_self]

namespace Ascending

variable {xs ys : List ToolCallId}

theorem nodup (h : Ascending xs) : xs.Nodup := h.imp fun hlt heq => (heq ▸ hlt).false

theorem eq_of_mem_iff (hx : Ascending xs) (hy : Ascending ys) (h : ∀ c, c ∈ xs ↔ c ∈ ys) :
    xs = ys :=
  ((List.perm_ext_iff_of_nodup hx.nodup hy.nodup).mpr h).eq_of_pairwise
    (fun _ _ _ _ hlt hgt => absurd hgt hlt.asymm) hx hy

theorem erase (h : Ascending xs) : Ascending (xs.erase call) := h.sublist List.erase_sublist

theorem insert (h : Ascending xs) : Ascending (call.insert xs) := by
  induction xs with
  | nil => exact List.pairwise_singleton _ _
  | cons x xs ih =>
    obtain ⟨hx, hxs⟩ := List.pairwise_cons.mp h
    rw [ToolCallId.insert]
    split
    · rename_i hlt
      refine List.pairwise_cons.mpr ⟨fun y hy => ?_, h⟩
      rcases List.mem_cons.mp hy with rfl | hy
      · exact hlt
      · exact hlt.trans (hx y hy)
    · split
      · rename_i hgt
        refine List.pairwise_cons.mpr ⟨fun y hy => ?_, ih hxs⟩
        rcases mem_insert.mp hy with rfl | hy
        · exact hgt
        · exact hx y hy
      · exact h

end Ascending

/-- The calls of a list in the order of their texts, each once. -/
def ascending (calls : List ToolCallId) : List ToolCallId :=
  calls.dedup.insertionSort (·.text ≤ ·.text)

theorem mem_ascending {calls : List ToolCallId} : c ∈ ascending calls ↔ c ∈ calls := by
  rw [ascending, List.mem_insertionSort, List.mem_dedup]

theorem length_ascending {calls : List ToolCallId} :
    (ascending calls).length = calls.dedup.length :=
  List.length_insertionSort _ _

instance : Std.Total fun x y : ToolCallId => x.text ≤ y.text := ⟨fun x y => le_total x.text y.text⟩

instance : IsTrans ToolCallId fun x y => x.text ≤ y.text := ⟨fun _ _ _ => le_trans⟩

theorem ascending_ascending (calls : List ToolCallId) : Ascending (ascending calls) := by
  have hnodup : (ascending calls).Nodup :=
    (List.perm_insertionSort _ _).nodup_iff.mpr (List.nodup_dedup calls)
  refine (List.pairwise_insertionSort _ _).imp₂ (fun x y hle hne => ?_) hnodup
  by_contra hlt
  exact hne (eq_of_not_lt hlt (not_lt.mpr hle))

/-! ## Calls of a trace -/

def Issues (e : Event) (call : ToolCallId) : Prop := (issue? e).map (·.call) = some call

instance : Decidable (Issues e call) := inferInstanceAs (Decidable (_ = _))

def Answers (e : Event) (call : ToolCallId) : Prop := e.answer?.map (·.call) = some call

instance : Decidable (Answers e call) := inferInstanceAs (Decidable (_ = _))

/-- The calls issued in a trace, as often as they are. -/
def issuedCalls (trace : List Event) : List ToolCallId := (issued trace).map (·.call)

/-- A call waits for its result: an action issues it, and no result for it comes after. -/
def Open (trace : List Event) (call : ToolCallId) : Prop :=
  ∃ before e after, trace = before ++ e :: after ∧ Issues e call ∧ call ∉ answered after

/-- A call has its result: its last action is answered. -/
def Done (trace : List Event) (call : ToolCallId) : Prop :=
  ∃ before e after, trace = before ++ e :: after ∧ Issues e call ∧ call ∉ issuedCalls after ∧
    call ∈ answered after

theorem mem_issuedCalls_snoc :
    call ∈ issuedCalls (trace ++ [e]) ↔ call ∈ issuedCalls trace ∨ Issues e call := by
  rw [issuedCalls, issued_snoc, List.map_append, List.mem_append, ← issuedCalls, Issues]
  cases issue? e <;> simp [eq_comm]

theorem mem_answered_snoc :
    call ∈ answered (trace ++ [e]) ↔ call ∈ answered trace ∨ Answers e call := by
  rw [answered_snoc, List.mem_append, Answers]
  cases e.answer? <;> simp [eq_comm]

theorem mem_issuedCalls_iff :
    call ∈ issuedCalls trace ↔ ∃ e ∈ trace, Issues e call := by
  simp only [issuedCalls, issued, List.mem_map, List.mem_filterMap, Issues, Option.map_eq_some_iff]
  constructor
  · rintro ⟨i, ⟨e, he, hi⟩, hcall⟩
    exact ⟨e, he, i, hi, hcall⟩
  · rintro ⟨e, he, i, hi, hcall⟩
    exact ⟨i, ⟨e, he, hi⟩, hcall⟩

theorem Issues.not_answers (h : Issues e call) : ¬ Answers e c := by
  obtain ⟨i, hi, -⟩ := Option.map_eq_some_iff.mp h
  obtain ⟨p, hp, -⟩ := Option.map_eq_some_iff.mp hi
  simp [Answers, Event.answer?_of_batch? (Event.batch?_of_asAction? hp)]

theorem snoc_eq_split {before after : List Event} {x : Event}
    (h : trace ++ [e] = before ++ x :: after) :
    (after = [] ∧ before = trace ∧ x = e) ∨
      ∃ rest, after = rest ++ [e] ∧ trace = before ++ x :: rest := by
  rcases List.eq_nil_or_concat' after with rfl | ⟨rest, z, rfl⟩
  · obtain ⟨rfl, hx⟩ := List.append_inj' h rfl
    exact Or.inl ⟨rfl, rfl, (List.cons.inj hx).1.symm⟩
  · rw [← List.cons_append, ← List.append_assoc] at h
    obtain ⟨rfl, hz⟩ := List.append_inj' h rfl
    exact Or.inr ⟨rest, by rw [(List.cons.inj hz).1], rfl⟩

theorem open_snoc :
    Open (trace ++ [e]) call ↔ Issues e call ∨ Open trace call ∧ ¬ Answers e call := by
  constructor
  · rintro ⟨before, x, after, hsplit, hissues, hopen⟩
    rcases snoc_eq_split hsplit with ⟨rfl, rfl, rfl⟩ | ⟨rest, rfl, rfl⟩
    · exact Or.inl hissues
    · rw [mem_answered_snoc, not_or] at hopen
      exact Or.inr ⟨⟨before, x, rest, rfl, hissues, hopen.1⟩, hopen.2⟩
  · rintro (hissues | ⟨⟨before, x, after, rfl, hissues, hopen⟩, hanswers⟩)
    · exact ⟨trace, e, [], rfl, hissues, by simp [answered]⟩
    · refine ⟨before, x, after ++ [e], by simp, hissues, ?_⟩
      rw [mem_answered_snoc, not_or]
      exact ⟨hopen, hanswers⟩

theorem exists_last_issue (h : call ∈ issuedCalls trace) :
    ∃ before e after, trace = before ++ e :: after ∧ Issues e call ∧ call ∉ issuedCalls after := by
  induction trace using List.reverseRecOn with
  | nil => exact absurd h List.not_mem_nil
  | append_singleton trace e ih =>
    by_cases hissues : Issues e call
    · exact ⟨trace, e, [], rfl, hissues, List.not_mem_nil⟩
    · obtain ⟨before, x, after, rfl, hx, hafter⟩ :=
        ih ((mem_issuedCalls_snoc.mp h).resolve_right hissues)
      refine ⟨before, x, after ++ [e], by simp, hx, ?_⟩
      rw [mem_issuedCalls_snoc, not_or]
      exact ⟨hafter, hissues⟩

theorem done_snoc : Done (trace ++ [e]) call ↔
    ¬ Issues e call ∧ (Done trace call ∨ Answers e call ∧ call ∈ issuedCalls trace) := by
  constructor
  · rintro ⟨before, x, after, hsplit, hissues, hlast, hanswered⟩
    rcases snoc_eq_split hsplit with ⟨rfl, rfl, rfl⟩ | ⟨rest, rfl, rfl⟩
    · exact absurd hanswered List.not_mem_nil
    · rw [mem_issuedCalls_snoc, not_or] at hlast
      refine ⟨hlast.2, (mem_answered_snoc.mp hanswered).imp (fun hrest => ?_) fun he => ⟨he, ?_⟩⟩
      · exact ⟨before, x, rest, rfl, hissues, hlast.1, hrest⟩
      · exact mem_issuedCalls_iff.mpr ⟨x, by simp, hissues⟩
  · rintro ⟨he, ⟨before, x, after, rfl, hissues, hlast, hanswered⟩ | ⟨hanswers, hmem⟩⟩
    · refine ⟨before, x, after ++ [e], by simp, hissues, fun h => ?_, ?_⟩
      · exact (mem_issuedCalls_snoc.mp h).elim hlast he
      · exact mem_answered_snoc.mpr (Or.inl hanswered)
    · obtain ⟨before, x, after, rfl, hissues, hlast⟩ := exists_last_issue hmem
      refine ⟨before, x, after ++ [e], by simp, hissues, fun h => ?_, ?_⟩
      · exact (mem_issuedCalls_snoc.mp h).elim hlast he
      · exact mem_answered_snoc.mpr (Or.inr hanswers)

theorem done_iff : Done trace call ↔ call ∈ issuedCalls trace ∧ ¬ Open trace call := by
  induction trace using List.reverseRecOn with
  | nil => simp [Done, issuedCalls, issued]
  | append_singleton trace e ih =>
    rw [mem_issuedCalls_snoc, open_snoc, done_snoc, ih]
    tauto

theorem Open.mem_issuedCalls (h : Open trace call) : call ∈ issuedCalls trace := by
  obtain ⟨before, e, after, rfl, hissues, -⟩ := h
  exact mem_issuedCalls_iff.mpr ⟨e, by simp, hissues⟩

theorem open_iff_foldl : Open trace call ↔
    trace.foldl (fun isOpen e => decide (Issues e call) || isOpen && !decide (Answers e call))
      false = true := by
  induction trace using List.reverseRecOn with
  | nil => simp [Open]
  | append_singleton trace e ih => simp [open_snoc, List.foldl_append, ih]

instance : Decidable (Open trace call) := decidable_of_iff _ open_iff_foldl.symm

instance : Decidable (Done trace call) := decidable_of_iff _ done_iff.symm

/-! ## Openings and closings -/

/-- What the events of a trace come to, each seen after the events before it. -/
def along {α : Type} (f : List Event → Event → Option α) (before : List Event) :
    List Event → List α
  | [] => []
  | e :: after => (f before e).toList ++ along f (before ++ [e]) after

theorem along_snoc {α : Type} (f : List Event → Event → Option α) (before : List Event) :
    along f before (trace ++ [e]) = along f before trace ++ (f (before ++ trace) e).toList := by
  induction trace generalizing before with
  | nil => simp [along]
  | cons x trace ih => simp [along, ih]

/-- The call that an event opens: the one it issues, unless that is open already. -/
def opens? (trace : List Event) (e : Event) : Option Issue :=
  (issue? e).filter fun i => ¬ Open trace i.call

/-- The calls opened in a trace, as often as they are, each with its batch. -/
def openings (trace : List Event) : List Issue := along opens? [] trace

/-- The batch in which a call was last opened. -/
def batchOf? (trace : List Event) (call : ToolCallId) : Option BatchId :=
  ((openings trace).reverse.find? (·.call = call)).map (·.batch)

/-- The call that an event closes: the one it answers, if that is open. -/
def closes? (trace : List Event) (e : Event) : Option Issue :=
  e.answer?.bind fun a =>
    if Open trace a.call then (batchOf? trace a.call).map fun b => ⟨b, a.call⟩ else none

/-- The calls closed in a trace, as often as they are, each with the batch that it was opened in. -/
def closings (trace : List Event) : List Issue := along closes? [] trace

def ofBatch (b : BatchId) (issues : List Issue) : List ToolCallId :=
  (issues.filter (·.batch = b)).map (·.call)

theorem openings_snoc : openings (trace ++ [e]) = openings trace ++ (opens? trace e).toList := by
  simp [openings, along_snoc]

theorem closings_snoc : closings (trace ++ [e]) = closings trace ++ (closes? trace e).toList := by
  simp [closings, along_snoc]

theorem mem_openings_of_issued (h : call ∈ issuedCalls trace) :
    call ∈ (openings trace).map (·.call) := by
  induction trace using List.reverseRecOn with
  | nil => exact absurd h List.not_mem_nil
  | append_singleton trace e ih =>
    rw [openings_snoc, List.map_append, List.mem_append]
    by_cases hopen : Open trace call
    · exact Or.inl (ih hopen.mem_issuedCalls)
    · rcases mem_issuedCalls_snoc.mp h with h | h
      · exact Or.inl (ih h)
      · obtain ⟨i, hi, rfl⟩ := Option.map_eq_some_iff.mp h
        exact Or.inr (by simp [opens?, hi, hopen])

theorem exists_batchOf? (h : call ∈ issuedCalls trace) : ∃ b, batchOf? trace call = some b := by
  obtain ⟨i, hi, hcall⟩ := List.mem_map.mp (mem_openings_of_issued h)
  cases hfind : (openings trace).reverse.find? (·.call = call) with
  | none => simpa [hcall] using List.find?_eq_none.mp hfind i (List.mem_reverse.mpr hi)
  | some j => exact ⟨j.batch, by rw [batchOf?, hfind, Option.map_some]⟩

/-- **Since it was last opened, a call is open until it is answered, and then done.** -/
theorem open_iff_not_answered_since {before after : List Event} (hissues : Issues e call)
    (hlast : ∀ xs x ys, after = xs ++ x :: ys → Issues x call → Open (before ++ e :: xs) call) :
    (Open (before ++ e :: after) call ↔ call ∉ answered after) ∧
      (Done (before ++ e :: after) call ↔ call ∈ answered after) := by
  have hissued : call ∈ issuedCalls (before ++ e :: after) :=
    mem_issuedCalls_iff.mpr ⟨e, by simp, hissues⟩
  suffices hopen : Open (before ++ e :: after) call ↔ call ∉ answered after by
    refine ⟨hopen, ?_⟩
    rw [done_iff, hopen, not_not]
    exact and_iff_right hissued
  induction after using List.reverseRecOn with
  | nil => exact iff_of_true (open_snoc.mpr (Or.inl hissues)) List.not_mem_nil
  | append_singleton after x ih =>
    have hbefore := ih (fun xs y ys hxs => hlast xs y (ys ++ [x]) (by simp [hxs]))
      (mem_issuedCalls_iff.mpr ⟨e, by simp, hissues⟩)
    rw [← List.cons_append, ← List.append_assoc, open_snoc, mem_answered_snoc, hbefore, not_or]
    refine ⟨fun h => h.elim (fun hx => ?_) id, Or.inr⟩
    exact ⟨hbefore.mp (hlast after x [] rfl hx), hx.not_answers⟩

/-! ## What a trace tells -/

def openCalls (trace : List Event) : List ToolCallId :=
  ascending ((issuedCalls trace).filter (Open trace ·))

def doneCalls (trace : List Event) : List ToolCallId :=
  ascending ((issuedCalls trace).filter (Done trace ·))

/-- The calls issued or answered in order. -/
def knownCalls (trace : List Event) : List ToolCallId := ascending (trace.filterMap Event.call?)

theorem mem_openCalls : call ∈ openCalls trace ↔ Open trace call := by
  rw [openCalls, mem_ascending, List.mem_filter, decide_eq_true_eq]
  exact and_iff_right_of_imp Open.mem_issuedCalls

theorem mem_doneCalls : call ∈ doneCalls trace ↔ Done trace call := by
  rw [doneCalls, mem_ascending, List.mem_filter, decide_eq_true_eq]
  exact and_iff_right_of_imp fun h => (done_iff.mp h).1

theorem mem_knownCalls : call ∈ knownCalls trace ↔ ∃ e ∈ trace, e.call? = some call := by
  rw [knownCalls, mem_ascending, List.mem_filterMap]

theorem openCalls_ascending : Ascending (openCalls trace) := ascending_ascending _

theorem doneCalls_ascending : Ascending (doneCalls trace) := ascending_ascending _

theorem knownCalls_ascending : Ascending (knownCalls trace) := ascending_ascending _

def AnyOpen (trace : List Event) : Prop := ∃ call, Open trace call

/-- Some open call was opened in another batch. -/
def OpenOutside (trace : List Event) (b : BatchId) : Prop :=
  ∃ call, Open trace call ∧ batchOf? trace call ≠ some b

theorem anyOpen_iff : AnyOpen trace ↔ openCalls trace ≠ [] := by
  simp only [AnyOpen, ← mem_openCalls, ne_eq, List.eq_nil_iff_forall_not_mem, not_forall, not_not]

theorem openOutside_iff :
    OpenOutside trace b ↔ ∃ call ∈ openCalls trace, batchOf? trace call ≠ some b := by
  simp only [OpenOutside, mem_openCalls]

instance : Decidable (AnyOpen trace) := decidable_of_iff _ anyOpen_iff.symm

instance : Decidable (OpenOutside trace b) := decidable_of_iff _ openOutside_iff.symm

/-- Whether the order lets a call be the next of the batch that it was opened in, told the calls of
that batch opened so far and those closed. -/
def InTurn (order : Order) (trace : List Event) (call : ToolCallId) : Prop :=
  ∃ b ∈ batchOf? trace call,
    order.accepts (ofBatch b (openings trace)) (ofBatch b (closings trace)) call = some true

instance : Decidable (InTurn order trace call) := inferInstanceAs (Decidable (∃ _ ∈ _, _))

/-- What a trace tells of a result that comes next. -/
def ofAnswer (order : Order) (trace : List Event) (id : EventId) (call : ToolCallId) :
    List Violation :=
  if call ∉ issuedCalls trace then [.unmatched id call]
  else if ¬ Open trace call then [.repeated id call]
  else if ¬ InTurn order trace call then [.outOfOrder id call order.name]
  else []

/-- What a trace tells of the event that comes next. -/
def departures (order : Order) (trace : List Event) (e : Event) : List Violation :=
  match e.body with
  | .action p =>
    (if OpenOutside trace p.batch then
      [.interleaved e.id "new batch issued" (openCalls trace)] else []) ++
    if Open trace p.call then [.reissued e.id p.call "still pending"]
    else if Done trace p.call then [.reissued e.id p.call "already answered"]
    else []
  | .observation r => ofAnswer order trace e.id r.call
  | .agentError r => ofAnswer order trace e.id r.call
  | .message t =>
    if AnyOpen trace ∧ ¬ (t.role = .agent ∧ ∃ b ∈ t.batch, ¬ OpenOutside trace b) then
      [.interleaved e.id "message" (openCalls trace)] else []
  | .systemPrompt _ =>
    if AnyOpen trace then [.interleaved e.id "system prompt" (openCalls trace)] else []
  | .condensation _ | .condensationRequest _ | .condensationSummary _ => []

/-- The monitor that a trace tells. -/
def told (order : Order) (trace : List Event) : Monitor where
  order := order
  pending := openCalls trace
  completed := doneCalls trace
  seen := knownCalls trace
  issues := (openings trace).reverse
  results := (closings trace).reverse

@[simp] theorem mem_pending_told : c ∈ (told order trace).pending ↔ Open trace c := mem_openCalls

@[simp] theorem mem_completed_told : c ∈ (told order trace).completed ↔ Done trace c :=
  mem_doneCalls

@[simp] theorem mem_seen_told : c ∈ (told order trace).seen ↔ c ∈ knownCalls trace := Iff.rfl

@[simp] theorem issues_told : (told order trace).issues = (openings trace).reverse := rfl

@[simp] theorem results_told : (told order trace).results = (closings trace).reverse := rfl

theorem eq_told {m : Monitor} (horder : m.order = order) (hpending : Ascending m.pending)
    (hcompleted : Ascending m.completed) (hseen : Ascending m.seen)
    (hopen : ∀ c, c ∈ m.pending ↔ Open trace c) (hdone : ∀ c, c ∈ m.completed ↔ Done trace c)
    (hknown : ∀ c, c ∈ m.seen ↔ c ∈ knownCalls trace)
    (hissues : m.issues = (openings trace).reverse)
    (hresults : m.results = (closings trace).reverse) : m = told order trace := by
  have hp : m.pending = openCalls trace :=
    hpending.eq_of_mem_iff openCalls_ascending fun c => (hopen c).trans mem_openCalls.symm
  have hc : m.completed = doneCalls trace :=
    hcompleted.eq_of_mem_iff doneCalls_ascending fun c => (hdone c).trans mem_doneCalls.symm
  have hs : m.seen = knownCalls trace := hseen.eq_of_mem_iff knownCalls_ascending hknown
  rw [told, ← horder, ← hp, ← hc, ← hs, ← hissues, ← hresults]

/-! ## One event -/

theorem Issues.ne_none (h : Issues e call) : issue? e ≠ none := fun hnone => by
  simp [Issues, hnone] at h

theorem Answers.ne_none (h : Answers e call) : e.answer? ≠ none := fun hnone => by
  simp [Answers, hnone] at h

theorem mem_knownCalls_snoc : call ∈ knownCalls (trace ++ [e]) ↔
    call ∈ knownCalls trace ∨ Issues e call ∨ Answers e call := by
  have hcall : e.call? = some call ↔ Issues e call ∨ Answers e call := by
    cases hbody : e.body <;>
      simp [Event.call?, Issues, Answers, issue?, Event.asAction?, Event.answer?, hbody]
  simp only [mem_knownCalls, List.mem_append, List.mem_singleton, or_and_right, exists_or,
    exists_eq_left, hcall]

theorem mem_knownCalls_of_issued (h : call ∈ issuedCalls trace) : call ∈ knownCalls trace := by
  induction trace using List.reverseRecOn with
  | nil => exact absurd h List.not_mem_nil
  | append_singleton trace e ih =>
    exact mem_knownCalls_snoc.mpr ((mem_issuedCalls_snoc.mp h).imp ih Or.inl)

section

variable {id : EventId}

theorem told_snoc_other (hissue : issue? e = none) (hanswer : e.answer? = none) :
    told order trace = told order (trace ++ [e]) := by
  have hissues : ∀ c, ¬ Issues e c := fun c h => h.ne_none hissue
  have hanswers : ∀ c, ¬ Answers e c := fun c h => h.ne_none hanswer
  refine eq_told rfl openCalls_ascending doneCalls_ascending knownCalls_ascending
    (fun c => ?_) (fun c => ?_) (fun c => ?_) ?_ ?_
  · simp [open_snoc, hissues, hanswers]
  · simp [done_snoc, hissues, hanswers]
  · simp [mem_knownCalls_snoc, hissues, hanswers]
  · simp [openings_snoc, opens?, hissue]
  · simp [closings_snoc, closes?, hanswer]

section

variable (he : issue? e = some ⟨b, call⟩)
include he

theorem issues_iff : Issues e c ↔ c = call := by
  rw [Issues, he, Option.map_some, Option.some.injEq, eq_comm]

theorem not_answers : ¬ Answers e c := ((issues_iff he).mpr rfl).not_answers

theorem closes?_of_issue : closes? trace e = none := by
  have hnone : e.answer? = none := by
    cases hanswer : e.answer? with
    | none => rfl
    | some a =>
      have hanswers : Answers e a.call := by rw [Answers, hanswer, Option.map_some]
      exact absurd hanswers (not_answers he)
  rw [closes?, hnone, Option.bind_none]

theorem told_snoc_reissue (hopen : Open trace call) :
    told order trace = told order (trace ++ [e]) := by
  refine eq_told rfl openCalls_ascending doneCalls_ascending knownCalls_ascending
    (fun c => ?_) (fun c => ?_) (fun c => ?_) ?_ ?_
  · simp only [mem_pending_told, open_snoc, issues_iff he, not_answers he, not_false_iff, and_true]
    exact (or_iff_right_of_imp fun hc => hc ▸ hopen).symm
  · simp only [mem_completed_told, done_snoc, issues_iff he, not_answers he, false_and, or_false]
    refine (and_iff_right_of_imp fun hdone hc => ?_).symm
    exact (done_iff.mp hdone).2 (hc ▸ hopen)
  · simp only [mem_seen_told, mem_knownCalls_snoc, issues_iff he, not_answers he, or_false]
    refine (or_iff_left_of_imp fun hc => ?_).symm
    exact hc ▸ mem_knownCalls_of_issued hopen.mem_issuedCalls
  · simp [openings_snoc, opens?, he, hopen]
  · simp [closings_snoc, closes?_of_issue he]

theorem told_snoc_issue (hopen : ¬ Open trace call) :
    { told order trace with
      pending := call.insert (openCalls trace)
      completed := (doneCalls trace).erase call
      seen := call.insert (knownCalls trace)
      issues := ⟨b, call⟩ :: (openings trace).reverse } = told order (trace ++ [e]) := by
  refine eq_told rfl openCalls_ascending.insert doneCalls_ascending.erase
    knownCalls_ascending.insert (fun c => ?_) (fun c => ?_) (fun c => ?_) ?_ ?_
  · simp only [mem_insert, mem_openCalls, open_snoc, issues_iff he, not_answers he, not_false_iff,
      and_true]
  · rw [doneCalls_ascending.nodup.mem_erase_iff, mem_doneCalls]
    simp only [done_snoc, issues_iff he, not_answers he, false_and, or_false]
  · simp only [mem_insert, mem_knownCalls_snoc, issues_iff he, not_answers he, or_false]
    exact or_comm
  · simp [openings_snoc, opens?, he, hopen, Option.filter_some]
  · simp [closings_snoc, closes?_of_issue he]

end

section

variable (he : e.answer?.map (·.call) = some call)
include he

theorem answers_iff : Answers e c ↔ c = call := by
  rw [Answers, he, Option.some.injEq, eq_comm]

theorem not_issues : ¬ Issues e c := fun h => h.not_answers ((answers_iff he).mpr rfl)

theorem opens?_of_answer : opens? trace e = none := by
  have hnone : issue? e = none := by
    cases hissue : issue? e with
    | none => rfl
    | some i =>
      have hissues : Issues e i.call := by rw [Issues, hissue, Option.map_some]
      exact absurd hissues (not_issues he)
  rw [opens?, hnone, Option.filter_none]

theorem closes?_of_answer : closes? trace e =
    if Open trace call then (batchOf? trace call).map fun b => ⟨b, call⟩ else none := by
  obtain ⟨a, ha, rfl⟩ := Option.map_eq_some_iff.mp he
  rw [closes?, ha, Option.bind_some]

theorem told_snoc_stray (hopen : ¬ Open trace call) :
    { told order trace with seen := call.insert (knownCalls trace) } =
      told order (trace ++ [e]) := by
  refine eq_told rfl openCalls_ascending doneCalls_ascending knownCalls_ascending.insert
    (fun c => ?_) (fun c => ?_) (fun c => ?_) ?_ ?_
  · simp only [mem_pending_told, open_snoc, not_issues he, answers_iff he, false_or]
    refine (and_iff_left_of_imp fun hc hcall => hopen ?_).symm
    rwa [← hcall]
  · simp only [mem_completed_told, done_snoc, not_issues he, answers_iff he, not_false_iff,
      true_and]
    refine (or_iff_left_of_imp ?_).symm
    rintro ⟨rfl, hissued⟩
    exact done_iff.mpr ⟨hissued, hopen⟩
  · simp only [mem_insert, mem_knownCalls_snoc, not_issues he, answers_iff he, false_or]
    exact or_comm
  · simp [openings_snoc, opens?_of_answer he]
  · simp [closings_snoc, closes?_of_answer he, hopen]

theorem told_snoc_answer (hopen : Open trace call) (hb : batchOf? trace call = some b) :
    { told order trace with
      pending := (openCalls trace).erase call
      completed := call.insert (doneCalls trace)
      results := ⟨b, call⟩ :: (closings trace).reverse } = told order (trace ++ [e]) := by
  refine eq_told rfl openCalls_ascending.erase doneCalls_ascending.insert knownCalls_ascending
    (fun c => ?_) (fun c => ?_) (fun c => ?_) ?_ ?_
  · rw [openCalls_ascending.nodup.mem_erase_iff, mem_openCalls]
    simp only [open_snoc, not_issues he, answers_iff he, false_or, ne_eq, and_comm]
  · simp only [mem_insert, mem_doneCalls, done_snoc, not_issues he, answers_iff he, not_false_iff,
      true_and]
    rw [or_comm, and_iff_left_of_imp fun hc => hc ▸ hopen.mem_issuedCalls]
  · simp only [mem_seen_told, mem_knownCalls_snoc, not_issues he, answers_iff he, false_or]
    refine (or_iff_left_of_imp fun hc => ?_).symm
    exact hc ▸ mem_knownCalls_of_issued hopen.mem_issuedCalls
  · simp [openings_snoc, opens?_of_answer he]
  · simp [closings_snoc, closes?_of_answer he, hopen, hb]

end

/-! ### The monitor's answer -/

theorem pendingOutside_told :
    (told order trace).pendingOutside b = decide (OpenOutside trace b) := by
  rw [Bool.eq_iff_iff, decide_eq_true_eq, openOutside_iff, Monitor.pendingOutside, List.any_eq_true]
  simp only [decide_eq_true_eq]
  rfl

theorem callsOf_reverse {issues : List Issue} :
    Monitor.callsOf b issues.reverse = ofBatch b issues := by
  rw [Monitor.callsOf, ofBatch, List.filter_reverse, List.map_reverse, List.reverse_reverse]

theorem interrupt_told {what : String} {allowed : Bool} :
    (told order trace).interrupt id what allowed =
      { monitor := told order trace
        violations :=
          if AnyOpen trace ∧ allowed = false then [.interleaved id what (openCalls trace)]
          else [] } := by
  have hany : (openCalls trace).isEmpty = !decide (AnyOpen trace) := by
    rw [Bool.eq_iff_iff]
    simp [anyOpen_iff]
  rw [Monitor.interrupt, told, hany]
  by_cases hopen : AnyOpen trace <;> cases allowed <;> simp [hopen]

theorem joins_told {t : Message} : (told order trace).joins t = true ↔
    t.role = .agent ∧ ∃ b ∈ t.batch, ¬ OpenOutside trace b := by
  simp [Monitor.joins, pendingOutside_told, Option.any_eq_true]

theorem issue_told (he : issue? e = some ⟨b, call⟩) :
    (told order trace).issue id b call =
      { monitor := told order (trace ++ [e])
        violations :=
          (if OpenOutside trace b then
            [.interleaved id "new batch issued" (openCalls trace)] else []) ++
          if Open trace call then [.reissued id call "still pending"]
          else if Done trace call then [.reissued id call "already answered"]
          else [] } := by
  simp only [Monitor.issue, mem_pending_told, mem_completed_told, pendingOutside_told,
    decide_eq_true_eq]
  by_cases hopen : Open trace call
  · rw [if_pos hopen, if_pos hopen, ← told_snoc_reissue he hopen]
    rfl
  · rw [if_neg hopen, if_neg hopen, ← told_snoc_issue he hopen]
    rfl

theorem answer_told (hpolicy : order.NeverFails) (he : e.answer?.map (·.call) = some call) :
    (told order trace).answer id call =
      { monitor := told order (trace ++ [e]), violations := ofAnswer order trace id call } := by
  simp only [Monitor.answer, mem_pending_told, mem_completed_told, ofAnswer]
  by_cases hopen : Open trace call
  · have hissued := hopen.mem_issuedCalls
    obtain ⟨b, hb⟩ := exists_batchOf? hissued
    have hturn : InTurn order trace call ↔
        order.accepts (ofBatch b (openings trace)) (ofBatch b (closings trace)) call =
          some true := by
      simp [InTurn, hb]
    have htold : (told order trace).batchOf? call = some b := hb
    rw [if_pos hopen, if_neg (not_not.mpr hissued), if_neg (not_not.mpr hopen), Monitor.resolve,
      htold, ← told_snoc_answer he hopen hb]
    simp only [told, callsOf_reverse, hturn]
    cases haccepts :
      order.accepts (ofBatch b (openings trace)) (ofBatch b (closings trace)) call with
    | none => exact absurd haccepts (hpolicy _ _ _)
    | some accepted => cases accepted <;> simp
  · rw [if_neg hopen, if_pos hopen, ← told_snoc_stray he hopen]
    by_cases hissued : call ∈ issuedCalls trace <;> simp [done_iff, hissued, hopen, told]

end

/-- **The next event moves the monitor that a trace tells on to the one that the longer trace tells,
and what is reported is what the trace tells of the event.** -/
theorem Monitor.told_step (hpolicy : order.NeverFails) :
    (told order trace).step e =
      { monitor := told order (trace ++ [e]), violations := departures order trace e } := by
  rw [Monitor.step, departures]
  cases hbody : e.body
  case action p => exact issue_told (by simp [issue?, Event.asAction?, hbody])
  case observation r => exact answer_told hpolicy (by simp [Event.answer?, hbody])
  case agentError r => exact answer_told hpolicy (by simp [Event.answer?, hbody])
  -- Nothing else issues or answers a call, so the trace tells what it told before.
  all_goals
    rw [show told order (trace ++ [e]) = told order trace from
      (told_snoc_other (by simp [issue?, Event.asAction?, hbody])
        (by simp [Event.answer?, hbody])).symm]
  case message t =>
    have hjoins : (told order trace).joins t = true ↔ _ := joins_told
    simp only [interrupt_told, ← hjoins, Bool.not_eq_true]
  case systemPrompt p => simp only [interrupt_told, and_true]

example : departures .issue [called "a1" "b1" "y", called "a2" "b2" "x", succeeded "r" "y" "a1",
    called "a3" "b2" "x"] (called "a4" "b1" "y") =
      [.interleaved ⟨"a4"⟩ "new batch issued" [⟨"x"⟩],
        .reissued ⟨"a4"⟩ ⟨"y"⟩ "already answered"] := by
  decide +kernel

/-! ## Every trace -/

theorem told_nil : told order [] = Monitor.ofOrder order := by
  simp [told, Monitor.ofOrder, openCalls, doneCalls, knownCalls, openings, closings, along,
    issuedCalls, issued, ascending]

/-- After any trace, a monitor is what the trace tells. -/
theorem Monitor.after_eq_told (hpolicy : order.NeverFails) (trace : List Event) :
    Monitor.after order trace = told order trace := by
  induction trace using List.reverseRecOn with
  | nil => exact told_nil.symm
  | append_singleton trace e ih => rw [Monitor.after_snoc, ih, Monitor.told_step hpolicy]

/-- What a monitor knows after a trace, and what it does at the next event. -/
structure Monitor.Follows (order : Order) (trace : List Event) (m : Monitor) : Prop where
  pending : ∀ call, call ∈ m.pending ↔ Open trace call
  completed : ∀ call, call ∈ m.completed ↔ Done trace call
  disjoint : ∀ call ∈ m.pending, call ∉ m.completed
  /-- Since a call was last opened, it is pending until a result for it comes, then completed. -/
  since : ∀ before e after call, trace = before ++ e :: after → Issues e call →
    (∀ xs x ys, after = xs ++ x :: ys → Issues x call → Open (before ++ e :: xs) call) →
    (call ∈ m.pending ↔ call ∉ answered after) ∧ (call ∈ m.completed ↔ call ∈ answered after)
  /-- What is counted are the distinct calls issued or answered. -/
  seen : m.seen.length = (trace.filterMap Event.call?).dedup.length
  violations : ∀ e, (m.step e).violations = departures order trace e
  /-- The order of results does not fail. -/
  failed : ∀ e, (m.step e).failed = false
  reissue : ∀ e call, Issues e call → Open trace call → (m.step e).monitor = m
  issue : ∀ e call, Issues e call →
    call ∈ (m.step e).monitor.pending ∧ call ∉ (m.step e).monitor.completed
  answer : ∀ e call, Answers e call → Open trace call →
    call ∉ (m.step e).monitor.pending ∧ call ∈ (m.step e).monitor.completed

/-- **After any trace, however far it is from the protocol, what a monitor knows and what it makes
of the next event is what the trace tells.** -/
theorem Monitor.after_follows (hpolicy : order.NeverFails) (trace : List Event) :
    (Monitor.after order trace).Follows order trace := by
  have hnext : ∀ e, ((told order trace).step e).monitor = told order (trace ++ [e]) := fun e => by
    rw [Monitor.told_step hpolicy]
  rw [Monitor.after_eq_told hpolicy]
  refine
    { pending := fun call => mem_openCalls
      completed := fun call => mem_doneCalls
      disjoint := fun call hopen hdone =>
        (done_iff.mp (mem_doneCalls.mp hdone)).2 (mem_openCalls.mp hopen)
      since := fun before e after call hsplit hissues hlast => ?_
      seen := length_ascending
      violations := fun e => by rw [Monitor.told_step hpolicy]
      failed := fun e => by rw [Monitor.told_step hpolicy]
      reissue := fun e call hissues hopen => ?_
      issue := fun e call hissues => ?_
      answer := fun e call hanswers hopen => ?_ }
  · obtain ⟨hopen, hdone⟩ := open_iff_not_answered_since hissues hlast
    subst hsplit
    exact ⟨mem_openCalls.trans hopen, mem_doneCalls.trans hdone⟩
  · obtain ⟨⟨b, call'⟩, he, rfl⟩ := Option.map_eq_some_iff.mp hissues
    rw [hnext, ← told_snoc_reissue he hopen]
  · rw [hnext]
    exact ⟨mem_openCalls.mpr (open_snoc.mpr (Or.inl hissues)),
      fun hdone => (done_snoc.mp (mem_doneCalls.mp hdone)).1 hissues⟩
  · have hissues : ¬ Issues e call := fun h => h.not_answers hanswers
    rw [hnext]
    refine ⟨fun h => ?_, mem_doneCalls.mpr (done_snoc.mpr ⟨hissues, Or.inr ⟨hanswers, ?_⟩⟩)⟩
    · exact (open_snoc.mp (mem_openCalls.mp h)).elim hissues fun h => h.2 hanswers
    · exact hopen.mem_issuedCalls

/-- A result of no call, calls of two batches at once, and a call issued again while it is open. -/
theorem Monitor.after_follows_disorderly :
    Order.issue.NeverFails ∧
      (Monitor.after .issue [succeeded "r" "x" "a", called "a1" "b1" "x", called "a2" "b2" "y",
        called "a3" "b2" "x"]).Follows .issue [succeeded "r" "x" "a", called "a1" "b1" "x",
          called "a2" "b2" "y", called "a3" "b2" "x"] := by
  have hpolicy : Order.issue.NeverFails := fun _ _ _ => Option.some_ne_none _
  exact ⟨hpolicy, Monitor.after_follows hpolicy _⟩

end AgentMemory.Compliance
