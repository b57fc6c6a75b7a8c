import AgentMemory.Proofs.Conversation.Control
import AgentMemory.Proofs.Conversation.Derived
import AgentMemory.Proofs.EventLog.Reading

/-!
# Interrupting and stopping

What the controls of an execution come to is told by their sequence alone: which status there is,
which model call is under way, which tokens have been handed out and which of them are cancelled
(`Obeys`). One control more is one step of this (`Tracks.snoc`). It holds of a conversation whatever
else is asked of it in between, so the sequence also tells which results of tools are accepted.
-/

namespace AgentMemory

open Cancel (Token)

namespace Execution

/-! ## What a sequence of controls tells -/

/-- The execution after some controls. -/
def after (ks : List Control) : Execution := ks.foldl Control.perform .initial

/-- There was a control of one kind, which may depend on those before it, and every one after it is
of another kind. -/
def Since (first : List Control → Control → Prop) (later : Control → Prop)
    (ks : List Control) : Prop :=
  ∃ before k rest, ks = before ++ k :: rest ∧ first before k ∧ ∀ k' ∈ rest, later k'

/-- The status that was set last. -/
def lastStatus (ks : List Control) : ExecutionStatus :=
  (ks.filterMap Control.sets?).getLast?.getD .idle

/-- A token has been handed out. -/
def Handed (ks : List Control) (t : Token) : Prop :=
  Since (fun before (k : Control) => k.handsOut? (after before) = some t) (fun _ => True) ks

/-- A model call has begun, and nothing has ended it since. -/
def CallBegun (ks : List Control) : Prop :=
  Since (fun _ k => k = .beginCall) (fun k => k.endsCall = false) ks

/-- The model call that began last was handed the token, and nothing has ended it since. -/
def LastCall (ks : List Control) (t : Token) : Prop :=
  Since (fun before (k : Control) => k = .beginCall ∧ k.handsOut? (after before) = some t)
    (fun k => k ≠ .beginCall ∧ k.endsCall = false) ks

/-- The model call with the token was interrupted. -/
def Interrupted (ks : List Control) (t : Token) : Prop :=
  Since (fun before k => k = .interrupt ∧ LastCall before t) (fun _ => True) ks

/-- What a sequence of controls has made of an execution. -/
structure Obeys (ks : List Control) (x : Execution) : Prop where
  status : x.status = lastStatus ks
  /-- A token that is handed out is none that has been handed out before. -/
  distinct : ∀ (k : Control) (t : Token), k.handsOut? x = some t → ¬ Handed ks t
  /-- An interrupt tells whether a model call has begun that nothing has ended. -/
  reports : x.interrupt.2 = true ↔ CallBegun ks
  call : CallBegun ks → ∃ t, Handed ks t ∧ LastCall ks t
  /-- It cancels the token of the call that began last, and no other one. -/
  interrupts : ∀ t, Handed ks t → (x.interrupt.1.tokens.isCancelled t = true ↔
    x.tokens.isCancelled t = true ∨ LastCall ks t)
  /-- A stop cancels what has been handed out and what will be; else only interrupts cancel. -/
  cancelled : ∀ t, Handed ks t →
    (x.tokens.isCancelled t = true ↔ .stop ∈ ks ∨ Interrupted ks t)

/-! ## One control more -/

section

variable {first : List Control → Control → Prop} {later : Control → Prop} {ks : List Control}
  {k : Control} {t : Token}

theorem after_snoc (ks : List Control) (k : Control) :
    after (ks ++ [k]) = k.perform (after ks) := by
  rw [after, List.foldl_append]
  rfl

theorem not_since_nil : ¬ Since first later [] := by
  rintro ⟨before, k, rest, heq, -⟩
  simp at heq

theorem since_snoc_iff :
    Since first later (ks ++ [k]) ↔ first ks k ∨ Since first later ks ∧ later k := by
  constructor
  · rintro ⟨before, k', rest, heq, hfirst, hlater⟩
    obtain rfl | ⟨init, last, rfl⟩ := List.eq_nil_or_concat rest
    · obtain ⟨rfl, hk⟩ := List.append_inj' heq rfl
      obtain rfl := List.singleton_injective hk
      exact .inl hfirst
    · rw [List.concat_eq_append, ← List.cons_append, ← List.append_assoc] at heq
      obtain ⟨rfl, hk⟩ := List.append_inj' heq rfl
      obtain rfl := List.singleton_injective hk
      rw [List.concat_eq_append, List.forall_mem_append] at hlater
      exact .inr ⟨⟨before, k', init, rfl, hfirst, hlater.1⟩, hlater.2 k (by simp)⟩
  · rintro (hfirst | ⟨⟨before, k', rest, rfl, hfirst, hlater⟩, hk⟩)
    · exact ⟨ks, k, [], rfl, hfirst, nofun⟩
    · refine ⟨before, k', rest ++ [k], by simp, hfirst, ?_⟩
      rw [List.forall_mem_append]
      exact ⟨hlater, by simpa using hk⟩

theorem handed_snoc_iff :
    Handed (ks ++ [k]) t ↔ k.handsOut? (after ks) = some t ∨ Handed ks t := by
  rw [Handed, since_snoc_iff, and_true, ← Handed]

theorem interrupted_snoc_iff :
    Interrupted (ks ++ [k]) t ↔ (k = .interrupt ∧ LastCall ks t) ∨ Interrupted ks t := by
  rw [Interrupted, since_snoc_iff, and_true, ← Interrupted]

theorem lastStatus_snoc (ks : List Control) (k : Control) :
    lastStatus (ks ++ [k]) = k.sets?.getD (lastStatus ks) := by
  rw [lastStatus, List.filterMap_append, List.getLast?_append]
  cases k <;> rfl

theorem LastCall.handed (h : LastCall ks t) : Handed ks t := by
  obtain ⟨before, k, rest, heq, ⟨-, ht⟩, -⟩ := h
  exact ⟨before, k, rest, heq, ht, fun _ _ => trivial⟩

theorem Interrupted.handed (h : Interrupted ks t) : Handed ks t := by
  obtain ⟨before, k, rest, rfl, ⟨-, hcall⟩, -⟩ := h
  obtain ⟨earlier, k', between, rfl, ht, -⟩ := hcall.handed
  exact ⟨earlier, k', between ++ k :: rest, by simp, ht, fun _ _ => trivial⟩

theorem callBegun_iff : CallBegun ks ↔ ∃ t, LastCall ks t := by
  induction ks using List.reverseRecOn with
  | nil => exact ⟨fun h => absurd h not_since_nil, fun ⟨_, h⟩ => absurd h not_since_nil⟩
  | append_singleton ks k ih =>
    have hbegun : CallBegun (ks ++ [k]) ↔ k = .beginCall ∨ CallBegun ks ∧ k.endsCall = false :=
      since_snoc_iff
    have hlast : ∀ t, LastCall (ks ++ [k]) t ↔
        (k = .beginCall ∧ k.handsOut? (after ks) = some t) ∨
          LastCall ks t ∧ k ≠ .beginCall ∧ k.endsCall = false := fun t => since_snoc_iff
    simp only [hbegun, hlast, ih]
    by_cases hk : k = .beginCall
    · subst hk
      exact ⟨fun _ => ⟨_, .inl ⟨rfl, rfl⟩⟩, fun _ => .inl rfl⟩
    · simp [hk]

end

/-! ## Along the controls -/

section

variable {x : Execution} {ks : List Control} {k : Control} {t : Token}

theorem Sound.cancels?_eq_root_iff (h : x.Sound) : k.cancels? x = some x.root ↔ k = .stop := by
  cases k with
  | stop => simp [Control.cancels?]
  | interrupt =>
    refine iff_of_false (fun hactive => ?_) nofun
    exact (h.active x.root hactive).2 rfl
  | setStatus | beginCall | endCall | derive => exact iff_of_false nofun nofun

theorem Control.cancels?_eq_iff_of_ne (ht : t ≠ x.root) :
    k.cancels? x = some t ↔ k = .interrupt ∧ x.active = some t := by
  cases k with
  | stop => simp [cancels?, Ne.symm ht]
  | interrupt => simp [cancels?]
  | setStatus | beginCall | endCall | derive => simp [cancels?]

/-- What the controls tell of the execution, with all that the next step needs. -/
structure Tracks (ks : List Control) (x : Execution) : Prop where
  reached : x = after ks
  sound : x.Sound
  handed : ∀ t, Handed ks t ↔ x.tokens.Has t ∧ t ≠ x.root
  active : ∀ t, x.active = some t ↔ LastCall ks t
  status : x.status = lastStatus ks
  root : x.tokens.isCancelled x.root = true ↔ .stop ∈ ks
  cancelled : ∀ t, Handed ks t →
    (x.tokens.isCancelled t = true ↔ .stop ∈ ks ∨ Interrupted ks t)

namespace Tracks

theorem initial : Tracks [] .initial where
  reached := rfl
  sound := .initial
  handed t := by
    refine iff_of_false not_since_nil ?_
    rintro ⟨hhas, hne⟩
    obtain ⟨i⟩ := t
    obtain rfl : i = 0 := Nat.lt_one_iff.mp hhas
    exact hne rfl
  active t := iff_of_false nofun not_since_nil
  status := rfl
  root := by decide
  cancelled t ht := absurd ht not_since_nil

theorem not_handed (h : Tracks ks x) (ht : k.handsOut? x = some t) : ¬ Handed ks t := fun hmem =>
  (h.sound.effect_of_handsOut ht).not_has h.sound ((h.handed t).mp hmem).1

theorem handed_snoc (h : Tracks ks x) (k : Control) (t : Token) :
    Handed (ks ++ [k]) t ↔ (k.perform x).tokens.Has t ∧ t ≠ x.root := by
  rw [handed_snoc_iff, ← h.reached, h.handed t, (h.sound.effect k).has_iff h.sound, or_and_right,
    or_comm]
  refine or_congr_right ⟨fun ht => ⟨ht, ?_⟩, And.left⟩
  rintro rfl
  exact (h.sound.effect_of_handsOut ht).not_has h.sound h.sound.has_root

theorem active_snoc (h : Tracks ks x) (k : Control) (t : Token) :
    (k.perform x).active = some t ↔ LastCall (ks ++ [k]) t := by
  rw [LastCall, since_snoc_iff, ← LastCall, ← h.active t, ← h.reached, k.active_perform]
  by_cases hbegin : k = .beginCall
  · simp [hbegin]
  · cases hends : k.endsCall <;> simp [hbegin]

theorem isCancelled_root (h : Tracks ks x) (k : Control) :
    (k.perform x).tokens.isCancelled x.root = true ↔ .stop ∈ ks ++ [k] := by
  rw [(h.sound.effect k).isCancelled_iff h.sound h.sound.has_root, or_self, h.root,
    h.sound.cancels?_eq_root_iff, List.mem_append, List.mem_singleton, eq_comm (a := k)]

theorem isCancelled_old (h : Tracks ks x) (k : Control) (ht : Handed ks t) :
    (k.perform x).tokens.isCancelled t = true ↔
      .stop ∈ ks ++ [k] ∨ Interrupted (ks ++ [k]) t := by
  obtain ⟨hhas, hne⟩ := (h.handed t).mp ht
  rw [(h.sound.effect k).isCancelled_iff h.sound hhas, h.cancelled t ht,
    Control.cancels?_eq_iff_of_ne hne, h.sound.cancels?_eq_root_iff, h.active t,
    interrupted_snoc_iff, List.mem_append, List.mem_singleton, eq_comm (a := k)]
  tauto

theorem isCancelled_new (h : Tracks ks x) (ht : k.handsOut? x = some t) :
    (k.perform x).tokens.isCancelled t = true ↔
      .stop ∈ ks ++ [k] ∨ Interrupted (ks ++ [k]) t := by
  have hnew := h.not_handed ht
  have hinterrupted : ¬ Interrupted (ks ++ [k]) t := by
    rw [interrupted_snoc_iff]
    rintro (⟨-, hcall⟩ | hinterrupted)
    · exact hnew hcall.handed
    · exact hnew hinterrupted.handed
  have hstop : .stop ≠ k := by
    rintro rfl
    cases ht
  rw [(h.sound.effect_of_handsOut ht).isCancelled_new h.sound, h.root, List.mem_append,
    List.mem_singleton, iff_false_intro hstop, or_false, iff_false_intro hinterrupted, or_false]

theorem snoc (h : Tracks ks x) (k : Control) : Tracks (ks ++ [k]) (k.perform x) where
  reached := by rw [after_snoc, ← h.reached]
  sound := h.sound.perform k
  handed t := by rw [k.root_perform, h.handed_snoc]
  active := h.active_snoc k
  status := by rw [k.status_perform, lastStatus_snoc, h.status]
  root := by rw [k.root_perform, h.isCancelled_root]
  cancelled t ht := by
    obtain ht | ht := handed_snoc_iff.mp ht
    · exact h.isCancelled_new (h.reached ▸ ht)
    · exact h.isCancelled_old k ht

/-- An interrupt is a step like the others, so the invariant tells what it does. -/
theorem obeys (h : Tracks ks x) : Obeys ks x where
  status := h.status
  distinct _ _ := h.not_handed
  reports := by
    rw [interrupt_eq, Option.isSome_iff_exists, callBegun_iff]
    exact exists_congr h.active
  call hcall := by
    obtain ⟨t, ht⟩ := callBegun_iff.mp hcall
    exact ⟨t, ht.handed, ht⟩
  interrupts t ht := by
    have hstep := h.isCancelled_old .interrupt ht
    rw [interrupted_snoc_iff, List.mem_append, List.mem_singleton] at hstep
    rw [h.cancelled t ht]
    refine Iff.trans hstep ?_
    simp only [reduceCtorEq, or_false, true_and]
    tauto
  cancelled := h.cancelled

end Tracks

theorem tracks_after (ks : List Control) : Tracks ks (after ks) := by
  induction ks using List.reverseRecOn with
  | nil => exact .initial
  | append_singleton ks k ih =>
    rw [after_snoc]
    exact ih.snoc k

end
end Execution

/-! ## Results of tools -/

namespace Conversation

open Batching (ids)
open Execution (Control Interrupted LastCall Obeys after lastStatus)

variable {c : Conversation} {fresh : EventId} {e : Event} {ks : List Control}

/-- Nothing stands against adding an event: its payload is accepted, and its id is new. -/
structure CanAdd (c : Conversation) (fresh : EventId) (e : Event) : Prop where
  payload : c.payloadError? e = none
  new : (e.identified fresh).id ∉ ids c.log.toList

theorem toList_add (h : c.CanAdd fresh e) :
    (c.add fresh e).state.log.toList = c.log.toList ++ [e.identified fresh] := by
  obtain ⟨log, happend⟩ := EventLog.exists_append fun x hx heq =>
    h.new (Batching.mem_ids.mpr ⟨x, hx, heq⟩)
  rw [add_of_append h.payload happend]
  exact EventLog.toList_append happend

theorem state_add_of_not (h : ¬ c.CanAdd fresh e) : (c.add fresh e).state = c := by
  unfold add
  split
  · rfl
  · next hpayload =>
    have hknown : (e.identified fresh).id ∈ ids c.log.toList := by
      by_contra hnew
      exact h ⟨hpayload, hnew⟩
    rw [EventLog.append_eq_error_iff.mpr ⟨hknown, rfl⟩]

theorem toList_acceptResult_iff :
    (c.acceptResult fresh e).state.log.toList = c.log.toList ++ [e.identified fresh] ↔
      c.execution.status.acceptsResults = true ∧ c.CanAdd fresh e := by
  have hsame : c.log.toList ≠ c.log.toList ++ [e.identified fresh] := by simp
  unfold acceptResult
  split
  · next haccepts =>
    rw [iff_true_intro haccepts, true_and]
    by_cases hcan : c.CanAdd fresh e
    · exact iff_of_true (toList_add hcan) hcan
    · refine iff_of_false ?_ hcan
      show (c.add fresh e).state.log.toList ≠ _
      rwa [state_add_of_not hcan]
  · next hrefuses => exact iff_of_false hsame fun h => hrefuses h.1

theorem state_acceptResult_of_not
    (h : ¬ (c.execution.status.acceptsResults = true ∧ c.CanAdd fresh e)) :
    (c.acceptResult fresh e).state = c := by
  unfold acceptResult
  split
  · next haccepts => exact state_add_of_not fun hcan => h ⟨haccepts, hcan⟩
  · rfl

theorem acceptsResults_iff (s : ExecutionStatus) :
    s.acceptsResults = true ↔ s ≠ .interrupted ∧ s ≠ .finished := by
  cases s <;> decide

/-! ## Along the life of a conversation -/

theorem Change.execution_eq {proper : Prop} {o : Outcome Unit} (h : c.Change proper o) :
    o.state.execution = c.execution := by
  cases h with
  | idle hidle => exact congrArg execution hidle.1
  | event => rfl
  | config hfits hnew =>
    rw [updateConfig_of_new _ hfits hnew]
    rfl

theorem Operation.execution_perform (o : Operation) (c : Conversation)
    (ho : ∀ x, o ≠ .control x) : (o.perform c).state.execution = c.execution := by
  obtain hchange | haside := o.change_or_aside c
  · exact hchange.execution_eq
  · cases haside with
    | control x => exact absurd rfl (ho x)
    | subscribe | unsubscribe | blockAction | blockMessage | popBlockedAction | popBlockedMessage =>
      rfl

/-- A conversation, and the controls that its execution has been asked for since it was begun or
restored. Anything else may have been asked of the conversation in between. -/
inductive Controlled : Conversation → List Control → Prop
  | begun (id : ConversationId) (base : BaseState) (log : EventLog)
      (compliance : ComplianceSettings) (storage : Option Storage)
      (payloads : Option PayloadRegistry) :
      Controlled { assemble id base log compliance storage with payloads } []
  | control {c : Conversation} {ks : List Control} (h : Controlled c ks) (k : Control) :
      Controlled { c with execution := k.perform c.execution } (ks ++ [k])
  | operation {c : Conversation} {ks : List Control} (h : Controlled c ks) (o : Operation)
      (ho : ∀ x, o ≠ .control x) : Controlled (o.perform c).state ks

theorem Controlled.execution_eq (h : Controlled c ks) : c.execution = after ks := by
  induction h with
  | begun => rfl
  | @control c ks h k ih =>
    rw [Execution.after_snoc, ← ih]
  | operation h o ho ih => rw [o.execution_perform _ ho, ih]

/-- **What interrupts and stops come to**, whatever else is asked of the conversation: the tokens
that are cancelled and the status are told by the sequence of the controls. A result is appended if
the status that was set last is neither that of an interrupt nor that of a stop and the event can be
added; if not, nothing is changed. -/
theorem Controlled.obeys_controls (h : Controlled c ks) :
    Obeys ks c.execution ∧ ∀ fresh e,
      ((c.acceptResult fresh e).state.log.toList = c.log.toList ++ [e.identified fresh] ↔
        (lastStatus ks ≠ .interrupted ∧ lastStatus ks ≠ .finished) ∧ c.CanAdd fresh e) ∧
      ((c.acceptResult fresh e).state.log.toList = c.log.toList ++ [e.identified fresh] ∨
        (c.acceptResult fresh e).state = c) := by
  have hobeys : Obeys ks c.execution := h.execution_eq ▸ (Execution.tracks_after ks).obeys
  refine ⟨hobeys, fun fresh e => ⟨?_, ?_⟩⟩
  · rw [toList_acceptResult_iff, acceptsResults_iff, hobeys.status]
  · rw [toList_acceptResult_iff]
    exact or_iff_not_imp_left.mpr state_acceptResult_of_not

end Conversation

namespace Sample

/-- A call is interrupted beside a token that only a stop cancels. -/
def interrupted : Conversation :=
  { started with execution := Execution.after [.beginCall, .derive, .interrupt] }

def resulted : Conversation := (started.acceptResult ⟨"x"⟩ (succeeded "r" "c" "a")).state

end Sample

namespace Conversation

open Execution (Interrupted LastCall lastStatus)
open Sample (interrupted resulted started succeeded)

theorem controlled_started : Controlled started [] := .begun _ _ _ _ none none

/-- The result of an interrupted call comes too late. -/
theorem Controlled.obeys_controls_interrupted :
    Controlled interrupted [.beginCall, .derive, .interrupt] ∧
      interrupted.execution.tokens.isCancelled ⟨1⟩ = true ∧
      interrupted.execution.tokens.isCancelled ⟨2⟩ = false ∧
      (interrupted.acceptResult ⟨"x"⟩ (succeeded "r" "c" "a")).state = interrupted := by
  have hc : Controlled interrupted [.beginCall, .derive, .interrupt] :=
    ((controlled_started.control .beginCall).control .derive).control .interrupt
  obtain ⟨hobeys, hresults⟩ := hc.obeys_controls
  have hcall : LastCall [.beginCall, .derive] ⟨1⟩ :=
    ⟨[], .beginCall, [.derive], rfl, ⟨rfl, rfl⟩, by decide⟩
  have hinterrupted : Interrupted [.beginCall, .derive, .interrupt] ⟨1⟩ :=
    ⟨[.beginCall, .derive], .interrupt, [], rfl, ⟨rfl, hcall⟩, nofun⟩
  have hcancelled := hobeys.cancelled ⟨1⟩ hinterrupted.handed
  refine ⟨hc, hcancelled.mpr (.inr hinterrupted), by decide +kernel, ?_⟩
  obtain ⟨happends, hstate⟩ := hresults ⟨"x"⟩ (succeeded "r" "c" "a")
  exact hstate.resolve_left fun h => (happends.mp h).1.1 rfl

/-- A result is not appended twice, though its status lets it through. -/
theorem not_appended_twice :
    Controlled resulted [] ∧
      ¬ ((resulted.acceptResult ⟨"x"⟩ (succeeded "r" "c" "a")).state.log.toList =
          resulted.log.toList ++ [(succeeded "r" "c" "a").identified ⟨"x"⟩] ↔
        lastStatus [] ≠ .interrupted ∧ lastStatus [] ≠ .finished) := by
  have hc : Controlled resulted [] :=
    controlled_started.operation (.acceptResult ⟨"x"⟩ (succeeded "r" "c" "a")) nofun
  refine ⟨hc, fun h => ?_⟩
  have happended : resulted.log.toList = [succeeded "r" "c" "a"] :=
    toList_acceptResult_iff.mpr ⟨rfl, rfl, by decide⟩
  have htwice := toList_acceptResult_iff.mp (h.mpr (by decide))
  refine htwice.2.new ?_
  rw [happended]
  decide

end Conversation
end AgentMemory
