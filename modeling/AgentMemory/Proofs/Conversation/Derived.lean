import AgentMemory.Conversation.Basic
import AgentMemory.Proofs.Conversation.Delivery
import AgentMemory.Proofs.Conversation.Restore

/-!
# What is derived follows the log

The history of a conversation is held four times: in its log, in its timeline, in the state of its
monitor and by its subscribers. Whatever is asked of it and whatever fails, these agree
(`Lived.follows`); an operation that is rejected leaves all of them alone.
-/

namespace AgentMemory

open Compliance (Monitor Order)

/-- The errors of which the conversation is none the worse: nothing has been done. -/
def ConversationError.isRejection : ConversationError → Bool
  | payload _ | condenser _ | store (.duplicateEvent _) => true
  | _ => false

namespace Conversation

variable {c : Conversation} {given : List Delivery} {compliance : ComplianceSettings}

/-! ## Rejections -/

theorem persist_ne_duplicateEvent (storage : Option Storage) (position : Nat) (e : Event)
    (id : EventId) : (persist storage position e).2 ≠ .error (.duplicateEvent id) := by
  cases storage with
  | none =>
    intro h
    cases h
  | some s =>
    intro h
    refine s.persist_ne_duplicateEvent position e id ?_
    unfold persist at h
    cases hwrite : s.persist position e with
    | ok s' =>
      simp only [hwrite] at h
      cases h
    | error error =>
      simp only [hwrite] at h
      cases h
      rfl

/-- An absorbed event fails only when it cannot be written. -/
theorem isRejection_absorb {log : EventLog} {e : Event} {error : ConversationError}
    (h : (c.absorb log e).result = .error error) : error.isRejection = false := by
  have hresult : (c.absorb log e).result =
      ((persist c.storage c.log.size e).2.mapError .store).map fun () => e.id := rfl
  have hwrite := persist_ne_duplicateEvent c.storage c.log.size e
  rw [hresult] at h
  cases hpersist : (persist c.storage c.log.size e).2 with
  | ok =>
    rw [hpersist] at h
    cases h
  | error failure =>
    rw [hpersist] at h hwrite
    cases h
    cases failure with
    | duplicateEvent id => exact absurd rfl (hwrite id)
    | _ => rfl

theorem idle_add {fresh : EventId} {e : Event} {error : ConversationError}
    (h : (c.add fresh e).result = .error error) (hrejection : error.isRejection = true) :
    c.Idle (c.add fresh e) := by
  obtain hidle | ⟨log, -, habsorb⟩ := c.add_cases fresh e
  · exact hidle
  · rw [habsorb] at h
    rw [isRejection_absorb h] at hrejection
    cases hrejection

theorem result_of_map_error {α β : Type} {f : α → β} {o : Outcome α}
    {error : ConversationError} (h : (o.map f).result = .error error) :
    o.result = .error error := by
  obtain ⟨result, state, warnings, deliveries⟩ := o
  cases result with
  | ok a => cases h
  | error e =>
    cases h
    rfl

theorem idle_concludeCondensation {s : Stamp} {p : CondensationPlan}
    {summary : Except SummarizerError String} {error : ConversationError}
    (h : (c.concludeCondensation s p summary).result = .error error)
    (hrejection : error.isRejection = true) : c.Idle (c.concludeCondensation s p summary) := by
  unfold concludeCondensation at h ⊢
  split at h
  · exact ⟨rfl, rfl⟩
  · exact (idle_add (result_of_map_error h) hrejection).map some

theorem idle_condense {k : Condenser} {s : Stamp} {summarize : Summarizer}
    {error : ConversationError} (h : (c.condense k s summarize).result = .error error)
    (hrejection : error.isRejection = true) : c.Idle (c.condense k s summarize) := by
  unfold condense at h ⊢
  split at h
  · exact ⟨rfl, rfl⟩
  · cases h
  · exact idle_concludeCondensation h hrejection

theorem idle_acceptResult {fresh : EventId} {e : Event}
    (h : (c.acceptResult fresh e).result = .ok none) : c.Idle (c.acceptResult fresh e) := by
  unfold acceptResult at h ⊢
  split at h
  · cases hadd : c.add fresh e with
    | mk result state warnings deliveries =>
      rw [hadd] at h
      cases result with
      | ok id => cases h
      | error error => cases h
  · next hstopped =>
    rw [if_neg hstopped]
    exact ⟨rfl, rfl⟩

theorem idle_updateConfig {config : AgentConfig} {now : Timestamp} {added removed : List String}
    (h : (c.updateConfig config now).result = .error (.toolsChanged added removed)) :
    c.Idle (c.updateConfig config now) := by
  cases hfits : c.checkConfig config with
  | error e =>
    rw [updateConfig, hfits]
    exact ⟨rfl, rfl⟩
  | ok =>
    cases hnew : c.base.isCurrent config with
    | true =>
      rw [updateConfig, hfits]
      dsimp only
      rw [if_pos hnew]
      exact ⟨rfl, rfl⟩
    | false =>
      -- what is recorded can only fail to be written
      rw [updateConfig_of_new now hfits hnew] at h
      cases hwrite : (writeBase c.storage (c.base.record config now)).2 with
      | ok =>
        simp only [hwrite] at h
        cases h
      | error error =>
        simp only [hwrite] at h
        cases h

/-! ## Subscribers -/

/-- What an operation means to the subscribers: nothing, a further event, a further subscriber or
one less. -/
inductive Notice (c : Conversation) : Outcome Unit → Prop
  | quiet {o : Outcome Unit} (htimeline : o.state.timeline = c.timeline)
      (hsubscribers : o.state.subscribers = c.subscribers) (hdeliveries : o.deliveries = []) :
      Notice c o
  | event (log : EventLog) (e : Event) : Notice c (c.absorb log e).done
  | subscribe : Notice c (Operation.subscribe.perform c)
  | unsubscribe (id : SubscriptionId) : Notice c ((Operation.unsubscribe id).perform c)

theorem Change.notice {proper : Prop} {o : Outcome Unit} (h : c.Change proper o) :
    c.Notice o := by
  cases h with
  | idle hidle =>
    obtain ⟨hstate, hdeliveries⟩ := hidle
    exact .quiet (congrArg timeline hstate) (congrArg subscribers hstate) hdeliveries
  | event _ happend => exact .event _ _
  | config hfits hnew =>
    rw [updateConfig_of_new _ hfits hnew]
    exact .quiet rfl rfl rfl

theorem Operation.notice (c : Conversation) (o : Operation) : c.Notice (o.perform c) := by
  obtain hchange | haside := o.change_or_aside c
  · exact hchange.notice
  · cases haside with
    | subscribe => exact .subscribe
    | unsubscribe id => exact .unsubscribe id
    | blockAction | blockMessage | popBlockedAction | popBlockedMessage | control =>
      exact .quiet rfl rfl rfl

theorem Notice.served {o : Outcome Unit} (h : c.Notice o)
    (hserved : c.subscribers.Served c.timeline given) :
    o.state.subscribers.Served o.state.timeline (given ++ o.deliveries) := by
  cases h with
  | quiet htimeline hsubscribers hdeliveries =>
    rwa [htimeline, hsubscribers, hdeliveries, List.append_nil]
  | event log e => exact hserved.dispatch [e]
  | subscribe => exact hserved.subscribe
  | unsubscribe id =>
    show (c.subscribers.unsubscribe id).1.Served c.timeline (given ++ [])
    rw [List.append_nil]
    exact hserved.unsubscribe id

/-! ## Lived conversations -/

/-- The conversations that come of beginning one or restoring one and of any operations on it, with
what has been given to its subscribers. Any write to storage may fail: what is there may change at
any time. -/
inductive Lived (compliance : ComplianceSettings) : Conversation → List Delivery → Prop
  | start (config : AgentConfig) (origin : Origin) (payloads : Option PayloadRegistry) :
      Lived compliance { start config compliance origin with payloads } []
  | create {config : AgentConfig} {origin : Origin} {storage : Storage} {c : Conversation}
      (payloads : Option PayloadRegistry)
      (hcreate : (create config compliance origin storage).result = .ok c) :
      Lived compliance { c with payloads } []
  | restore {config : AgentConfig} {origin : Origin} {storage : Storage} {c : Conversation}
      (payloads : Option PayloadRegistry)
      (hrestore : (restore config compliance origin storage).result = .ok c) :
      Lived compliance { c with payloads } []
  | perform {c : Conversation} {given : List Delivery} {o : Operation}
      (h : Lived compliance c given) (ho : o.Proper) :
      Lived compliance (o.perform c).state (given ++ (o.perform c).deliveries)
  | disturb {c : Conversation} {given : List Delivery} (h : Lived compliance c given)
      (s : Storage) : Lived compliance { c with storage := c.storage.map fun _ => s } given

namespace Lived

theorem mirrors (h : Lived compliance c given) :
    c.Mirrors (.ofSetting compliance.resultOrder) := by
  induction h with
  | start config origin payloads =>
    exact (mirrors_assemble _ _ _ _ _).of_sameRecord ⟨rfl, rfl, rfl, rfl, rfl, rfl, rfl⟩
  | create payloads hcreate =>
    obtain ⟨written, -, rfl⟩ := create_eq_ok hcreate
    exact (mirrors_assemble _ _ _ _ _).of_sameRecord ⟨rfl, rfl, rfl, rfl, rfl, rfl, rfl⟩
  | restore payloads hrestore =>
    obtain ⟨_, _, log, b, written, -, -, -, -, -, rfl⟩ := restore_eq_ok hrestore
    exact (mirrors_assemble _ _ _ _ _).of_sameRecord ⟨rfl, rfl, rfl, rfl, rfl, rfl, rfl⟩
  | @perform c given o h ho ih => exact ih.effect (o.effect c ho)
  | disturb h s ih => exact ⟨ih.timeline, ih.monitor, ih.violations⟩

theorem served (h : Lived compliance c given) : c.subscribers.Served c.timeline given := by
  induction h with
  | start config origin payloads => exact Subscribers.served_start _
  | create payloads hcreate =>
    obtain ⟨written, -, rfl⟩ := create_eq_ok hcreate
    exact Subscribers.served_start _
  | restore payloads hrestore =>
    obtain ⟨_, _, log, b, written, -, -, -, -, -, rfl⟩ := restore_eq_ok hrestore
    exact Subscribers.served_start _
  | @perform c given o h ho ih => exact (o.notice c).served ih
  | disturb h s ih => exact ih

end Lived

theorem Effect.log_grows {o : Outcome Unit} (h : c.Effect o) :
    c.log.toList <+: o.state.log.toList := by
  obtain hsame | ⟨fresh, e, -, happend⟩ := h.log
  · exact hsame.symm ▸ List.prefix_rfl
  · rw [EventLog.toList_append happend]
    exact List.prefix_append _ _

/-- All that is derived from the log of a conversation agrees with it. -/
structure Follows (order : Order) (c : Conversation) (given : List Delivery) : Prop where
  timeline : c.timeline = c.log.toList
  violations : c.violations = ((Monitor.ofOrder order).replay c.log.toList).2.1
  pendingCalls : c.stats.pendingCalls = (Monitor.after order c.log.toList).pending.length
  /-- A subscriber has been given every event of the log once and in order. -/
  subscribers : ∀ s ∈ c.subscribers.registered, received given s.id = c.log.toList
  /-- One that has left has been given a beginning of the log. -/
  departed : ∀ id, received given id <+: c.log.toList

theorem Lived.derived (h : Lived compliance c given) :
    c.Follows (.ofSetting compliance.resultOrder) given := by
  have hmirrors := h.mirrors
  have hserved := h.served
  refine ⟨hmirrors.timeline, hmirrors.violations, ?_, fun s hs => ?_, fun id => ?_⟩
  · exact congrArg (fun m => m.pending.length) hmirrors.monitor
  · exact (hserved.whole s hs).trans hmirrors.timeline
  · exact hmirrors.timeline ▸ hserved.begun id

/-- **What is derived from the log of a conversation follows it**, through all operations and failed
writes. An operation only appends to the log. When an event is rejected, a condensation comes to
nothing, a result is not accepted or the tools do not fit, nothing is changed and nothing given to
anyone. -/
theorem Lived.follows (h : Lived compliance c given) :
    c.Follows (.ofSetting compliance.resultOrder) given ∧
      (∀ o : Operation, o.Proper → c.log.toList <+: (o.perform c).state.log.toList) ∧
      (∀ fresh e error, (c.add fresh e).result = .error error → error.isRejection = true →
        c.Idle (c.add fresh e)) ∧
      (∀ k s summarize error, (c.condense k s summarize).result = .error error →
        error.isRejection = true → c.Idle (c.condense k s summarize)) ∧
      (∀ fresh e, (c.acceptResult fresh e).result = .ok none → c.Idle (c.acceptResult fresh e)) ∧
      (∀ config now added removed,
        (c.updateConfig config now).result = .error (.toolsChanged added removed) →
          c.Idle (c.updateConfig config now)) :=
  ⟨h.derived, fun o ho => (o.effect c ho).log_grows, fun _ _ _ => idle_add,
    fun _ _ _ _ => idle_condense, fun _ _ => idle_acceptResult, fun _ _ _ _ => idle_updateConfig⟩

end Conversation

def Sample.started : Conversation := .start (Sample.configured "small") {} Sample.origin

namespace Conversation

open Sample (configured origin prompt started)

/-- One subscriber comes before the only event, and leaves; another one comes after it. -/
theorem Lived.follows_subscribed :
    ∃ c given, Lived {} c given ∧ c.log.toList = [prompt "p"] ∧
      c.subscribers.registered.map (·.id) = [⟨1⟩] ∧
      received given ⟨1⟩ = [prompt "p"] ∧ received given ⟨0⟩ <+: [prompt "p"] := by
  have hstarted : Lived {} started [] := .start (configured "small") origin none
  have hfirst : Lived {} started.subscribe.1 [] := hstarted.perform (o := .subscribe) trivial
  have hadded := hfirst.perform (o := .add ⟨"p"⟩ (prompt "")) rfl
  rw [Sample.perform_add_prompt rfl rfl] at hadded
  have hleft := hadded.perform (o := .unsubscribe ⟨0⟩) trivial
  have hsecond := hleft.perform (o := .subscribe) trivial
  obtain ⟨⟨-, -, -, hwhole, hbegins⟩, -⟩ := hsecond.follows
  exact ⟨_, _, hsecond, rfl, rfl, hwhole ⟨⟨1⟩, 1⟩ (List.mem_singleton_self _), hbegins ⟨0⟩⟩

end Conversation
end AgentMemory
