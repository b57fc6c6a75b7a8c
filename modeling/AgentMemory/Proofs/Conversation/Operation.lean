import AgentMemory.Conversation.Open
import AgentMemory.Conversation.Update
import AgentMemory.Proofs.Compliance.Clean
import AgentMemory.Proofs.Conversation.Config
import AgentMemory.Proofs.EventLog
import AgentMemory.Proofs.Storage.Contents

/-!
# Operations on a conversation

What can come of an operation is said once (`Change`): nothing, or one event is added, or one
configuration is recorded, unless the operation leaves the record alone (`Operation.Aside`). For the
record these are three effects (`Effect`). That what is derived from the log mirrors it, and that
the storage holds what is recorded, follows by going through the three.
-/

namespace AgentMemory

open Compliance (Monitor Order)

def Outcome.done {α : Type} (o : Outcome α) : Outcome Unit := o.map fun _ => ()

theorem Outcome.done_map {α β : Type} (f : α → β) (o : Outcome α) : (o.map f).done = o.done := by
  obtain ⟨result, state, warnings, deliveries⟩ := o
  cases result <;> rfl

/-- No write to storage has failed. That an id is already there is found before anything is
written. -/
def Outcome.Written {α : Type} (o : Outcome α) : Prop :=
  ∀ error, o.result = .error (.store error) → ∃ id, error = .duplicateEvent id

namespace Conversation

/-! ## Operations -/

/-- What can be asked of a conversation, with the ids and times it is given to do so. -/
inductive Operation where
  | add (fresh : EventId) (e : Event)
  | acceptResult (fresh : EventId) (e : Event)
  | requestCondensation (s : Stamp) (reason : Option String)
  | condense (k : Condenser) (s : Stamp) (summarize : Summarizer)
  /-- A condensation ends that was planned earlier, on whatever view. -/
  | concludeCondensation (s : Stamp) (p : CondensationPlan)
      (summary : Except SummarizerError String)
  | updateConfig (config : AgentConfig) (now : Timestamp)
  | subscribe
  | unsubscribe (id : SubscriptionId)
  | blockAction (id : EventId) (reason : String)
  | blockMessage (id : EventId) (reason : String)
  | popBlockedAction (id : EventId)
  | popBlockedMessage (id : EventId)
  /-- The status changes, and the tokens with it. -/
  | control (x : Execution)

namespace Operation

/-- The ids that are made for new events are proper ones. -/
def Proper : Operation → Prop
  | add fresh _ | acceptResult fresh _ => fresh.isEmpty = false
  | requestCondensation s _ | condense _ s _ | concludeCondensation s _ _ => s.id.isEmpty = false
  | _ => True

def perform (c : Conversation) : Operation → Outcome Unit
  | add fresh e => (c.add fresh e).done
  | acceptResult fresh e => (c.acceptResult fresh e).done
  | requestCondensation s reason => (c.requestCondensation s reason).done
  | condense k s summarize => (c.condense k s summarize).done
  | concludeCondensation s p summary => (c.concludeCondensation s p summary).done
  | updateConfig config now => (c.updateConfig config now).done
  | subscribe =>
    let (state, _, deliveries) := c.subscribe
    { result := .ok (), state, deliveries }
  | unsubscribe id => { result := .ok (), state := (c.unsubscribe id).1 }
  | blockAction id reason => { result := .ok (), state := c.blockAction id reason }
  | blockMessage id reason => { result := .ok (), state := c.blockMessage id reason }
  | popBlockedAction id => { result := .ok (), state := (c.popBlockedAction id).1 }
  | popBlockedMessage id => { result := .ok (), state := (c.popBlockedMessage id).1 }
  | control x => { result := .ok (), state := { c with execution := x } }

inductive Aside : Operation → Prop
  | subscribe : Aside .subscribe
  | unsubscribe (id : SubscriptionId) : Aside (.unsubscribe id)
  | blockAction (id : EventId) (reason : String) : Aside (.blockAction id reason)
  | blockMessage (id : EventId) (reason : String) : Aside (.blockMessage id reason)
  | popBlockedAction (id : EventId) : Aside (.popBlockedAction id)
  | popBlockedMessage (id : EventId) : Aside (.popBlockedMessage id)
  | control (x : Execution) : Aside (.control x)

end Operation

/-! ## What an operation can do -/

variable {c c' : Conversation}

/-- Nothing has come of an operation. -/
def Idle {α : Type} (c : Conversation) (o : Outcome α) : Prop := o.state = c ∧ o.deliveries = []

theorem Idle.map {α β : Type} {o : Outcome α} (f : α → β) (h : c.Idle o) : c.Idle (o.map f) := h

/-- What can come of changing the record: nothing, or an event has been absorbed, or a configuration
has been recorded. The event has been given a proper id if that is what was made for it. -/
inductive Change (c : Conversation) (proper : Prop) : Outcome Unit → Prop
  | idle {o : Outcome Unit} (hidle : c.Idle o) : Change c proper o
  | event {fresh : EventId} {e : Event} {log : EventLog} (hfresh : proper → fresh.isEmpty = false)
      (happend : c.log.append fresh e = .ok log) :
      Change c proper (c.absorb log (e.identified fresh)).done
  | config {config : AgentConfig} {now : Timestamp} (hfits : c.checkConfig config = .ok ())
      (hnew : c.base.isCurrent config = false) : Change c proper (c.updateConfig config now).done

theorem add_of_append {fresh : EventId} {e : Event} {log : EventLog}
    (hpayload : c.payloadError? e = none) (happend : c.log.append fresh e = .ok log) :
    c.add fresh e = c.absorb log (e.identified fresh) := by
  rw [add, hpayload]
  dsimp only
  rw [happend]

theorem add_cases (c : Conversation) (fresh : EventId) (e : Event) :
    c.Idle (c.add fresh e) ∨ ∃ log, c.log.append fresh e = .ok log ∧
      c.add fresh e = c.absorb log (e.identified fresh) := by
  unfold add
  split
  · exact .inl ⟨rfl, rfl⟩
  · split
    · exact .inl ⟨rfl, rfl⟩
    · next log happend => exact .inr ⟨log, happend, rfl⟩

theorem change_add (c : Conversation) (fresh : EventId) (e : Event) :
    c.Change (fresh.isEmpty = false) (c.add fresh e).done := by
  obtain hidle | ⟨log, happend, habsorb⟩ := c.add_cases fresh e
  · exact .idle (hidle.map _)
  · rw [habsorb]
    exact .event (fun hfresh => hfresh) happend

theorem change_acceptResult (c : Conversation) (fresh : EventId) (e : Event) :
    c.Change (fresh.isEmpty = false) (c.acceptResult fresh e).done := by
  unfold acceptResult
  split
  · rw [Outcome.done_map]
    exact c.change_add fresh e
  · exact .idle ⟨rfl, rfl⟩

theorem change_concludeCondensation (c : Conversation) (s : Stamp) (p : CondensationPlan)
    (summary : Except SummarizerError String) :
    c.Change (s.id.isEmpty = false) (c.concludeCondensation s p summary).done := by
  unfold concludeCondensation
  split
  · exact .idle ⟨rfl, rfl⟩
  · rw [Outcome.done_map]
    exact c.change_add s.id _

theorem change_condense (c : Conversation) (k : Condenser) (s : Stamp) (summarize : Summarizer) :
    c.Change (s.id.isEmpty = false) (c.condense k s summarize).done := by
  unfold condense
  split
  · exact .idle ⟨rfl, rfl⟩
  · exact .idle ⟨rfl, rfl⟩
  · exact c.change_concludeCondensation s _ _

theorem updateConfig_of_new {config : AgentConfig} (now : Timestamp)
    (hfits : c.checkConfig config = .ok ()) (hnew : c.base.isCurrent config = false) :
    c.updateConfig config now =
      { result := ((writeBase c.storage (c.base.record config now)).2.mapError .store).map
          fun () => true
        state :=
          { c with
            base := c.base.record config now
            storage := (writeBase c.storage (c.base.record config now)).1 } } := by
  rw [updateConfig, hfits]
  dsimp only
  rw [if_neg (by simp [hnew])]

theorem change_updateConfig (c : Conversation) (config : AgentConfig) (now : Timestamp)
    (proper : Prop) : c.Change proper (c.updateConfig config now).done := by
  cases hfits : c.checkConfig config with
  | error e =>
    rw [updateConfig, hfits]
    exact .idle ⟨rfl, rfl⟩
  | ok =>
    cases hnew : c.base.isCurrent config with
    | false => exact .config hfits hnew
    | true =>
      rw [updateConfig, hfits]
      dsimp only
      rw [if_pos hnew]
      exact .idle ⟨rfl, rfl⟩

/-- Every operation changes the record in one of these ways or leaves it alone. -/
theorem Operation.change_or_aside (c : Conversation) (o : Operation) :
    c.Change o.Proper (o.perform c) ∨ o.Aside := by
  cases o with
  | add fresh e => exact .inl (c.change_add fresh e)
  | acceptResult fresh e => exact .inl (c.change_acceptResult fresh e)
  | requestCondensation s reason => exact .inl (c.change_add s.id _)
  | condense k s summarize => exact .inl (c.change_condense k s summarize)
  | concludeCondensation s p summary => exact .inl (c.change_concludeCondensation s p summary)
  | updateConfig config now => exact .inl (c.change_updateConfig config now _)
  | subscribe => exact .inr .subscribe
  | unsubscribe id => exact .inr (.unsubscribe id)
  | blockAction id reason => exact .inr (.blockAction id reason)
  | blockMessage id reason => exact .inr (.blockMessage id reason)
  | popBlockedAction id => exact .inr (.popBlockedAction id)
  | popBlockedMessage id => exact .inr (.popBlockedMessage id)
  | control x => exact .inr (.control x)

/-! ## The record -/

/-- Two conversations record the same: they differ at most in their subscribers, in what is blocked
and in the execution. -/
structure SameRecord (c c' : Conversation) : Prop where
  id : c'.id = c.id
  log : c'.log = c.log
  timeline : c'.timeline = c.timeline
  monitor : c'.monitor = c.monitor
  violations : c'.violations = c.violations
  base : c'.base = c.base
  storage : c'.storage = c.storage

theorem SameRecord.refl (c : Conversation) : c.SameRecord c := ⟨rfl, rfl, rfl, rfl, rfl, rfl, rfl⟩

/-- What can come of an operation: the record is as before, or an event has been added, or a
configuration has been recorded. -/
inductive Effect (c : Conversation) : Outcome Unit → Prop
  | same {o : Outcome Unit} (hsame : c.SameRecord o.state) : Effect c o
  | event {fresh : EventId} {e : Event} {log : EventLog} (hfresh : fresh.isEmpty = false)
      (happend : c.log.append fresh e = .ok log) : Effect c (c.absorb log (e.identified fresh)).done
  | config {config : AgentConfig} {now : Timestamp} (hfits : c.checkConfig config = .ok ())
      (hnew : c.base.isCurrent config = false) : Effect c (c.updateConfig config now).done

theorem Change.effect {proper : Prop} {o : Outcome Unit} (h : c.Change proper o)
    (hproper : proper) :
    c.Effect o := by
  cases h with
  | idle hidle =>
    refine .same ?_
    rw [hidle.1]
    exact .refl c
  | event hfresh happend => exact .event (hfresh hproper) happend
  | config hfits hnew => exact .config hfits hnew

theorem Operation.effect (c : Conversation) (o : Operation) (ho : o.Proper) :
    c.Effect (o.perform c) := by
  obtain hchange | haside := o.change_or_aside c
  · exact hchange.effect ho
  · cases haside <;> exact .same ⟨rfl, rfl, rfl, rfl, rfl, rfl, rfl⟩

theorem Effect.log {o : Outcome Unit} (h : c.Effect o) :
    o.state.log = c.log ∨
      ∃ fresh e, fresh.isEmpty = false ∧ c.log.append fresh e = .ok o.state.log := by
  cases h with
  | same hsame => exact .inl hsame.log
  | @event fresh e log hfresh happend => exact .inr ⟨fresh, e, hfresh, happend⟩
  | config hfits hnew =>
    rw [updateConfig_of_new _ hfits hnew]
    exact .inl rfl

theorem Effect.size_le {o : Outcome Unit} (h : c.Effect o) : c.log.size ≤ o.state.log.size := by
  obtain hlog | ⟨fresh, e, -, happend⟩ := h.log
  · exact Nat.le_of_eq (congrArg EventLog.size hlog.symm)
  · rw [EventLog.size_append happend]
    omega

theorem Effect.rebuilds {o : Outcome Unit} (h : c.Effect o) (hlog : c.log.Rebuilds) :
    o.state.log.Rebuilds := by
  obtain hsame | ⟨fresh, e, hfresh, happend⟩ := h.log
  · rwa [hsame]
  · exact hlog.append hfresh happend

/-! ## What is derived from the log -/

/-- Everything that is derived from the log is what comes of replaying it. -/
structure Mirrors (order : Order) (c : Conversation) : Prop where
  timeline : c.timeline = c.log.toList
  monitor : c.monitor = Monitor.after order c.log.toList
  violations : c.violations = ((Monitor.ofOrder order).replay c.log.toList).2.1

theorem mirrors_assemble (id : ConversationId) (base : BaseState) (log : EventLog)
    (compliance : ComplianceSettings) (storage : Option Storage) :
    (assemble id base log compliance storage).Mirrors (.ofSetting compliance.resultOrder) :=
  ⟨rfl, rfl, rfl⟩

variable {order : Order}

theorem Mirrors.of_sameRecord (h : c.Mirrors order) (hsame : c.SameRecord c') :
    c'.Mirrors order := by
  obtain ⟨-, hlog, htimeline, hmonitor, hviolations, -, -⟩ := hsame
  refine ⟨?_, ?_, ?_⟩
  · rw [htimeline, hlog, h.timeline]
  · rw [hmonitor, hlog, h.monitor]
  · rw [hviolations, hlog, h.violations]

theorem Mirrors.absorb (h : c.Mirrors order) {log : EventLog} {e : Event}
    (hlog : log.toList = c.log.toList ++ [e]) : (c.absorb log e).state.Mirrors order := by
  refine ⟨?_, ?_, ?_⟩
  · show c.timeline ++ [e] = log.toList
    rw [h.timeline, hlog]
  · show (c.monitor.step e).monitor = Monitor.after order log.toList
    rw [h.monitor, hlog, Monitor.after_snoc]
  · show c.violations ++ (c.monitor.step e).violations =
      ((Monitor.ofOrder order).replay log.toList).2.1
    rw [hlog, (Monitor.replay_append _ _ _).2, ← h.violations, ← Monitor.after, ← h.monitor]
    simp [Monitor.replay]

theorem Mirrors.effect (h : c.Mirrors order) {o : Outcome Unit} (ho : c.Effect o) :
    o.state.Mirrors order := by
  cases ho with
  | same hsame => exact h.of_sameRecord hsame
  | event hfresh happend => exact h.absorb (EventLog.toList_append happend)
  | config hfits hnew =>
    rw [updateConfig_of_new _ hfits hnew]
    exact ⟨h.timeline, h.monitor, h.violations⟩

/-! ## What is held by the storage -/

/-- The storage holds what the conversation records, and the sidecar bears its identity. -/
structure Stored (c : Conversation) (s : Storage) : Prop where
  storage : c.storage = some s
  events : s.Stores c.log.toList
  sidecar : s.Keeps c.base.toJson
  id : c.base.id = c.id

variable {s : Storage}

theorem Stored.of_sameRecord (h : c.Stored s) (hsame : c.SameRecord c') : c'.Stored s := by
  obtain ⟨hid, hlog, -, -, -, hbase, hstorage⟩ := hsame
  refine ⟨?_, ?_, ?_, ?_⟩
  · rw [hstorage, h.storage]
  · rw [hlog]
    exact h.events
  · rw [hbase]
    exact h.sidecar
  · rw [hbase, hid, h.id]

/-- What a conversation is left with after it has tried to write. -/
def attempted (s : Storage) : Except StoreError Storage → Option Storage × Except StoreError Unit
  | .ok s' => (some s', .ok ())
  | .error error => (some s, .error error)

theorem exists_of_written {α : Type} {o : Outcome α} {write : Except StoreError Storage}
    {f : Unit → α} (hresult : o.result = ((attempted s write).2.mapError .store).map f)
    (hid : ∀ id, write ≠ .error (.duplicateEvent id)) (hwritten : o.done.Written) :
    ∃ s', write = .ok s' ∧ (attempted s write).1 = some s' := by
  cases write with
  | ok s' => exact ⟨s', rfl, rfl⟩
  | error error =>
    have hreported : o.done.result = .error (.store error) := by
      show o.result.map _ = _
      rw [hresult]
      rfl
    obtain ⟨id, rfl⟩ := hwritten error hreported
    exact absurd rfl (hid id)

theorem persist_of_written {log : EventLog} {e : Event} (hstorage : c.storage = some s)
    (hwritten : (c.absorb log e).done.Written) :
    ∃ s', s.persist c.log.size e = .ok s' ∧ (c.absorb log e).state.storage = some s' := by
  have hpersist : persist c.storage c.log.size e = attempted s (s.persist c.log.size e) := by
    rw [hstorage]
    rfl
  have hresult : (c.absorb log e).result =
      ((attempted s (s.persist c.log.size e)).2.mapError .store).map fun () => e.id := by
    rw [← hpersist]
    rfl
  rw [show (c.absorb log e).state.storage = _ from congrArg Prod.fst hpersist]
  exact exists_of_written hresult (s.persist_ne_duplicateEvent _ e) hwritten

theorem writeBase_of_written {config : AgentConfig} {now : Timestamp}
    (hstorage : c.storage = some s) (hfits : c.checkConfig config = .ok ())
    (hnew : c.base.isCurrent config = false)
    (hwritten : (c.updateConfig config now).done.Written) :
    ∃ s', s.writeBase (c.base.record config now).toJson = .ok s' ∧
      (c.updateConfig config now).state.storage = some s' := by
  have hwrite : writeBase c.storage (c.base.record config now) =
      attempted s (s.writeBase (c.base.record config now).toJson) := by
    rw [hstorage]
    rfl
  rw [updateConfig_of_new now hfits hnew, hwrite] at hwritten ⊢
  exact exists_of_written rfl (s.writeBase_ne_duplicateEvent _) hwritten

/-- As long as every write succeeds, the storage keeps step. -/
theorem Stored.effect (h : c.Stored s) {o : Outcome Unit} (ho : c.Effect o)
    (hwritten : o.Written) (hsize : o.state.log.size ≤ Text.wordSize) :
    ∃ s', o.state.Stored s' := by
  cases ho with
  | same hsame => exact ⟨s, h.of_sameRecord hsame⟩
  | @event fresh e log hfresh happend =>
    obtain ⟨s', hpersist, hstorage⟩ := persist_of_written h.storage hwritten
    have hlength : c.log.toList.length < Text.wordSize := by
      have hgrown : log.size ≤ Text.wordSize := hsize
      rw [EventLog.size_append happend] at hgrown
      rw [EventLog.length_toList]
      omega
    rw [← EventLog.length_toList] at hpersist
    refine ⟨s', hstorage, ?_, h.sidecar.persist hlength hpersist, h.id⟩
    show s'.Stores _
    rw [show (c.absorb log _).done.state.log.toList = _ from EventLog.toList_append happend]
    exact h.events.persist hlength hpersist
  | config hfits hnew =>
    obtain ⟨s', hwrite, hstorage⟩ := writeBase_of_written h.storage hfits hnew hwritten
    refine ⟨s', hstorage, ?_, ?_, ?_⟩
    all_goals rw [updateConfig_of_new _ hfits hnew]
    · exact h.events.writeBase hwrite
    · exact Storage.keeps_of_writeBase hwrite
    · exact (c.base.id_record _ _).trans h.id

end Conversation
end AgentMemory
