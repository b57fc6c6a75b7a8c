import AgentMemory.Proofs.Conversation.Operation
import AgentMemory.Proofs.Event

/-!
# Restoring reproduces

A conversation that was begun on a storage without events, and all of whose writes have succeeded,
is restored from its storage as it was, with a configuration that fits its log and with no other.
What is derived from the log is not stored. It comes out the same since live and replayed state go
through the same steps (`Mirrors`), and the log since it is what its events make (`Rebuilds`).
-/

namespace AgentMemory

/-- A storage gives back what it is given. In a directory this is to say that the state and each
event are read back from their texts, elsewhere that the state is read back from its document. -/
def Storage.Faithful : Storage → List Event → BaseState → Prop
  | memory _, _, b | backend _, _, b => BaseState.decoder.ofJson b.toJson = .ok b
  | directory _, events, b =>
    (∀ e ∈ events, e.Legible) ∧
      ∃ j, Json.Decoder.ofText .json b.toJson.pretty = .ok j ∧ BaseState.decoder.ofJson j = .ok b

namespace Conversation

variable {c d : Conversation} {s : Storage} {compliance : ComplianceSettings} {G : AgentConfig}

/-! ## Reached conversations -/

/-- The conversations that come of one begun on a storage without events, as long as every write
succeeds. Payloads may be checked or not. -/
inductive Reached (compliance : ComplianceSettings) : Conversation → Prop
  | create {config : AgentConfig} {origin : Origin} {storage : Storage} {c : Conversation}
      (payloads : Option PayloadRegistry) (hempty : storage.load = .ok [])
      (hcreate : (create config compliance origin storage).result = .ok c) :
      Reached compliance { c with payloads }
  | perform {c : Conversation} {o : Operation} (h : Reached compliance c) (ho : o.Proper)
      (hwritten : (o.perform c).Written) : Reached compliance (o.perform c).state

theorem create_eq_ok {config : AgentConfig} {origin : Origin} {storage : Storage}
    (h : (create config compliance origin storage).result = .ok c) :
    ∃ written,
      storage.writeBase (BaseState.start origin.id config origin.now).toJson = .ok written ∧
      c = assemble origin.id (.start origin.id config origin.now) .empty compliance
        (some written) := by
  unfold create at h
  dsimp only at h
  split at h
  · cases h
  · next written hwrite => exact ⟨written, hwrite, (Except.ok.inj h).symm⟩

theorem Reached.mirrors (h : Reached compliance c) :
    c.Mirrors (.ofSetting compliance.resultOrder) := by
  induction h with
  | create payloads hempty hcreate =>
    obtain ⟨written, -, rfl⟩ := create_eq_ok hcreate
    exact (mirrors_assemble _ _ _ _ _).of_sameRecord ⟨rfl, rfl, rfl, rfl, rfl, rfl, rfl⟩
  | perform h ho hwritten ih => exact ih.effect (Operation.effect _ _ ho)

theorem Reached.rebuilds (h : Reached compliance c) : c.log.Rebuilds := by
  induction h with
  | create payloads hempty hcreate =>
    obtain ⟨written, -, rfl⟩ := create_eq_ok hcreate
    exact EventLog.rebuilds_empty
  | @perform c o h ho hwritten ih => exact (o.effect c ho).rebuilds ih

/-- The storage holds what is recorded, as long as every position has a file name of its own. -/
theorem Reached.stored (h : Reached compliance c) (hsize : c.log.size ≤ Text.wordSize) :
    ∃ s, c.Stored s := by
  induction h with
  | create payloads hempty hcreate =>
    obtain ⟨written, hwrite, rfl⟩ := create_eq_ok hcreate
    exact ⟨written, rfl, (Storage.stores_nil_of_load hempty).writeBase hwrite,
      Storage.keeps_of_writeBase hwrite, rfl⟩
  | @perform c o h ho hwritten ih =>
    have heffect := o.effect c ho
    obtain ⟨s, hs⟩ := ih (Nat.le_trans heffect.size_le hsize)
    exact hs.effect heffect hwritten hsize

/-! ## Reading what is stored -/

section

variable {events : List Event} {b : BaseState}

theorem load_of_faithful (h : s.Stores events) (hfaithful : s.Faithful events b) :
    s.load = .ok events := by
  cases s with
  | memory m => exact congrArg Except.ok h
  | backend k => exact congrArg Except.ok h
  | directory d => exact h.load hfaithful.1

theorem readBase_of_faithful (h : s.Keeps b.toJson) (hfaithful : s.Faithful events b) :
    readBase s = .ok (some b) := by
  have hread : ∃ j, s.readBase = .ok (some j) ∧ BaseState.decoder.ofJson j = .ok b := by
    cases s with
    | memory m => exact ⟨_, congrArg Except.ok h, hfaithful⟩
    | backend k => exact ⟨_, congrArg Except.ok h.1, hfaithful⟩
    | directory d =>
      obtain ⟨-, j, htext, hj⟩ := hfaithful
      refine ⟨j, ?_, hj⟩
      change d.entry? Storage.baseFileName = _ at h
      show d.readBase = _
      rw [Storage.Directory.readBase, h]
      show ((Json.Decoder.ofText .json b.toJson.pretty).mapError StoreError.json).bind _ = _
      rw [htext]
      rfl
  obtain ⟨j, hj, hdecode⟩ := hread
  unfold readBase
  rw [hj]
  show ((BaseState.decoder.ofJson j).mapError ConversationError.baseState).map some = _
  rw [hdecode]
  rfl

theorem faithful_writeBase {j : Json} {s' : Storage} (hwrite : s.writeBase j = .ok s')
    (hfaithful : s.Faithful events b) : s'.Faithful events b := by
  cases s with
  | memory m =>
    cases hwrite
    exact hfaithful
  | backend k =>
    obtain ⟨-, rfl⟩ := Storage.backend_writeBase_eq_ok hwrite
    exact hfaithful
  | directory d =>
    obtain ⟨_, -, -, rfl⟩ := Storage.write_eq_ok hwrite
    exact hfaithful

theorem readStored_eq_ok_iff {found : Option BaseState} :
    readStored G s = .ok (events, found) ↔
      s.load = .ok events ∧ checkToolCompatibility events G = .ok () ∧
        readBase s = .ok found := by
  unfold readStored
  cases s.load with
  | error error => simp [Except.mapError, bind, Except.bind]
  | ok loaded =>
    simp only [Except.mapError, bind, Except.bind, Except.ok.injEq]
    cases hcheck : checkToolCompatibility loaded G with
    | error error =>
      refine iff_of_false nofun ?_
      rintro ⟨rfl, hfits, -⟩
      rw [hcheck] at hfits
      cases hfits
    | ok =>
      cases readBase s with
      | error error => simp
      | ok base =>
        simp only [pure, Except.pure, Except.ok.injEq, Prod.mk.injEq]
        constructor
        · rintro ⟨rfl, rfl⟩
          exact ⟨rfl, hcheck, rfl⟩
        · rintro ⟨rfl, -, rfl⟩
          exact ⟨rfl, rfl⟩

theorem readStored_of_fits (hload : s.load = .ok events) (hbase : readBase s = .ok (some b))
    (hfits : G.Fits events) : readStored G s = .ok (events, some b) :=
  readStored_eq_ok_iff.mpr ⟨hload, checkToolCompatibility_eq_ok_iff.mpr hfits, hbase⟩

theorem restore_eq_ok {origin : Origin} (h : (restore G compliance origin s).result = .ok c) :
    ∃ events found log b written, readStored G s = .ok (events, found) ∧
      EventLog.ofEvents origin.eventId events = .ok log ∧
      b = (found.getD (.start origin.id G origin.now)).record G origin.now ∧
      s.writeBase b.toJson = .ok written ∧ (restore G compliance origin s).storage = written ∧
      c = assemble b.id b log compliance (some written) := by
  unfold restore at h ⊢
  split at h
  · cases h
  · next events found hread =>
    dsimp only at h ⊢
    split at h
    · cases h
    · next log hlog =>
      split at h
      · cases h
      · next written hwrite =>
        exact ⟨events, found, log, _, written, hread, hlog, rfl, hwrite, rfl,
          (Except.ok.inj h).symm⟩

theorem restore_of_not_fits (origin : Origin) (hload : s.load = .ok events)
    (hfits : ¬ G.Fits events) : ∃ error, restore G compliance origin s =
      { result := .error error, storage := s, warnings := s.loadWarnings } := by
  rw [← checkToolCompatibility_eq_ok_iff] at hfits
  cases hcheck : checkToolCompatibility events G with
  | ok => exact absurd hcheck hfits
  | error error =>
    have hread : readStored G s = .error error := by
      unfold readStored
      rw [hload]
      show (checkToolCompatibility events G).bind _ = _
      rw [hcheck]
      rfl
    refine ⟨error, ?_⟩
    unfold restore
    rw [hread]

end

/-! ## Restoring -/

theorem restore_of_fits (origin : Origin) (h : c.Stored s) (hlog : c.log.Rebuilds)
    (hfaithful : s.Faithful c.log.toList c.base) (hfits : G.Fits c.log.toList) {s' : Storage}
    (hwrite : s.writeBase (c.base.record G origin.now).toJson = .ok s') :
    restore G compliance origin s =
      { result := .ok (assemble c.id (c.base.record G origin.now) c.log compliance (some s'))
        storage := s'
        warnings := s.loadWarnings } := by
  have hread : readStored G s = .ok (c.log.toList, some c.base) :=
    readStored_of_fits (load_of_faithful h.events hfaithful)
      (readBase_of_faithful h.sidecar hfaithful) hfits
  unfold restore
  rw [hread]
  dsimp only
  rw [hlog]
  dsimp only [Option.getD]
  rw [hwrite]
  simp [h.id]

theorem restore_eq_ok_iff_fits (origin : Origin) (h : c.Stored s) (hlog : c.log.Rebuilds)
    (hfaithful : s.Faithful c.log.toList c.base) :
    (∃ d, (restore G compliance origin s).result = .ok d) ↔ G.Fits c.log.toList := by
  constructor
  · rintro ⟨d, hd⟩
    by_contra hfits
    obtain ⟨error, herror⟩ := restore_of_not_fits origin
      (load_of_faithful h.events hfaithful) hfits
    rw [herror] at hd
    cases hd
  · intro hfits
    obtain ⟨s', hwrite⟩ := h.sidecar.exists_writeBase h.events (c.base.record G origin.now).toJson
    exact ⟨_, by rw [restore_of_fits origin h hlog hfaithful hfits hwrite]⟩

/-- A restored conversation is the one before. Its history has the configuration that it was
restored with at the end, which is recorded if it differs from the one before. -/
structure Reproduces (c d : Conversation) (G : AgentConfig) (now : Timestamp) : Prop where
  id : d.id = c.id
  log : d.log = c.log
  timeline : d.timeline = c.timeline
  monitor : d.monitor = c.monitor
  violations : d.violations = c.violations
  view : d.view = c.view
  history : d.base.history = c.base.history ++ if c.base.isCurrent G then [] else [⟨now, G⟩]

/-- **Restoring reproduces**: a reached conversation is restored from its storage with exactly the
configurations that fit its log. It comes out as it was, and restoring it once more with the same
configuration changes nothing. Positions are 64-bit numbers; no log has more events than these. -/
theorem restore_reproduces (h : Reached compliance c) (hsize : c.log.size ≤ Text.wordSize) :
    ∃ s, c.storage = some s ∧ ∀ (G : AgentConfig) (origin : Origin),
      s.Faithful c.log.toList c.base →
      s.Faithful c.log.toList (c.base.record G origin.now) →
        ((∃ d, (restore G compliance origin s).result = .ok d) ↔ G.Fits c.log.toList) ∧
        ∀ d, (restore G compliance origin s).result = .ok d →
          c.Reproduces d G origin.now ∧
          ∀ again : Origin,
            (restore G compliance again (restore G compliance origin s).storage).result = .ok d ∧
            (restore G compliance again (restore G compliance origin s).storage).storage =
              (restore G compliance origin s).storage := by
  obtain ⟨s, hs⟩ := h.stored hsize
  have hlog := h.rebuilds
  have hmirrors := h.mirrors
  refine ⟨s, hs.storage, fun G origin hfaithful hrecorded => ?_⟩
  have hiff : (∃ d, (restore G compliance origin s).result = .ok d) ↔ G.Fits c.log.toList :=
    restore_eq_ok_iff_fits origin hs hlog hfaithful
  refine ⟨hiff, fun d hd => ?_⟩
  have hfits : G.Fits c.log.toList := hiff.mp ⟨d, hd⟩
  obtain ⟨s', hwrite⟩ := hs.sidecar.exists_writeBase hs.events (c.base.record G origin.now).toJson
  rw [restore_of_fits origin hs hlog hfaithful hfits hwrite] at hd ⊢
  obtain rfl := Except.ok.inj hd
  refine ⟨⟨rfl, rfl, hmirrors.timeline.symm, hmirrors.monitor.symm, hmirrors.violations.symm, rfl,
    c.base.history_record G origin.now⟩, fun again => ?_⟩
  -- the restored conversation is itself one whose storage holds what it records
  have hrestored : (assemble c.id (c.base.record G origin.now) c.log compliance
      (some s')).Stored s' :=
    ⟨rfl, hs.events.writeBase hwrite, Storage.keeps_of_writeBase hwrite,
      (c.base.id_record G origin.now).trans hs.id⟩
  have hagain : s'.writeBase ((c.base.record G origin.now).record G again.now).toJson = .ok s' := by
    rw [BaseState.record_record]
    exact Storage.writeBase_again hwrite
  rw [restore_of_fits again hrestored hlog (faithful_writeBase hwrite hrecorded) hfits hagain]
  dsimp only [assemble]
  rw [BaseState.record_record]
  exact ⟨rfl, rfl⟩

end Conversation

namespace Sample

def configured (model : String) : AgentConfig := { model }

/-- What a sample conversation is begun with, at noon. -/
def origin : Origin := ⟨⟨"talk"⟩, ⟨2024, 5, 1, 12, 0, 0, 0⟩, fun _ => ⟨"unnamed"⟩⟩

def prompt (id : String) : Event := .systemPrompt ⟨⟨id⟩, origin.now⟩ "help" []

def base : BaseState := .start origin.id (configured "small") origin.now

def begunInMemory : Conversation :=
  .assemble origin.id base .empty {} (some (.memory { base := some base.toJson }))

def prompted (id : String) : EventLog := .push .empty (prompt id) (by simp [EventLog.empty])

theorem perform_add_prompt {c : Conversation} (hlog : c.log = .empty)
    (hpayload : c.payloadError? (prompt "") = none) :
    (Conversation.Operation.add ⟨"p"⟩ (prompt "")).perform c =
      (c.absorb (prompted "p") (prompt "p")).done := by
  refine congrArg Outcome.done (Conversation.add_of_append hpayload ?_)
  rw [hlog]
  exact EventLog.append_of_none _

end Sample

namespace Conversation

open Sample (begunInMemory configured origin prompt prompted said)

theorem restore_reproduces_prompted :
    ∃ c s d, Reached {} c ∧ c.log.toList = [prompt "p"] ∧ c.storage = some s ∧
      (restore (configured "large") {} origin s).result = .ok d ∧
      c.Reproduces d (configured "large") origin.now := by
  have hbegun : Reached {} begunInMemory :=
    .create none (show (Storage.memory {}).load = .ok [] from rfl)
      (show (create (configured "small") {} origin (.memory {})).result = .ok begunInMemory
        from rfl)
  have hperform := Sample.perform_add_prompt (c := begunInMemory) rfl rfl
  have hreached : Reached {} (begunInMemory.absorb (prompted "p") (prompt "p")).done.state := by
    rw [← hperform]
    refine hbegun.perform rfl ?_
    rw [hperform]
    intro error herror
    cases herror
  obtain ⟨s, hstorage, hrestore⟩ := restore_reproduces hreached (by decide)
  obtain rfl : Storage.memory { events := [prompt "p"], base := some Sample.base.toJson } = s :=
    Option.some.inj hstorage
  obtain ⟨hiff, hreproduces⟩ := hrestore (configured "large") origin
    (show BaseState.decoder.ofJson Sample.base.toJson = .ok Sample.base by with_unfolding_all rfl)
    (show BaseState.decoder.ofJson (Sample.base.record (configured "large") origin.now).toJson =
      .ok (Sample.base.record (configured "large") origin.now) by with_unfolding_all rfl)
  obtain ⟨d, hd⟩ := hiff.mpr (.inr ⟨⟨"help", []⟩, rfl, fun name => Iff.rfl⟩)
  exact ⟨_, _, d, hreached, rfl, hstorage, hd, (hreproduces d hd).1⟩

/-- A storage with events from before is not looked at when a conversation is begun on it. The
conversation has no event, but it cannot be restored: what is stored has no system prompt. -/
theorem restore_of_earlier_events :
    ∃ c s,
      (create (configured "small") {} origin (.memory { events := [said "u"] })).result = .ok c ∧
      c.storage = some s ∧ c.log.toList = [] ∧
      (restore (configured "small") {} origin s).result = .error .missingSystemPrompt :=
  ⟨_, _, rfl, rfl, rfl, rfl⟩

end Conversation
end AgentMemory
