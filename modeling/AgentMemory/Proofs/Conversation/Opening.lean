import AgentMemory.Proofs.Conversation.Adding
import AgentMemory.Proofs.Conversation.Derived

/-!
# Opening and going on

A conversation is opened on storage: restored if there is a sidecar, and begun if there is none. A
restored conversation has the stored events, and stays in step with its storage as long as no write
fails. Without a sidecar the stored events are left where they are, and the conversation has none.
-/

namespace AgentMemory

namespace Storage

/-- A conversation has been begun on the storage: there is a sidecar. -/
def Begun (s : Storage) : Prop := ∃ j, s.readBase = .ok (some j)

/-- An event that is written comes back when it is loaded. Outside of a directory every event
does. -/
def ReadsBack : Storage → Event → Prop
  | memory _, _ | backend _, _ => True
  | directory _, e => e.Legible

end Storage

namespace Conversation

variable {c : Conversation} {s : Storage} {config : AgentConfig} {compliance : ComplianceSettings}
  {origin : Origin} {events : List Event}

/-! ## Going on -/

/-- No write fails while additions are carried out. They may be refused. -/
def AllWritten (c : Conversation) : List Addition → Prop
  | [] => True
  | a :: as => (a.perform c).Written ∧ (a.perform c).state.AllWritten as

theorem exists_ok_of_absorb_written {log : EventLog} {e : Event} (h : (c.absorb log e).Written) :
    ∃ id, (c.absorb log e).result = .ok id := by
  have hresult : (c.absorb log e).result =
      ((persist c.storage c.log.size e).2.mapError .store).map fun () => e.id := rfl
  rw [Outcome.Written, hresult] at h
  rw [hresult]
  cases hpersist : (persist c.storage c.log.size e).2 with
  | ok => exact ⟨_, rfl⟩
  | error failure =>
    rw [hpersist] at h
    obtain ⟨id, rfl⟩ := h failure rfl
    exact absurd hpersist (persist_ne_duplicateEvent _ _ _ id)

theorem Addition.toList_perform {a : Addition} (h : (a.perform c).Written) :
    (a.perform c).state.log.toList = c.log.toList ++ a.accepted c := by
  rcases a.perform_cases c with ⟨hstate, haccepted⟩ | ⟨log, happend, hperform⟩
  · rw [hstate, haccepted, List.append_nil]
  · obtain ⟨id, hid⟩ := exists_ok_of_absorb_written (hperform ▸ h)
    rw [Addition.accepted_of_ok (hperform ▸ hid), ← EventLog.toList_append happend, hperform]
    rfl

theorem toList_addAll {as : List Addition} (h : c.AllWritten as) :
    (c.addAll as).log.toList = c.log.toList ++ c.accepted as := by
  induction as generalizing c with
  | nil => exact (List.append_nil _).symm
  | cons a as ih =>
    obtain ⟨hfirst, hrest⟩ := h
    rw [addAll, ih hrest, Addition.toList_perform hfirst, accepted, List.append_assoc]

/-- As long as no write fails, what can be loaded is what was there and what has been added, if the
added events can be read back. -/
def StaysInStep (c : Conversation) (s : Storage) (events : List Event) : Prop :=
  ∀ as, c.AllWritten as → (c.addAll as).log.size ≤ Text.wordSize →
    (c.addAll as).log.toList = c.log.toList ++ c.accepted as ∧
      ∃ s', (c.addAll as).storage = some s' ∧
        (s'.load = .ok (events ++ c.accepted as) ↔ ∀ e ∈ c.accepted as, s.ReadsBack e)

theorem staysInStep_of_load (hstorage : c.storage = some s) (hload : s.load = .ok events)
    (hstep : events.length = c.log.size) : c.StaysInStep s events := by
  intro as hwritten hroom
  refine ⟨toList_addAll hwritten, ?_⟩
  cases s with
  | memory m =>
    obtain rfl : m.events = events := Except.ok.inj hload
    obtain ⟨s', hstorage', hload'⟩ := load_addAll_of_kept? hstorage rfl as
    exact ⟨s', hstorage', fun _ _ _ => trivial, fun _ => hload'⟩
  | backend b =>
    obtain rfl : b.kept.events = events := Except.ok.inj hload
    obtain ⟨s', hstorage', hload'⟩ := load_addAll_of_kept? hstorage rfl as
    exact ⟨s', hstorage', fun _ _ _ => trivial, fun _ => hload'⟩
  | directory d =>
    obtain ⟨old, hfiled, hold⟩ := Filed.of_load hstorage hload hstep
    obtain ⟨d', hstorage', hiff, -⟩ := hfiled.load_addAll hold hstep as hroom
    refine ⟨_, hstorage', hiff.trans ⟨And.right, fun hlegible => ⟨?_, hlegible⟩⟩⟩
    -- the log goes on with just what has been accepted, so there is no gap
    exact (toList_addAll hwritten).symm ▸ List.prefix_rfl

/-! ## Opening -/

theorem log_of_restore (hload : s.load = .ok events)
    (h : (restore config compliance origin s).result = .ok c) :
    EventLog.ofEvents origin.eventId events = .ok c.log ∧
      ∃ j written, s.writeBase j = .ok written ∧ c.storage = some written := by
  obtain ⟨loaded, found, log, b, written, hread, hlog, -, hwrite, -, rfl⟩ := restore_eq_ok h
  obtain rfl : events = loaded :=
    Except.ok.inj (hload.symm.trans (readStored_eq_ok_iff.mp hread).1)
  exact ⟨hlog, _, written, hwrite, rfl⟩

/-- Opening restores or begins, and a sidecar tells which. -/
theorem ofStorage_cases (h : (ofStorage config compliance origin s).result = .ok c) :
    (s.Begun ∧ (restore config compliance origin s).result = .ok c) ∨
      (¬ s.Begun ∧ (create config compliance origin s).result = .ok c) := by
  unfold ofStorage at h
  split at h
  · cases h
  · next j hbase => exact .inl ⟨⟨j, hbase⟩, h⟩
  · next hbase =>
    refine .inr ⟨?_, h⟩
    rintro ⟨j, hj⟩
    cases hbase.symm.trans hj

/-- **Opening and going on**: a conversation that is opened where one has been begun has the stored
events, each under its id or, if it has none, under a new one. Otherwise it has no event. What is
stored is kept either way. If nothing of it is left out, the conversation stays in step with its
storage. -/
theorem ofStorage_in_step (hload : s.load = .ok events)
    (hopen : (ofStorage config compliance origin s).result = .ok c) :
    (s.Begun → c.log.toList = events.mapIdx fun i e => e.identified (origin.eventId i)) ∧
      (¬ s.Begun → c.log.toList = []) ∧
      ∃ written, c.storage = some written ∧ written.load = .ok events ∧
        (s.Begun ∨ events = [] → ∀ payloads : Option PayloadRegistry,
          { c with payloads }.StaysInStep written events) := by
  rcases ofStorage_cases hopen with ⟨hbegun, hrestore⟩ | ⟨hbare, hcreate⟩
  · obtain ⟨hlog, j, written, hwrite, hstorage⟩ := log_of_restore hload hrestore
    have hlist := EventLog.toList_ofEvents hlog
    have hkept := Storage.load_writeBase hload hwrite
    have hstep : events.length = c.log.size := by
      rw [← EventLog.length_toList, hlist, List.length_mapIdx]
    exact ⟨fun _ => hlist, fun hbare => absurd hbegun hbare, written, hstorage, hkept,
      fun _ _ => staysInStep_of_load hstorage hkept hstep⟩
  · obtain ⟨written, hwrite, rfl⟩ := create_eq_ok hcreate
    have hkept := Storage.load_writeBase hload hwrite
    refine ⟨fun hbegun => absurd hbegun hbare, fun _ => rfl, written, rfl, hkept, ?_⟩
    rintro (hbegun | rfl) payloads
    · exact absurd hbegun hbare
    · exact staysInStep_of_load rfl hkept rfl

end Conversation

/-! ## A conversation in memory -/

namespace Sample

/-- A storage in memory with the prompt of an id and a sidecar. -/
def held (id : String) : Storage := .memory { events := [prompt id], base := some base.toJson }

def recorded : BaseState := base.record (configured "small") origin.now

/-- The log of the prompt, which is given an id if it has none. -/
def heldLog (id : String) : EventLog :=
  .push .empty ((prompt id).identified (origin.eventId 0)) (by simp [EventLog.empty])

def reopened (id : String) : Conversation :=
  .assemble recorded.id recorded (heldLog id) {}
    (some (.memory { events := [prompt id], base := some recorded.toJson }))

theorem restore_held (model id : String) :
    (Conversation.restore (configured model) {} origin (held id)).result =
      .ok (.assemble base.id (base.record (configured model) origin.now) (heldLog id) {}
        (some (.memory { events := [prompt id]
                         base := some (base.record (configured model) origin.now).toJson }))) := by
  have hread : Conversation.readStored (configured model) (held id) =
      .ok ([prompt id], some base) :=
    Conversation.readStored_of_fits rfl (by with_unfolding_all rfl)
      (.inr ⟨⟨"help", []⟩, rfl, fun _ => Iff.rfl⟩)
  have hlog : EventLog.ofEvents origin.eventId [prompt id] = .ok (heldLog id) := by
    have happend : EventLog.empty.append (origin.eventId 0) (prompt id) = .ok (heldLog id) :=
      EventLog.append_of_none _
    show (EventLog.empty.append (origin.eventId 0) (prompt id)).bind _ = _
    rw [happend]
    rfl
  unfold Conversation.restore
  rw [hread]
  dsimp only
  rw [hlog]
  dsimp only [Option.getD]
  rw [← BaseState.id_record base (configured model) origin.now]
  rfl

theorem ofStorage_held (id : String) :
    (Conversation.ofStorage (configured "small") {} origin (held id)).result =
      .ok (reopened id) :=
  restore_held "small" id

end Sample

namespace Conversation

open Sample (configured held origin prompt reopened writable)

/-- A conversation with one event is restored, and another event is added to it. -/
theorem ofStorage_in_step_reopened :
    (ofStorage (configured "small") {} origin (held "p")).result = .ok (reopened "p") ∧
      (reopened "p").log.toList = [prompt "p"] ∧
      (reopened "p").accepted [writable] = [prompt "x"] ∧
      ∃ s, ((reopened "p").addAll [writable]).storage = some s ∧
        s.load = .ok [prompt "p", prompt "x"] := by
  have hopen := Sample.ofStorage_held "p"
  obtain ⟨hevents, -, _, hstorage, -, hstays⟩ := ofStorage_in_step (s := held "p") rfl hopen
  obtain rfl := Option.some.inj hstorage
  have hbegun : (held "p").Begun := ⟨_, rfl⟩
  have hlogged : (reopened "p").log.toList = [prompt "p"] := hevents hbegun
  obtain ⟨hgrown, -, -, haccepted⟩ := Addition.perform_of_written (a := writable)
    (c := reopened "p") (e := prompt "x") rfl rfl (by rw [hlogged]; decide) rfl rfl
  have hwritten : (writable.perform (reopened "p")).Written := by
    intro error herror
    rw [Addition.accepted_of_error herror] at haccepted
    cases haccepted
  have hall : (reopened "p").accepted [writable] = [prompt "x"] := by
    rw [accepted, accepted, haccepted, List.append_nil]
  have hroom : ((reopened "p").addAll [writable]).log.size ≤ Text.wordSize := by
    rw [← EventLog.length_toList]
    show (writable.perform (reopened "p")).state.log.toList.length ≤ _
    rw [hgrown, hlogged]
    decide
  obtain ⟨-, s, hs, hload⟩ := hstays (.inl hbegun) none [writable] ⟨hwritten, trivial⟩ hroom
  refine ⟨hopen, hlogged, hall, s, hs, ?_⟩
  have hloaded : s.load = .ok ([prompt "p"] ++ (reopened "p").accepted [writable]) :=
    hload.mpr fun _ _ => trivial
  rwa [hall] at hloaded

/-- What is stored without a sidecar is not looked at when a conversation is opened. An event that
is stored without an id is given one. -/
theorem ofStorage_not_as_stored :
    (∃ c, (ofStorage (configured "small") {} origin
        (.memory { events := [prompt "p"] })).result = .ok c ∧ c.log.toList = []) ∧
      ∃ c, (ofStorage (configured "small") {} origin (held "")).result = .ok c ∧
        c.log.toList = [prompt "unnamed"] :=
  ⟨⟨_, rfl, rfl⟩, reopened "", Sample.ofStorage_held "", rfl⟩

end Conversation
end AgentMemory
