import AgentMemory.Conversation.Basic
import AgentMemory.Conversation.Config
import AgentMemory.Settings.Basic

/-!
# Beginning and restoring conversations

A conversation is begun anew, with or without storage, or restored from storage: its events are read
and fed to a fresh monitor, and the configuration it is restored with is recorded. The sidecar is
written last, when everything else has succeeded; whether there is one tells a conversation that has
been begun from none.
-/

namespace AgentMemory

open Compliance (Monitor Order)

/-- What a new conversation is given: an identity, a time, and an id for each event that is found
without one, by its position. -/
structure Origin where
  id : ConversationId
  now : Timestamp
  eventId : Nat → EventId

/-- What comes of opening a conversation on storage. -/
structure Opening where
  result : Except ConversationError Conversation
  storage : Storage
  warnings : List Warning := []

namespace Conversation

/-- The conversation of a log; everything derived from the log is made from it. -/
def assemble (id : ConversationId) (base : BaseState) (log : EventLog)
    (compliance : ComplianceSettings) (storage : Option Storage) : Conversation :=
  let fresh := Monitor.ofOrder (.ofSetting compliance.resultOrder)
  let (monitor, violations, _) := fresh.replay log.toList
  { id, log, timeline := log.toList, monitor, violations, base, storage }

/-- A conversation without storage. -/
def start (config : AgentConfig) (compliance : ComplianceSettings) (origin : Origin) :
    Conversation :=
  assemble origin.id (.start origin.id config origin.now) .empty compliance none

/-- A new conversation on storage. -/
def create (config : AgentConfig) (compliance : ComplianceSettings) (origin : Origin)
    (storage : Storage) : Opening :=
  let base := BaseState.start origin.id config origin.now
  match storage.writeBase base.toJson with
  | .error e => { result := .error (.store e), storage }
  | .ok written =>
    { result := .ok (assemble origin.id base .empty compliance (some written)), storage := written }

/-- The state in a sidecar, if there is one. -/
def readBase (storage : Storage) : Except ConversationError (Option BaseState) := do
  match ← storage.readBase.mapError .store with
  | none => return none
  | some j => some <$> (BaseState.decoder.ofJson j).mapError .baseState

/-- The events and the state on storage. The configuration must fit the events. -/
def readStored (config : AgentConfig) (storage : Storage) :
    Except ConversationError (List Event × Option BaseState) := do
  let events ← storage.load.mapError .store
  checkToolCompatibility events config
  let base ← readBase storage
  return (events, base)

/-- Restores a conversation from storage. -/
def restore (config : AgentConfig) (compliance : ComplianceSettings) (origin : Origin)
    (storage : Storage) : Opening :=
  let loading := storage.loadWarnings
  match readStored config storage with
  | .error e => { result := .error e, storage, warnings := loading }
  | .ok (events, found) =>
    let warnings := loading ++ (if found.isNone then [.noBaseState] else [])
    match EventLog.ofEvents origin.eventId events with
    | .error e => { result := .error (.store e), storage, warnings }
    | .ok log =>
      let base := (found.getD (.start origin.id config origin.now)).record config origin.now
      match storage.writeBase base.toJson with
      | .error e => { result := .error (.store e), storage, warnings }
      | .ok written =>
        { result := .ok (assemble base.id base log compliance (some written))
          storage := written
          warnings }

/-- Restores the conversation on storage if there is a sidecar, and begins one if there is none. -/
def ofStorage (config : AgentConfig) (compliance : ComplianceSettings) (origin : Origin)
    (storage : Storage) : Opening :=
  match storage.readBase with
  | .error e => { result := .error (.store e), storage }
  | .ok (some _) => restore config compliance origin storage
  | .ok none => create config compliance origin storage

end Conversation

/-! ## From settings -/

/-- The directory that settings choose for a conversation of a name, made if it is not there. `find`
gives the directory at a path. -/
def Settings.directoryFor (s : Settings) (name : String) (find : String → Storage.Directory) :
    Option Storage.Directory :=
  s.persistence.dir.map fun root => (find (joinPath root name)).opened

end AgentMemory
