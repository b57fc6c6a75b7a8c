import AgentMemory.Proofs.Conversation.Opening
import AgentMemory.Proofs.Conversation.Sidecar

/-!
# What restoring leaves behind

Restoring reads everything before it writes anything, and the sidecar is all that it writes. So a
storage on which it fails is left as it is, whatever it holds. One on which it succeeds differs in
its sidecar only, which goes on from the one that was there.
-/

namespace AgentMemory

namespace Storage

variable {s s' : Storage} {j : Json}

/-- What is found again after the sidecar has been written: the same storage but for the sidecar. -/
inductive SameButSidecar : Storage → Storage → Prop
  | memory (m : Memory) (base : Option Json) : SameButSidecar (memory m) (memory { m with base })
  | backend (b : Backend) (base : Option Json) :
      SameButSidecar (backend b) (backend { b with kept := { b.kept with base } })
  | directory (path : String) {entries entries' : List (String × File)}
      (h : entries'.filter (·.1 ≠ baseFileName) = entries.filter (·.1 ≠ baseFileName)) :
      SameButSidecar (directory ⟨path, some entries⟩) (directory ⟨path, some entries'⟩)

theorem Directory.filter_replace (name : String) (file : File) (entries : List (String × File)) :
    (replace name file entries).filter (·.1 ≠ name) = entries.filter (·.1 ≠ name) := by
  induction entries with
  | nil => simp [replace]
  | cons entry rest ih =>
    obtain ⟨n, f⟩ := entry
    rw [replace]
    split
    · next hn => simp [hn]
    · rw [List.filter_cons, ih, List.filter_cons]

theorem Directory.eventFiles_filter (entries : List (String × File)) :
    eventFiles (entries.filter (·.1 ≠ baseFileName)) = eventFiles entries := by
  rw [eventFiles, List.filterMap_filter, eventFiles]
  refine List.filterMap_congr fun entry _ => ?_
  obtain ⟨name, file⟩ := entry
  by_cases hname : name = baseFileName
  · subst hname
    simp [sequence?_baseFileName]
  · simp [hname]

theorem SameButSidecar.load (h : s.SameButSidecar s') : s'.load = s.load := by
  cases h with
  | memory m base => rfl
  | backend b base => rfl
  | @directory path entries entries' h =>
    have hfiles : Directory.eventFiles entries' = Directory.eventFiles entries := by
      rw [← Directory.eventFiles_filter entries', h, Directory.eventFiles_filter]
    show Directory.readFrom 0 ((Directory.eventFiles entries').mergeSort EventFile.le) = _
    rw [hfiles]
    rfl

theorem sameButSidecar_of_writeBase (hwrite : s.writeBase j = .ok s') : s.SameButSidecar s' := by
  cases s with
  | memory m =>
    cases hwrite
    exact .memory m (some j)
  | backend b =>
    obtain ⟨-, rfl⟩ := backend_writeBase_eq_ok hwrite
    exact .backend b (some j)
  | directory d =>
    obtain ⟨path, entries⟩ := d
    obtain ⟨entries, rfl, -, rfl⟩ := write_eq_ok hwrite
    exact .directory path (Directory.filter_replace _ _ entries)

end Storage

namespace Conversation

variable {config : AgentConfig} {compliance : ComplianceSettings} {origin : Origin} {s s' : Storage}
  {c : Conversation}

/-- The state goes on from the one that was found, with the configuration at the end of its history
if that differs from the last one there; or none was found, and its history is the configuration. -/
def Continues (found : Option BaseState) (config : AgentConfig) (origin : Origin) (b : BaseState) :
    Prop :=
  match found with
  | some old =>
    b.id = old.id ∧
      b.history = old.history ++ if old.isCurrent config then [] else [⟨origin.now, config⟩]
  | none => b.id = origin.id ∧ b.history = [⟨origin.now, config⟩]

theorem continues_record (found : Option BaseState) (config : AgentConfig) (origin : Origin) :
    Continues found config origin
      ((found.getD (.start origin.id config origin.now)).record config origin.now) := by
  cases found with
  | some old => exact ⟨old.id_record config origin.now, old.history_record config origin.now⟩
  | none =>
    have hcurrent : (BaseState.start origin.id config origin.now).isCurrent config = true := by
      simp [BaseState.start, BaseState.isCurrent, BaseState.current?, AgentConfig.same_refl]
    exact ⟨BaseState.id_record _ _ _,
      by rw [Option.getD_none, BaseState.record_of_isCurrent _ hcurrent]; rfl⟩

/-- What a restore that succeeds has done to the storage. -/
structure Reattached (config : AgentConfig) (origin : Origin) (s s' : Storage) : Prop where
  others : s.SameButSidecar s'
  events : ∃ events, s.load = .ok events ∧ s'.load = .ok events
  sidecar : ∃ found b, readBase s = .ok found ∧ Continues found config origin b ∧
    s'.Keeps b.toJson ∧ (s.Admits b → readBase s' = .ok (some b))

theorem restore_storage_of_error {error : ConversationError}
    (h : (restore config compliance origin s).result = .error error) :
    (restore config compliance origin s).storage = s := by
  revert h
  unfold restore
  dsimp only
  split
  · exact fun _ => rfl
  · split
    · exact fun _ => rfl
    · split
      · exact fun _ => rfl
      · intro h
        cases h

/-- **Restoring leaves the events alone**: where it fails the storage is as it was. Where it
succeeds only the sidecar is another one, which has the history that was there and at most one entry
more, or the configuration alone if there was no sidecar. -/
theorem restore_leaves (config : AgentConfig) (compliance : ComplianceSettings) (origin : Origin)
    (s : Storage) :
    (∀ error, (restore config compliance origin s).result = .error error →
      (restore config compliance origin s).storage = s) ∧
    ∀ c, (restore config compliance origin s).result = .ok c →
      c.storage = some (restore config compliance origin s).storage ∧
        Reattached config origin s (restore config compliance origin s).storage := by
  refine ⟨fun _ herror => restore_storage_of_error herror, fun c hc => ?_⟩
  obtain ⟨events, found, log, b, written, hread, -, rfl, hwrite, hstorage, rfl⟩ := restore_eq_ok hc
  obtain ⟨hload, -, hbase⟩ := readStored_eq_ok_iff.mp hread
  have hothers := Storage.sameButSidecar_of_writeBase hwrite
  rw [hstorage]
  refine ⟨rfl, hothers, ⟨events, hload, hothers.load.trans hload⟩, found, _, hbase,
    continues_record found config origin, Storage.keeps_of_writeBase hwrite,
    fun hadmits => Storage.readBase_of_writeBase hadmits hwrite⟩

end Conversation

namespace Conversation

open Sample (configured held origin said)

/-- Without a system prompt the sidecar is left as it is. With one, another configuration is added
to it, and both are read back. -/
theorem restore_leaves_or_adds :
    (restore (configured "large") {} origin
        (.memory { events := [said "u"], base := some Sample.base.toJson })).storage =
      .memory { events := [said "u"], base := some Sample.base.toJson } ∧
    Reattached (configured "large") origin (held "p")
      (restore (configured "large") {} origin (held "p")).storage ∧
    readBase (restore (configured "large") {} origin (held "p")).storage =
      .ok (some (Sample.base.record (configured "large") origin.now)) := by
  have hleaves := (restore_leaves (configured "large") {} origin
    (.memory { events := [said "u"], base := some Sample.base.toJson })).1 .missingSystemPrompt rfl
  obtain ⟨hstorage, hreattached⟩ := (restore_leaves (configured "large") {} origin (held "p")).2 _
    (Sample.restore_held "large" "p")
  refine ⟨hleaves, hreattached, ?_⟩
  rw [← Option.some.inj hstorage]
  with_unfolding_all rfl

end Conversation
end AgentMemory
