import AgentMemory.Proofs.Conversation.Restore
import AgentMemory.Proofs.Event.Codec
import AgentMemory.Proofs.Storage.Loading

/-!
# Adding events when writes can fail

An event stays in the log when it cannot be written, and the next one is written at the position
after it. A directory does not look at the positions that it is given: an event that is written
after one that was not leaves a gap in the numbers, and from then on the directory cannot be loaded.
Storage in memory refuses an event past a gap, so it always gives back what it has accepted.
-/

namespace AgentMemory

open Storage (EventFile)
open Storage.Directory (fileAt readFrom)

namespace Conversation

/-! ## Additions -/

/-- An addition: an event, and the id that it is given if it has none. -/
structure Addition where
  fresh : EventId
  event : Event

def Addition.perform (a : Addition) (c : Conversation) : Outcome EventId := c.add a.fresh a.event

/-- The event that an addition has brought in, if it has succeeded. -/
def Addition.accepted (a : Addition) (c : Conversation) : List Event :=
  match (a.perform c).result with
  | .ok _ => [a.event.identified a.fresh]
  | .error _ => []

/-- The conversation after some additions, whether they succeed or fail. -/
def addAll (c : Conversation) : List Addition → Conversation
  | [] => c
  | a :: as => (a.perform c).state.addAll as

def accepted (c : Conversation) : List Addition → List Event
  | [] => []
  | a :: as => a.accepted c ++ (a.perform c).state.accepted as

variable {c : Conversation} {s : Storage}

theorem Addition.perform_cases (a : Addition) (c : Conversation) :
    ((a.perform c).state = c ∧ a.accepted c = []) ∨
      ∃ log, c.log.append a.fresh a.event = .ok log ∧
        a.perform c = c.absorb log (a.event.identified a.fresh) := by
  unfold Addition.accepted Addition.perform
  cases hpayload : c.payloadError? a.event with
  | some error =>
    left
    simp [add, hpayload]
  | none =>
    cases happend : c.log.append a.fresh a.event with
    | error error =>
      left
      simp [add, hpayload, happend]
    | ok log => exact .inr ⟨log, rfl, add_of_append hpayload happend⟩

theorem Addition.log_prefix (a : Addition) (c : Conversation) :
    c.log.toList <+: (a.perform c).state.log.toList := by
  rcases a.perform_cases c with ⟨hstate, -⟩ | ⟨log, happend, hperform⟩
  · exact hstate.symm ▸ List.prefix_rfl
  · rw [hperform]
    show c.log.toList <+: log.toList
    rw [EventLog.toList_append happend]
    exact List.prefix_append _ _

theorem log_prefix_addAll (as : List Addition) (c : Conversation) :
    c.log.toList <+: (c.addAll as).log.toList := by
  induction as generalizing c with
  | nil => exact List.prefix_refl _
  | cons a as ih => exact (a.log_prefix c).trans (ih _)

theorem size_le_addAll (as : List Addition) (c : Conversation) :
    c.log.size ≤ (c.addAll as).log.size := by
  have hlength := (log_prefix_addAll as c).length_le
  rwa [EventLog.length_toList, EventLog.length_toList] at hlength

theorem Addition.accepted_of_ok {a : Addition} {id : EventId}
    (h : (a.perform c).result = .ok id) : a.accepted c = [a.event.identified a.fresh] := by
  rw [accepted, h]

theorem Addition.accepted_of_error {a : Addition} {error : ConversationError}
    (h : (a.perform c).result = .error error) : a.accepted c = [] := by
  rw [accepted, h]

theorem absorb_of_ok (log : EventLog) {e : Event} {s' : Storage} (hstorage : c.storage = some s)
    (hpersist : s.persist c.log.size e = .ok s') :
    (c.absorb log e).result = .ok e.id ∧ (c.absorb log e).state.storage = some s' := by
  constructor <;> simp [absorb, persist, hstorage, hpersist, Except.map, Except.mapError]

theorem absorb_of_error (log : EventLog) {e : Event} {error : StoreError}
    (hstorage : c.storage = some s) (hpersist : s.persist c.log.size e = .error error) :
    (c.absorb log e).result = .error (.store error) ∧
      (c.absorb log e).state.storage = some s := by
  constructor <;> simp [absorb, persist, hstorage, hpersist, Except.map, Except.mapError]

theorem absorb_cases {a : Addition} {log : EventLog} (hstorage : c.storage = some s)
    (hperform : a.perform c = c.absorb log (a.event.identified a.fresh)) :
    (∃ s', s.persist c.log.size (a.event.identified a.fresh) = .ok s' ∧
      (a.perform c).state.storage = some s' ∧ a.accepted c = [a.event.identified a.fresh]) ∨
    ((a.perform c).state.storage = some s ∧ a.accepted c = []) := by
  cases hpersist : s.persist c.log.size (a.event.identified a.fresh) with
  | ok s' =>
    obtain ⟨hresult, hstorage'⟩ := absorb_of_ok log hstorage hpersist
    rw [← hperform] at hresult hstorage'
    exact .inl ⟨s', rfl, hstorage', Addition.accepted_of_ok hresult⟩
  | error error =>
    obtain ⟨hresult, hstorage'⟩ := absorb_of_error log hstorage hpersist
    rw [← hperform] at hresult hstorage'
    exact .inr ⟨hstorage', Addition.accepted_of_error hresult⟩

section

variable {a : Addition} {e : Event} (he : a.event.identified a.fresh = e)
  (hpayloads : c.payloads = none) (hnew : ∀ x ∈ c.log.toList, x.id ≠ e.id)
include he hpayloads hnew

theorem Addition.exists_absorb :
    ∃ log, log.toList = c.log.toList ++ [e] ∧ a.perform c = c.absorb log e := by
  subst he
  obtain ⟨log, happend⟩ := EventLog.exists_append hnew
  have hpayload : c.payloadError? a.event = none := by
    rw [payloadError?, hpayloads]
  exact ⟨log, EventLog.toList_append happend, add_of_append hpayload happend⟩

theorem Addition.perform_of_written {s' : Storage} (hstorage : c.storage = some s)
    (hpersist : s.persist c.log.size e = .ok s') :
    (a.perform c).state.log.toList = c.log.toList ++ [e] ∧
      (a.perform c).state.payloads = none ∧
      (a.perform c).state.storage = some s' ∧ a.accepted c = [e] := by
  obtain ⟨log, hlog, hperform⟩ := Addition.exists_absorb he hpayloads hnew
  obtain ⟨hresult, hstorage'⟩ := absorb_of_ok log hstorage hpersist
  have haccepted := accepted_of_ok (a := a) (hperform ▸ hresult)
  rw [he] at haccepted
  refine ⟨?_, ?_, ?_, haccepted⟩
  all_goals rw [hperform]
  · exact hlog
  · exact hpayloads
  · exact hstorage'

theorem Addition.perform_of_unwritten {error : StoreError} (hstorage : c.storage = some s)
    (hpersist : s.persist c.log.size e = .error error) :
    (a.perform c).state.log.toList = c.log.toList ++ [e] ∧
      (a.perform c).state.payloads = none ∧
      (a.perform c).state.storage = some s ∧ a.accepted c = [] := by
  obtain ⟨log, hlog, hperform⟩ := Addition.exists_absorb he hpayloads hnew
  obtain ⟨hresult, hstorage'⟩ := absorb_of_error log hstorage hpersist
  refine ⟨?_, ?_, ?_, accepted_of_error (hperform ▸ hresult)⟩
  all_goals rw [hperform]
  · exact hlog
  · exact hpayloads
  · exact hstorage'

end

/-! ## Storage in memory -/

theorem load_addAll_of_kept? {m : Storage.Memory} (hstorage : c.storage = some s)
    (hkept : s.kept? = some m) (as : List Addition) :
    ∃ s', (c.addAll as).storage = some s' ∧ s'.load = .ok (m.events ++ c.accepted as) := by
  induction as generalizing c s m with
  | nil => exact ⟨s, hstorage, by simp [Storage.load_of_kept? hkept, accepted]⟩
  | cons a as ih =>
    rcases a.perform_cases c with ⟨hstate, haccepted⟩ | ⟨log, happend, hperform⟩
    · rw [addAll, accepted, haccepted, List.nil_append, hstate]
      exact ih hstorage hkept
    rcases absorb_cases hstorage hperform with ⟨written, hpersist, hstorage', haccepted⟩ |
      ⟨hstorage', haccepted⟩
    · obtain ⟨s', hs', hload⟩ := ih hstorage' (Storage.kept?_of_persist hkept hpersist)
      refine ⟨s', hs', ?_⟩
      rw [hload, accepted, haccepted, List.append_assoc]
    · rw [addAll, accepted, haccepted, List.nil_append]
      exact ih hstorage' hkept

/-! ## Storage in a directory -/

/-- An event and the position in the log at which it has been written. -/
abbrev Placed := List (Nat × Event)

def Placed.files (placed : Placed) : List EventFile := placed.map fun p => fileAt p.1 p.2

/-- The storage lists the files from before and those of the placed events, each of which stands in
the log where its file says. -/
structure Filed (old : List EventFile) (placed : Placed) (c : Conversation) : Prop where
  listed : ∃ d, c.storage = some (.directory d) ∧ d.Lists (old ++ placed.files)
  logged : ∀ p ∈ placed, c.log.toList[p.1]? = some p.2
  past : ∀ f ∈ old, f.sequence < c.log.size

variable {old : List EventFile} {placed : Placed}

theorem Filed.sequence_lt (h : c.Filed old placed) :
    ∀ f ∈ old ++ placed.files, f.sequence < c.log.size := by
  intro f hf
  rcases List.mem_append.mp hf with hf | hf
  · exact h.past f hf
  · obtain ⟨p, hp, rfl⟩ := List.mem_map.mp hf
    obtain ⟨hlt, -⟩ := List.getElem?_eq_some_iff.mp (h.logged p hp)
    rwa [EventLog.length_toList] at hlt

/-- An addition that succeeds places its event at the end of the log, one that fails places none. -/
theorem Filed.perform (h : c.Filed old placed) (a : Addition)
    (hroom : (a.perform c).state.log.size ≤ Text.wordSize) :
    ∃ more : Placed, (a.perform c).state.Filed old (placed ++ more) ∧
      more.map (·.2) = a.accepted c := by
  rcases a.perform_cases c with ⟨hstate, haccepted⟩ | ⟨log, happend, hperform⟩
  · refine ⟨[], ?_, haccepted.symm⟩
    rwa [hstate, List.append_nil]
  have hlog : (a.perform c).state.log = log := by
    rw [hperform]
    rfl
  have hlist := EventLog.toList_append happend
  have hsize := EventLog.size_append happend
  have hlogged : ∀ p ∈ placed, (a.perform c).state.log.toList[p.1]? = some p.2 := by
    intro p hp
    rw [hlog, hlist]
    have hplaced := h.logged p hp
    obtain ⟨hlt, -⟩ := List.getElem?_eq_some_iff.mp hplaced
    rw [List.getElem?_append_left hlt, hplaced]
  have hpast : ∀ f ∈ old, f.sequence < (a.perform c).state.log.size := by
    intro f hf
    have := h.past f hf
    rw [hlog]
    omega
  obtain ⟨d, hstorage, hlists⟩ := h.listed
  rcases absorb_cases hstorage hperform with ⟨s', hpersist, hstorage', haccepted⟩ |
    ⟨hstorage', haccepted⟩
  · have hk : c.log.size < Text.wordSize := by
      rw [hlog] at hroom
      omega
    -- the new number is past all others, so the file is listed after theirs
    obtain ⟨d', rfl, hlists'⟩ := hlists.persist hk h.sequence_lt hpersist
    refine ⟨[(c.log.size, a.event.identified a.fresh)], ⟨⟨d', hstorage', ?_⟩, ?_, hpast⟩,
      haccepted.symm⟩
    · rwa [Placed.files, List.map_append, ← List.append_assoc]
    · intro p hp
      rcases List.mem_append.mp hp with hp | hp
      · exact hlogged p hp
      · rw [List.mem_singleton.mp hp, hlog, hlist, ← EventLog.length_toList]
        simp
  · refine ⟨[], ⟨⟨d, hstorage', ?_⟩, ?_, hpast⟩, haccepted.symm⟩
    · rwa [List.append_nil]
    · rwa [List.append_nil]

theorem Filed.addAll (h : c.Filed old placed) (as : List Addition)
    (hroom : (c.addAll as).log.size ≤ Text.wordSize) :
    ∃ more : Placed, (c.addAll as).Filed old (placed ++ more) ∧
      more.map (·.2) = c.accepted as := by
  induction as generalizing c placed with
  | nil => exact ⟨[], by rwa [List.append_nil], rfl⟩
  | cons a as ih =>
    obtain ⟨more, hstep, hmore⟩ := h.perform a (Nat.le_trans (size_le_addAll as _) hroom)
    obtain ⟨rest, hrun, hrest⟩ := ih hstep hroom
    refine ⟨more ++ rest, ?_, ?_⟩
    · rwa [← List.append_assoc]
    · rw [List.map_append, hmore, hrest, accepted]

/-! ## Loading -/

theorem Placed.readFrom_eq_ok {position : Nat} :
    readFrom position placed.files = .ok (placed.map (·.2)) ↔
      placed.map (·.1) = List.range' position placed.length ∧ ∀ p ∈ placed, p.2.Legible := by
  induction placed generalizing position with
  | nil => simp [Placed.files, readFrom]
  | cons p placed ih =>
    show readFrom position (fileAt p.1 p.2 :: Placed.files placed) = _ ↔ _
    rw [Storage.Directory.readFrom_cons_eq_ok, List.map_cons, List.map_cons, List.length_cons,
      List.range'_succ, List.forall_mem_cons, List.cons.injEq]
    constructor
    · rintro ⟨e, es, he, hes, heq⟩
      obtain ⟨rfl, rfl⟩ := List.cons.inj heq
      obtain ⟨hposition, hlegible⟩ := Storage.Directory.read_fileAt.mp he
      obtain ⟨hrest, hrestLegible⟩ := ih.mp hes
      exact ⟨⟨hposition, hrest⟩, hlegible, hrestLegible⟩
    · rintro ⟨⟨hposition, hrest⟩, hlegible, hrestLegible⟩
      exact ⟨p.2, _, Storage.Directory.read_fileAt.mpr ⟨hposition, hlegible⟩,
        ih.mpr ⟨hrest, hrestLegible⟩, rfl⟩

/-- Placed events stand without a gap after the events from before exactly if the log goes on with
just these. -/
theorem Placed.positions_iff {log : EventLog} {before : List Event}
    (hbefore : before <+: log.toList)
    (hlogged : ∀ p ∈ placed, log.toList[p.1]? = some p.2) :
    placed.map (·.1) = List.range' before.length placed.length ↔
      before ++ placed.map (·.2) <+: log.toList := by
  obtain ⟨rest, hrest⟩ := hbefore
  have hat : ∀ i, log.toList[before.length + i]? = rest[i]? := by
    intro i
    rw [← hrest, List.getElem?_append_right (Nat.le_add_right _ _), Nat.add_sub_cancel_left]
  rw [← hrest, List.prefix_append_right_inj, List.prefix_iff_getElem?]
  -- both say of each placed event which position of the log it stands at
  constructor
  · intro hpositions i hi
    rw [List.length_map] at hi
    have hposition : placed[i].1 = before.length + i := by
      have := congrArg (·[i]?) hpositions
      simpa [hi] using this
    rw [← hat, ← hposition, hlogged _ (List.getElem_mem hi), List.getElem_map]
  · intro hprefix
    apply List.ext_getElem
    · simp
    · intro i hi _
      rw [List.length_map] at hi
      have hplaced : log.toList[before.length + i]? = some placed[i].2 := by
        rw [hat, hprefix i (by simpa using hi), List.getElem_map]
      have hposition := log.position_unique (hlogged _ (List.getElem_mem hi)) hplaced
      simpa using hposition

theorem Placed.positions_of_readFrom {position : Nat} {es : List Event}
    (h : readFrom position placed.files = .ok es) :
    placed.map (·.1) = List.range' position placed.length := by
  obtain ⟨hsequences, hlength⟩ := Storage.Directory.sequences_of_readFrom h
  rw [← hlength, Placed.files, List.map_map, List.length_map] at hsequences
  exact hsequences

theorem Placed.load_eq_ok {d : Storage.Directory} {before found : List Event}
    (hlists : d.Lists (old ++ placed.files)) (hold : readFrom 0 old = .ok before) :
    d.load = .ok found ↔
      ∃ es, readFrom before.length placed.files = .ok es ∧ found = before ++ es := by
  have hlength := (Storage.Directory.sequences_of_readFrom hold).2
  rw [hlists.load, Storage.Directory.readFrom_append_eq_ok, Nat.zero_add, hlength]
  constructor
  · rintro ⟨es₁, es₂, h₁, h₂, rfl⟩
    obtain rfl := Except.ok.inj (hold.symm.trans h₁)
    exact ⟨es₂, h₂, rfl⟩
  · rintro ⟨es, hes, rfl⟩
    exact ⟨before, es, hold, hes, rfl⟩

theorem Filed.of_load {d : Storage.Directory} {before : List Event}
    (hstorage : c.storage = some (.directory d)) (hload : d.load = .ok before)
    (hstep : before.length = c.log.size) :
    ∃ old, c.Filed old [] ∧ readFrom 0 old = .ok before := by
  obtain ⟨old, hlists, hold⟩ := Storage.Directory.lists_of_load hload
  have hsequences := (Storage.Directory.sequences_of_readFrom hold).1
  refine ⟨old, ⟨⟨d, hstorage, by simpa [Placed.files] using hlists⟩, by simp, ?_⟩, hold⟩
  intro f hf
  have hmem : f.sequence ∈ old.map (·.sequence) := List.mem_map_of_mem hf
  rw [hsequences, List.mem_range'_1] at hmem
  omega

theorem Filed.load_addAll {before : List Event} (h : c.Filed old [])
    (hold : readFrom 0 old = .ok before) (hstep : before.length = c.log.size) (as : List Addition)
    (hroom : (c.addAll as).log.size ≤ Text.wordSize) :
    ∃ d', (c.addAll as).storage = some (.directory d') ∧
      (d'.load = .ok (before ++ c.accepted as) ↔
        c.log.toList ++ c.accepted as <+: (c.addAll as).log.toList ∧
          ∀ e ∈ c.accepted as, e.Legible) ∧
      ∀ found, d'.load = .ok found →
        c.log.toList ++ c.accepted as <+: (c.addAll as).log.toList := by
  obtain ⟨placed, hrun, haccepted⟩ := h.addAll as hroom
  rw [List.nil_append] at hrun
  obtain ⟨d', hstorage', hlists'⟩ := hrun.listed
  have hlength : before.length = c.log.toList.length := by
    rw [EventLog.length_toList, hstep]
  have hgapless := Placed.positions_iff (log_prefix_addAll as c) hrun.logged
  rw [← hlength, haccepted] at hgapless
  have hall : (∀ e ∈ c.accepted as, e.Legible) ↔ ∀ p ∈ placed, p.2.Legible := by
    rw [← haccepted, List.forall_mem_map]
  refine ⟨d', hstorage', ?_, ?_⟩
  · rw [hall, ← hgapless, ← Placed.readFrom_eq_ok, haccepted, Placed.load_eq_ok hlists' hold]
    constructor
    · rintro ⟨es, hes, heq⟩
      rwa [List.append_cancel_left heq]
    · intro hread
      exact ⟨_, hread, rfl⟩
  · intro found hfound
    obtain ⟨es, hes, -⟩ := (Placed.load_eq_ok hlists' hold).mp hfound
    exact hgapless.mp (Placed.positions_of_readFrom hes)

end Conversation

/-! ## A conversation in a directory -/

namespace Sample

theorem storable_prompt (id : String) : (prompt id).Storable where
  time := show origin.now.FourDigitYear from ⟨by decide, by decide, by decide⟩
  freeJson := fun _ hj => absurd hj List.not_mem_nil
  numbers := fun _ hn => absurd hn List.not_mem_nil
  depth := show 3 ≤ Json.Doc.maxDepth by decide

/-- A directory in which a conversation has been begun. -/
def folder : Storage.Directory where
  path := "talk"
  entries := some [(Storage.baseFileName, .text base.toJson.pretty)]

def begun : Conversation := .assemble origin.id base .empty {} (some (.directory folder))

/-- An event whose id cannot be part of a file name, and one whose id can. -/
def unwritable : Conversation.Addition := ⟨⟨"f"⟩, prompt "a/b"⟩
def writable : Conversation.Addition := ⟨⟨"f"⟩, prompt "x"⟩

theorem load_folder : folder.load = .ok [] := by
  have hlists : folder.Lists [] := by
    refine ⟨_, rfl, ?_, .nil⟩
    simp [Storage.Directory.eventFiles, Storage.sequence?_baseFileName]
  rw [hlists.load]
  rfl

/-- The folder with the file of the writable event at a position. -/
def folderWith (k : Nat) : Storage.Directory :=
  { folder with entries := some [(Storage.baseFileName, .text base.toJson.pretty),
      (Storage.eventFileName k ⟨"x"⟩, .text (prompt "x").toJson.pretty)] }

theorem persist_writable {k : Nat} (hk : k < Text.wordSize) :
    (Storage.directory folder).persist k (prompt "x") = .ok (.directory (folderWith k)) := by
  have hout : Storage.Directory.leadsOut (Storage.eventFileName k ⟨"x"⟩) = false := by
    rw [Storage.Directory.leadsOut_eventFileName]
    decide
  have hnew : ∀ entry ∈ [(Storage.baseFileName, File.text base.toJson.pretty)],
      entry.1 ≠ Storage.eventFileName k ⟨"x"⟩ := by
    intro entry hentry
    rw [List.mem_singleton.mp hentry]
    exact (Storage.Directory.eventFileName_ne_baseFileName hk _).symm
  have hwrite : folder.persist k (prompt "x") = .ok (folderWith k) :=
    Storage.Directory.write_of_new rfl hout hnew _
  rw [Storage.persist, hwrite]
  rfl

theorem persist_unwritable {d : Storage.Directory} (hd : d.entries.isSome) (k : Nat) :
    (Storage.directory d).persist k (prompt "a/b") = .error (.io .notFound) := by
  obtain ⟨entries, hentries⟩ := Option.isSome_iff_exists.mp hd
  have hout : Storage.Directory.leadsOut (Storage.eventFileName k ⟨"a/b"⟩) = true := by
    rw [Storage.Directory.leadsOut_eventFileName]
    decide
  have hwrite : d.persist k (prompt "a/b") = .error (.io .notFound) := by
    unfold Storage.Directory.persist Storage.Directory.write
    rw [hentries]
    exact if_pos hout
  rw [Storage.persist, hwrite]
  rfl

end Sample

namespace Conversation

open Sample (begun folder folderWith unwritable writable configured origin prompt)

theorem create_begun :
    (create (configured "small") {} origin (.directory { path := "talk" })).result = .ok begun := by
  with_unfolding_all rfl

/-! ## The theorem -/

variable {c : Conversation}

/-- **Failing writes**: a directory that was in step with the conversation gives back what it held
and the events whose addition has succeeded exactly if these are the next ones of the log, so that
none of them came after an event that could not be written, and if their texts can be read back.
When one did come after such an event, nothing can be loaded any more. -/
theorem load_addAll_iff {d : Storage.Directory} {before : List Event}
    (hstorage : c.storage = some (.directory d)) (hload : d.load = .ok before)
    (hstep : before.length = c.log.size) (as : List Addition)
    (hroom : (c.addAll as).log.size ≤ Text.wordSize) :
    ∃ d', (c.addAll as).storage = some (.directory d') ∧
      (d'.load = .ok (before ++ c.accepted as) ↔
        c.log.toList ++ c.accepted as <+: (c.addAll as).log.toList ∧
          ∀ e ∈ c.accepted as, e.Legible) ∧
      ∀ found, d'.load = .ok found →
        c.log.toList ++ c.accepted as <+: (c.addAll as).log.toList := by
  obtain ⟨old, hfiled, hold⟩ := Filed.of_load hstorage hload hstep
  exact hfiled.load_addAll hold hstep as hroom

/-- A write that fails is reported, the one after it succeeds, and the directory can no longer be
loaded. -/
theorem gap_after_failed_write :
    (create (configured "small") {} origin (.directory { path := "talk" })).result = .ok begun ∧
      begun.accepted [unwritable, writable] = [prompt "x"] ∧
      (begun.addAll [unwritable, writable]).storage = some (.directory (folderWith 1)) ∧
      (folderWith 1).load = .error (.corruptFile "event-00001-x.json" (.wrongSequence 0 1)) := by
  obtain ⟨hlog, hpayloads, hstorage, haccepted⟩ :=
    Addition.perform_of_unwritten (a := unwritable) (c := begun) rfl rfl
      (fun x hx => absurd hx List.not_mem_nil) rfl (Sample.persist_unwritable rfl 0)
  have hlog₁ : (unwritable.perform begun).state.log.toList = [prompt "a/b"] := hlog
  have hpersist : (Storage.directory folder).persist (unwritable.perform begun).state.log.size
      (prompt "x") = .ok (.directory (folderWith 1)) := by
    rw [← EventLog.length_toList, hlog₁]
    exact Sample.persist_writable (by decide)
  obtain ⟨-, -, hstorage', haccepted'⟩ :=
    Addition.perform_of_written (a := writable) (e := prompt "x") rfl hpayloads
      (by rw [hlog₁]; decide) hstorage hpersist
  refine ⟨create_begun, ?_, ?_, ?_⟩
  · rw [accepted, accepted, accepted, haccepted, haccepted']
    rfl
  · rw [addAll, addAll, addAll, hstorage']
  · have hlists : (folderWith 1).Lists [fileAt 1 (prompt "x")] := by
      refine ⟨_, rfl, ?_, List.pairwise_singleton _ _⟩
      simp [Storage.Directory.eventFiles, Storage.sequence?_baseFileName,
        Storage.sequence?_eventFileName (show 1 < Text.wordSize by decide), fileAt, prompt,
        Event.systemPrompt]
    rw [hlists.load]
    with_unfolding_all rfl

theorem load_addAll_iff_begun :
    (create (configured "small") {} origin (.directory { path := "talk" })).result = .ok begun ∧
      begun.accepted [writable, unwritable] = [prompt "x"] ∧
      ∃ d, (begun.addAll [writable, unwritable]).storage = some (.directory d) ∧
        d.load = .ok [prompt "x"] := by
  obtain ⟨hlog, hpayloads, hstorage, haccepted⟩ :=
    Addition.perform_of_written (a := writable) (c := begun) (e := prompt "x") rfl rfl
      (fun x hx => absurd hx List.not_mem_nil) rfl
      (Sample.persist_writable (show 0 < Text.wordSize by decide))
  have hlog₁ : (writable.perform begun).state.log.toList = [prompt "x"] := hlog
  obtain ⟨hlog₂, -, -, haccepted'⟩ :=
    Addition.perform_of_unwritten (a := unwritable) (e := prompt "a/b") rfl hpayloads
      (by rw [hlog₁]; decide) hstorage (Sample.persist_unwritable rfl _)
  rw [hlog₁] at hlog₂
  have hall : begun.accepted [writable, unwritable] = [prompt "x"] := by
    rw [accepted, accepted, accepted, haccepted, haccepted']
    rfl
  have hlogs : (begun.addAll [writable, unwritable]).log.toList = [prompt "x", prompt "a/b"] :=
    hlog₂
  have hroom : (begun.addAll [writable, unwritable]).log.size ≤ Text.wordSize := by
    rw [← EventLog.length_toList, hlogs]
    decide
  obtain ⟨d, hd, hload, -⟩ := load_addAll_iff (c := begun) rfl Sample.load_folder rfl
    [writable, unwritable] hroom
  refine ⟨create_begun, hall, d, hd, ?_⟩
  rw [hall, hlogs] at hload
  refine hload.mpr ⟨⟨[prompt "a/b"], rfl⟩, ?_⟩
  rw [List.forall_mem_singleton]
  exact (Sample.storable_prompt "x").ofText_write Json.Layout.pretty_plain

end Conversation
end AgentMemory
