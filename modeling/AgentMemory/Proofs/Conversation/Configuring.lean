import AgentMemory.Proofs.Conversation.Opening
import AgentMemory.Proofs.Conversation.Sidecar
import Mathlib.Data.List.Destutter

/-!
# Attaching configurations

A configuration is recorded before the sidecar is written, and stays so if the write fails. So the
sidecar is that of the conversation, or one from earlier on. A configuration that is attached again
is not written again: a write that has failed is made good by the next configuration that differs,
and by nothing else.
-/

namespace AgentMemory

/-! ## The storage between two calls -/

namespace Storage

variable {s s' : Storage} {b : BaseState}

/-- A storage is found again with the sidecar that it was left with. Whether it takes writes is
another matter. -/
inductive SidecarKept : Storage → Storage → Prop
  | memory {m m' : Memory} (h : m'.base = m.base) : SidecarKept (memory m) (memory m')
  | backend {b b' : Backend} (h : b'.kept.base = b.kept.base) :
      SidecarKept (backend b) (backend b')
  | directory {d d' : Directory} (h : d'.entry? baseFileName = d.entry? baseFileName) :
      SidecarKept (directory d) (directory d')

theorem SidecarKept.readBase (h : s.SidecarKept s') :
    Conversation.readBase s' = Conversation.readBase s := by
  have hread : s'.readBase = s.readBase := by
    cases h with
    | memory h => exact congrArg Except.ok h
    | backend h => exact congrArg Except.ok h
    | directory h =>
      show Directory.readBase _ = Directory.readBase _
      rw [Directory.readBase, Directory.readBase, h]
  rw [Conversation.readBase, Conversation.readBase, hread]

theorem SidecarKept.admits (h : s.SidecarKept s') (hadmits : s.Admits b) : s'.Admits b := by
  cases h with
  | memory => exact hadmits
  | backend => exact hadmits
  | directory => exact hadmits

end Storage

/-! ## The history -/

abbrev ConfigSnapshot.Differs (x y : ConfigSnapshot) : Prop := x.config.same y.config = false

theorem destutter_concat {α : Type} (R : α → α → Prop) [DecidableRel R] (l : List α) (x : α) :
    (l ++ [x]).destutter R =
      l.destutter R ++ if ∃ y ∈ (l.destutter R).getLast?, ¬ R y x then [] else [x] := by
  cases l with
  | nil => simp
  | cons a l =>
    rw [List.cons_append, List.destutter_cons', List.destutter_cons']
    induction l generalizing a with
    | nil => by_cases h : R a x <;> simp [h]
    | cons b l ih =>
      by_cases h : R a b
      · obtain ⟨y, ys, hy⟩ :=
          List.exists_cons_of_ne_nil (List.destutter'_ne_nil (R := R) l (a := b))
        rw [List.cons_append, List.destutter'_cons_pos _ h, List.destutter'_cons_pos _ h, ih, hy,
          List.cons_append, List.getLast?_cons_cons, List.cons_append, List.cons_append]
      · rw [List.cons_append, List.destutter'_cons_neg _ h, List.destutter'_cons_neg _ h, ih]

namespace BaseState

variable {b : BaseState} {config : AgentConfig} {earlier l : List ConfigSnapshot}

theorem isCurrent_iff : b.isCurrent config = true ↔
    ∃ y ∈ b.history.getLast?, y.config.same config = true := by
  simp [isCurrent, current?, Option.any_eq_true]

theorem history_record_collapsed (x : ConfigSnapshot) (hearlier : l = [] → earlier = [])
    (h : b.history = earlier ++ l.destutter ConfigSnapshot.Differs) :
    (b.record x.config x.time).history =
      earlier ++ (l ++ [x]).destutter ConfigSnapshot.Differs := by
  have hlast : b.history.getLast? = (l.destutter ConfigSnapshot.Differs).getLast? := by
    rw [h, List.getLast?_append]
    cases hl : l.destutter ConfigSnapshot.Differs with
    | nil => rw [hearlier ((List.destutter_eq_nil _).mp hl)]; rfl
    | cons y ys => rw [List.getLast?_cons]; rfl
  have hcurrent : b.isCurrent x.config = true ↔
      ∃ y ∈ (l.destutter ConfigSnapshot.Differs).getLast?, ¬ ConfigSnapshot.Differs y x := by
    rw [isCurrent_iff, hlast]
    simp only [ConfigSnapshot.Differs, Bool.not_eq_false]
  rw [history_record, destutter_concat, h, List.append_assoc]
  simp only [hcurrent]

end BaseState

/-! ## A call -/

/-- A call that attaches a configuration, with the time and the storage that it finds. -/
structure Attachment where
  config : AgentConfig
  now : Timestamp
  found : Storage

def Attachment.snapshot (a : Attachment) : ConfigSnapshot := ⟨a.now, a.config⟩

def Attachment.perform (a : Attachment) (c : Conversation) : Outcome Bool :=
  { c with storage := some a.found }.updateConfig a.config a.now

namespace Conversation

variable {c c' d : Conversation} {s : Storage} {kept : BaseState} {a : Attachment}

/-- The sidecar of the storage is the state of the conversation. -/
def InStep (c : Conversation) : Prop :=
  ∃ s, c.storage = some s ∧ readBase s = .ok (some c.base)

/-- A call finds the storage with the sidecar that was left there, and the storage can hold what the
call may record. -/
def Finds (c : Conversation) (a : Attachment) : Prop :=
  ∃ s, c.storage = some s ∧ s.SidecarKept a.found ∧ a.found.CanHold a.snapshot

def accepts (c : Conversation) (x : ConfigSnapshot) : Bool := (c.checkConfig x.config).isOk

theorem accepts_of_ok {x : ConfigSnapshot} (h : c.checkConfig x.config = .ok ()) :
    c.accepts x = true := by
  rw [accepts, h]
  rfl

theorem accepts_of_error {x : ConfigSnapshot} {error : ConversationError}
    (h : c.checkConfig x.config = .error error) : c.accepts x = false := by
  rw [accepts, h]
  rfl

/-- What a call does that attaches a configuration. -/
inductive Attached (c c' : Conversation) (x : ConfigSnapshot) :
    Except ConversationError Bool → Prop
  | refused {added removed : List String} (hcheck : c.accepts x = false)
      (hbase : c'.base = c.base) (hstep : c'.InStep ↔ c.InStep) :
      Attached c c' x (.error (.toolsChanged added removed))
  | repeated (hcheck : c.accepts x = true) (hcurrent : c.base.isCurrent x.config = true)
      (hbase : c'.base = c.base) (hstep : c'.InStep ↔ c.InStep) : Attached c c' x (.ok false)
  | recorded (hcheck : c.accepts x = true) (hnew : c.base.isCurrent x.config = false)
      (hbase : c'.base = c.base.record x.config x.time) (hstep : c'.InStep) :
      Attached c c' x (.ok true)
  | unwritten {error : StoreError} (hcheck : c.accepts x = true)
      (hnew : c.base.isCurrent x.config = false)
      (hbase : c'.base = c.base.record x.config x.time) (hstep : ¬ c'.InStep) :
      Attached c c' x (.error (.store error))

section

variable {x : ConfigSnapshot} {result : Except ConversationError Bool}

theorem Attached.inStep_iff (h : c.Attached c' x result) :
    c'.InStep ↔ result = .ok true ∨ c.InStep ∧ ∀ error, result ≠ .error (.store error) := by
  cases h with
  | refused hcheck hbase hstep => simp [hstep]
  | repeated hcheck hcurrent hbase hstep => simp [hstep]
  | recorded hcheck hnew hbase hstep => simp [hstep]
  | unwritten hcheck hnew hbase hstep => simp [hstep]

theorem Attached.base_of_refused (h : c.Attached c' x result) (hcheck : c.accepts x = false) :
    c'.base = c.base := by
  cases h with
  | refused _ hbase _ | repeated _ _ hbase _ => exact hbase
  | recorded haccepts _ _ _ | unwritten haccepts _ _ _ => cases hcheck.symm.trans haccepts

theorem Attached.base_of_accepted (h : c.Attached c' x result) (hcheck : c.accepts x = true) :
    c'.base = c.base.record x.config x.time := by
  cases h with
  | refused hrefused _ _ => cases hcheck.symm.trans hrefused
  | repeated _ hcurrent hbase _ => rw [hbase, BaseState.record_of_isCurrent _ hcurrent]
  | recorded _ _ hbase _ | unwritten _ _ hbase _ => exact hbase

end

/-- The sidecar is the state of the conversation, or one that it had earlier on. -/
structure Trails (c : Conversation) (s : Storage) (kept : BaseState) : Prop where
  storage : c.storage = some s
  sidecar : readBase s = .ok (some kept)
  behind : kept.history <+: c.base.history
  admits : s.Admits c.base

theorem InStep.iff_of_sidecar (hstorage : c.storage = some s)
    (hsidecar : readBase s = .ok (some kept)) : c.InStep ↔ kept = c.base := by
  constructor
  · rintro ⟨s', hs', hread⟩
    obtain rfl := Option.some.inj (hstorage.symm.trans hs')
    exact Option.some.inj (Except.ok.inj (hsidecar.symm.trans hread))
  · rintro rfl
    exact ⟨s, hstorage, hsidecar⟩

theorem checkConfig_eq_error {config : AgentConfig} {error : ConversationError}
    (h : c.checkConfig config = .error error) :
    ∃ added removed, error = .toolsChanged added removed := by
  unfold checkConfig at h
  split at h
  · unfold checkTools at h
    dsimp only at h
    split at h
    · cases h
    · exact ⟨_, _, (Except.error.inj h).symm⟩
  · cases h

theorem Trails.found (h : c.Trails s kept) (hkept : s.SidecarKept a.found) :
    ({ c with storage := some a.found } : Conversation).Trails a.found kept ∧
      (({ c with storage := some a.found } : Conversation).InStep ↔ c.InStep) := by
  have hread : readBase a.found = .ok (some kept) := hkept.readBase.trans h.sidecar
  refine ⟨⟨rfl, hread, h.behind, hkept.admits h.admits⟩, ?_⟩
  rw [InStep.iff_of_sidecar rfl hread, InStep.iff_of_sidecar h.storage h.sidecar]

theorem Trails.attach_new (h : c.Trails s kept) (hkept : s.SidecarKept a.found)
    (hcan : a.found.CanHold a.snapshot) (hcheck : c.checkConfig a.config = .ok ())
    (hnew : c.base.isCurrent a.config = false) :
    c.Attached (a.perform c).state a.snapshot (a.perform c).result ∧
      ∃ s' kept', (a.perform c).state.Trails s' kept' := by
  have haccepts : c.accepts a.snapshot = true := accepts_of_ok hcheck
  have hread : readBase a.found = .ok (some kept) := hkept.readBase.trans h.sidecar
  have hadmits : a.found.Admits (c.base.record a.config a.now) :=
    (hkept.admits h.admits).record hcan
  have hhistory : (c.base.record a.config a.now).history = c.base.history ++ [a.snapshot] := by
    rw [BaseState.history_record, hnew]
    rfl
  have hperform := updateConfig_of_new (c := { c with storage := some a.found }) a.now hcheck hnew
  rw [Attachment.perform, hperform]
  dsimp only [writeBase]
  cases hwrite : a.found.writeBase (c.base.record a.config a.now).toJson with
  | error error =>
    have hbehind : kept.history <+: (c.base.record a.config a.now).history :=
      hhistory ▸ h.behind.trans (List.prefix_append _ _)
    refine ⟨.unwritten haccepts hnew rfl ?_, a.found, kept, rfl, hread, hbehind, hadmits⟩
    rw [InStep.iff_of_sidecar rfl hread]
    -- what is recorded is longer than what the sidecar can be
    rintro rfl
    have hlength := h.behind.length_le
    rw [hhistory, List.length_append] at hlength
    exact Nat.not_succ_le_self _ hlength
  | ok written =>
    have hwritten : readBase written = .ok (some (c.base.record a.config a.now)) :=
      Storage.readBase_of_writeBase hadmits hwrite
    exact ⟨.recorded haccepts hnew rfl ⟨written, rfl, hwritten⟩, written, _, rfl, hwritten,
      List.prefix_rfl, hadmits.writeBase hwrite⟩

/-- **A call**: it is refused, repeats the present configuration, or records another one. -/
theorem Trails.attach (h : c.Trails s kept) (hfinds : c.Finds a) :
    c.Attached (a.perform c).state a.snapshot (a.perform c).result ∧
      ∃ s' kept', (a.perform c).state.Trails s' kept' := by
  obtain ⟨s', hs', hkept, hcan⟩ := hfinds
  obtain rfl := Option.some.inj (h.storage.symm.trans hs')
  obtain ⟨htrails, hstep⟩ := h.found hkept
  have hchecked : ({ c with storage := some a.found } : Conversation).checkConfig a.config =
      c.checkConfig a.config := rfl
  cases hcheck : c.checkConfig a.config with
  | error error =>
    have hrefused : c.accepts a.snapshot = false := accepts_of_error hcheck
    obtain ⟨added, removed, rfl⟩ := checkConfig_eq_error hcheck
    rw [Attachment.perform, updateConfig, hchecked, hcheck]
    exact ⟨.refused hrefused rfl hstep, _, _, htrails⟩
  | ok =>
    cases hnew : c.base.isCurrent a.config with
    | true =>
      have haccepts : c.accepts a.snapshot = true := accepts_of_ok hcheck
      rw [Attachment.perform, updateConfig, hchecked, hcheck]
      dsimp only
      rw [if_pos hnew]
      exact ⟨.repeated haccepts hnew rfl hstep, _, _, htrails⟩
    | false => exact h.attach_new hkept hcan hcheck hnew

theorem log_perform (a : Attachment) (c : Conversation) : (a.perform c).state.log = c.log := by
  unfold Attachment.perform updateConfig
  split
  · rfl
  · split <;> rfl

theorem accepts_congr (h : d.log = c.log) : d.accepts = c.accepts := by
  funext x
  rw [accepts, accepts, checkConfig, checkConfig, h]

/-! ## Runs of calls -/

/-- A call of a run: what it records if it records anything, and its answer. -/
structure Call where
  snapshot : ConfigSnapshot
  result : Except ConversationError Bool

/-- What comes of one call after the other. -/
inductive Attaches (c : Conversation) : List Call → Conversation → Prop
  | nil : Attaches c [] c
  | snoc {calls : List Call} {d : Conversation} {a : Attachment} (h : Attaches c calls d)
      (hfinds : d.Finds a) :
      Attaches c (calls ++ [⟨a.snapshot, (a.perform d).result⟩]) (a.perform d).state

/-- Every call whose write has failed is followed by one that records a configuration. -/
def MadeGood (calls : List Call) : Prop :=
  ∀ failed error after, failed :: after <:+ calls → failed.result = .error (.store error) →
    ∃ call ∈ after, call.result = .ok true

theorem madeGood_nil : MadeGood [] := by
  intro failed error after hsuffix
  cases List.suffix_nil.mp hsuffix

theorem madeGood_snoc_iff {calls : List Call} {call : Call} :
    MadeGood (calls ++ [call]) ↔ call.result = .ok true ∨
      MadeGood calls ∧ ∀ error, call.result ≠ .error (.store error) := by
  constructor
  · intro h
    by_cases hwritten : call.result = .ok true
    · exact .inl hwritten
    · refine .inr ⟨fun failed error after hsuffix hfailed => ?_, fun error herror => ?_⟩
      · obtain ⟨later, hlater, hresult⟩ := h failed error (after ++ [call])
          (List.suffix_concat_iff.mpr (.inr ⟨_, rfl, hsuffix⟩)) hfailed
        obtain hlater | hlater := List.mem_append.mp hlater
        · exact ⟨later, hlater, hresult⟩
        · rw [List.mem_singleton.mp hlater] at hresult
          exact absurd hresult hwritten
      · obtain ⟨later, hlater, -⟩ := h call error [] (List.suffix_append calls [call]) herror
        cases hlater
  · intro h failed error after hsuffix hfailed
    obtain hnil | ⟨t, ht, hcalls⟩ := List.suffix_concat_iff.mp hsuffix
    · cases hnil
    · cases t with
      | nil =>
        obtain ⟨rfl, rfl⟩ := List.cons.inj ht
        obtain hwritten | ⟨-, hsound⟩ := h
        · rw [hwritten] at hfailed
          cases hfailed
        · exact absurd hfailed (hsound error)
      | cons first rest =>
        obtain ⟨rfl, rfl⟩ := List.cons.inj ht
        obtain hwritten | ⟨hgood, -⟩ := h
        · exact ⟨call, List.mem_append_right rest List.mem_cons_self, hwritten⟩
        · obtain ⟨later, hlater, hresult⟩ := hgood _ error rest hcalls hfailed
          exact ⟨later, List.mem_append_left _ hlater, hresult⟩

section

variable {calls : List Call}

theorem Attaches.trails (hrun : c.Attaches calls d) (h : c.Trails s kept) :
    ∃ s' kept', d.Trails s' kept' := by
  induction hrun with
  | nil => exact ⟨s, kept, h⟩
  | snoc hrun hfinds ih =>
    obtain ⟨s', kept', htrails⟩ := ih
    exact (htrails.attach hfinds).2

theorem Attaches.log (hrun : c.Attaches calls d) : d.log = c.log := by
  induction hrun with
  | nil => rfl
  | @snoc calls d a hrun hfinds ih => exact (log_perform a d).trans ih

theorem Attaches.inStep_iff (hrun : c.Attaches calls d) (h : c.Trails s c.base) :
    d.InStep ↔ MadeGood calls := by
  induction hrun with
  | nil => exact iff_of_true ⟨s, h.storage, h.sidecar⟩ madeGood_nil
  | @snoc calls d a hrun hfinds ih =>
    obtain ⟨s', kept, htrails⟩ := hrun.trails h
    rw [(htrails.attach hfinds).1.inStep_iff, madeGood_snoc_iff, ih]

/-- The history is what was there, with the accepted configurations behind the last one collapsed.
-/
theorem Attaches.history (hrun : c.Attaches calls d) (h : c.Trails s kept) :
    d.base.history = c.base.history.dropLast ++
      (c.base.history.getLast?.toList ++ (calls.map (·.snapshot)).filter c.accepts).destutter
        ConfigSnapshot.Differs := by
  induction hrun with
  | nil =>
    obtain hnil | ⟨earlier, last, hlast⟩ := List.eq_nil_or_concat c.base.history
    · simp [hnil]
    · simp [hlast]
  | @snoc calls d a hrun hfinds ih =>
    obtain ⟨s', kept', htrails⟩ := hrun.trails h
    have hattached := (htrails.attach hfinds).1
    rw [List.map_append, List.map_singleton, List.filter_append]
    cases hcheck : c.accepts a.snapshot with
    | false =>
      rw [hattached.base_of_refused (by rwa [accepts_congr hrun.log]), ih,
        List.filter_cons_of_neg (by simp [hcheck]), List.filter_nil, List.append_nil]
    | true =>
      rw [hattached.base_of_accepted (by rwa [accepts_congr hrun.log]),
        List.filter_cons_of_pos hcheck, List.filter_nil, ← List.append_assoc]
      refine BaseState.history_record_collapsed a.snapshot (fun hnil => ?_) ih
      have hlast := Option.toList_eq_nil_iff.mp (List.append_eq_nil_iff.mp hnil).1
      rw [List.getLast?_eq_none_iff.mp hlast, List.dropLast_nil]

end

/-! ## In step -/

theorem trails_of_create {config : AgentConfig} {compliance : ComplianceSettings} {origin : Origin}
    (hcan : s.CanHold ⟨origin.now, config⟩)
    (h : (create config compliance origin s).result = .ok c) : ∃ s', c.Trails s' c.base := by
  obtain ⟨written, hwrite, rfl⟩ := create_eq_ok h
  have hadmits : s.Admits (.start origin.id config origin.now) := by
    intro x hx
    rwa [List.mem_singleton.mp hx]
  exact ⟨written, rfl, Storage.readBase_of_writeBase hadmits hwrite, List.prefix_rfl,
    hadmits.writeBase hwrite⟩

theorem trails_of_restore {config : AgentConfig} {compliance : ComplianceSettings}
    {origin : Origin} (h : (restore config compliance origin s).result = .ok c)
    (hadmits : s.Admits c.base) : ∃ s', c.Trails s' c.base := by
  obtain ⟨events, found, log, b, written, -, -, -, hwrite, -, rfl⟩ := restore_eq_ok h
  exact ⟨written, rfl, Storage.readBase_of_writeBase hadmits hwrite, List.prefix_rfl,
    hadmits.writeBase hwrite⟩

/-- **Attaching configurations**: after any run of calls the sidecar is the state of the
conversation exactly if every failed write has been made good, and the history is made of the
accepted configurations whether or not they were written. A call changes the state if it records
another configuration, and is in step afterwards unless its write fails. -/
theorem attaches_in_step {calls : List Call} (h : c.Trails s c.base) (hrun : c.Attaches calls d) :
    (d.InStep ↔ MadeGood calls) ∧
    d.base.history = c.base.history.dropLast ++
      (c.base.history.getLast?.toList ++ (calls.map (·.snapshot)).filter c.accepts).destutter
        ConfigSnapshot.Differs ∧
    ∀ a, d.Finds a → d.Attached (a.perform d).state a.snapshot (a.perform d).result := by
  refine ⟨hrun.inStep_iff h, hrun.history h, fun a hfinds => ?_⟩
  obtain ⟨s', kept, htrails⟩ := hrun.trails h
  exact (htrails.attach hfinds).1

end Conversation

/-! ## A write that fails -/

namespace Sample

/-- A backend that holds the first sidecar, and takes another one or not. -/
def holding (baseFault : Option String) : Storage.Backend where
  label := "unsteady"
  kept := { base := some base.toJson }
  baseFault := baseFault

def begunUnsteadily : Conversation :=
  .assemble origin.id base .empty {} (some (.backend (holding none)))

def recordOf (model : String) : ConfigSnapshot := ⟨origin.now, configured model⟩

/-- A call that attaches a model and finds the first sidecar, and another one refused or not. -/
def attaching (model : String) (baseFault : Option String) : Attachment :=
  ⟨configured model, origin.now, .backend (holding baseFault)⟩

/-- A call fails, and is made again once the sidecar can be written. -/
def failedCall : Outcome Bool := (attaching "large" (some "full")).perform begunUnsteadily
def repeatedCall : Outcome Bool := (attaching "large" none).perform failedCall.state

theorem storable_recordOf (model : String) : (recordOf model).Storable where
  time := show origin.now.FourDigitYear from ⟨by decide, by decide, by decide⟩
  config :=
    { condenser := show ({} : CondenserSettings).Fits64 from ⟨by decide, by decide, nofun⟩
      parameters := fun _ ht => absurd ht List.not_mem_nil }

theorem readBase_base {b : Storage.Backend} (h : b.kept.base = some base.toJson) :
    Conversation.readBase (.backend b) = .ok (some base) := by
  have hdecode : BaseState.decoder.ofJson base.toJson = .ok base := by with_unfolding_all rfl
  rw [Conversation.readBase, Storage.readBase, h]
  show ((BaseState.decoder.ofJson base.toJson).mapError ConversationError.baseState).map some = _
  rw [hdecode]
  rfl

theorem trails_begunUnsteadily :
    begunUnsteadily.Trails (.backend (holding none)) begunUnsteadily.base where
  storage := rfl
  sidecar := readBase_base rfl
  behind := List.prefix_rfl
  admits := by
    intro x hx
    rw [List.mem_singleton.mp hx]
    exact storable_recordOf "small"

theorem finds_attaching {c : Conversation} {b : Storage.Backend}
    (hstorage : c.storage = some (.backend b)) (h : b.kept.base = some base.toJson)
    (model : String) (baseFault : Option String) : c.Finds (attaching model baseFault) :=
  ⟨.backend b, hstorage, .backend h.symm, storable_recordOf model⟩

end Sample

namespace Conversation

open Sample (attaching begunUnsteadily failedCall recordOf repeatedCall)

/-- A write that failed is made good by going back to the configuration before. -/
theorem attaches_in_step_back :
    ∃ calls d, begunUnsteadily.Attaches calls d ∧
      calls.map (·.result) = [.error (.store (.refused (.failed "full"))), .ok true] ∧
      d.InStep ∧ d.base.history = [recordOf "small", recordOf "large", recordOf "small"] := by
  have hfirst := Sample.finds_attaching (c := begunUnsteadily) rfl rfl "large" (some "full")
  have hsecond := Sample.finds_attaching
    (c := ((attaching "large" (some "full")).perform begunUnsteadily).state) rfl rfl "small" none
  have hrun := (Attaches.nil.snoc hfirst).snoc hsecond
  obtain ⟨hstep, hhistory, -⟩ := attaches_in_step Sample.trails_begunUnsteadily hrun
  refine ⟨_, _, hrun, rfl, hstep.mpr ?_, hhistory.trans rfl⟩
  exact madeGood_snoc_iff.mpr (.inl rfl)

/-- A call that fails changes the state, and the same call made again is content with a sidecar
without the configuration. -/
theorem retry_leaves_sidecar :
    begunUnsteadily.InStep ∧ begunUnsteadily.Finds (attaching "large" (some "full")) ∧
      failedCall.result = .error (.store (.refused (.failed "full"))) ∧
      failedCall.state.base.history = [recordOf "small", recordOf "large"] ∧
      failedCall.state.Finds (attaching "large" none) ∧
      repeatedCall.result = .ok false ∧ ¬ repeatedCall.state.InStep := by
  have hread := Sample.readBase_base (b := Sample.holding none) rfl
  refine ⟨⟨_, rfl, hread⟩, Sample.finds_attaching rfl rfl "large" (some "full"), rfl, rfl,
    Sample.finds_attaching rfl rfl "large" none, rfl, ?_⟩
  rw [InStep.iff_of_sidecar rfl hread]
  intro heq
  cases congrArg (·.history.length) heq

end Conversation
end AgentMemory
