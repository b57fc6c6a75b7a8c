import AgentMemory.Proofs.Text
import AgentMemory.Storage.Basic

/-!
# What a storage holds

A storage **stores** the events that were written to it in turn, and **keeps** the sidecar that was
written last. Both are said of the contents of the storage, before any text is read. From events and
a sidecar whose texts can be read back, loading and reading give what was written.
-/

namespace AgentMemory

/-! ## Texts that can be read back -/

/-- The text of an event is read as that event. -/
def Event.Legible (e : Event) : Prop :=
  Json.Decoder.ofText Event.decoder e.toJson.pretty = .ok e

namespace Storage

/-! ## Names of files -/

@[simp] theorem dropFront_append (xs cs : List Char) : dropFront xs (xs ++ cs) = some cs := by
  induction xs with
  | nil => rfl
  | cons x xs ih => simpa [dropFront] using ih

@[simp] theorem dropBack_append (xs cs : List Char) : dropBack xs (cs ++ xs) = some cs := by
  simp [dropBack]

/-- **The position in a name**: the name of an event file is read as the position it is made of. -/
theorem sequence?_eventFileName {k : Nat} (hk : k < Text.wordSize) (id : EventId) :
    sequence? (eventFileName k id) = some k := by
  have hname : (eventFileName k id).toList = eventPrefix.toList ++
      (((Text.padded 5 k).toList ++ '-' :: id.text.toList) ++ eventSuffix.toList) := by
    simp [eventFileName, String.toList_append]
  have hdash : ∀ c ∈ (Text.padded 5 k).toList, (decide (c ≠ '-')) = true := by
    intro c hc
    have hdigit := Text.isDigit_of_mem_padded hc
    rw [decide_eq_true_eq]
    rintro rfl
    exact absurd hdigit (by decide)
  have hdigits : ((Text.padded 5 k).toList ++ '-' :: id.text.toList).takeWhile (· ≠ '-') =
      (Text.padded 5 k).toList := by
    rw [List.takeWhile_append_of_pos hdash]
    simp
  simp only [sequence?, hname, dropFront_append, dropBack_append, Option.bind_eq_bind,
    Option.bind_some]
  rw [if_pos (by simp), hdigits, String.ofList_toList, Text.unsigned?_padded hk]

theorem sequence?_baseFileName : sequence? baseFileName = none := by decide +kernel


/-! ## Entries of a directory -/

namespace Directory

def filesFrom (position : Nat) : List Event → List EventFile
  | [] => []
  | e :: es =>
    ⟨position, eventFileName position e.id, .text e.toJson.pretty⟩ :: filesFrom (position + 1) es

theorem filesFrom_append (position : Nat) (es fs : List Event) :
    filesFrom position (es ++ fs) =
      filesFrom position es ++ filesFrom (position + es.length) fs := by
  induction es generalizing position with
  | nil => rfl
  | cons e es ih =>
    rw [List.cons_append, filesFrom, ih, filesFrom, List.cons_append, List.length_cons,
      Nat.add_right_comm, Nat.add_assoc]

theorem le_of_mem_filesFrom {position : Nat} {es : List Event} {f : EventFile}
    (h : f ∈ filesFrom position es) :
    position ≤ f.sequence ∧ f.sequence < position + es.length := by
  induction es generalizing position with
  | nil => cases h
  | cons e es ih =>
    rw [List.length_cons]
    obtain rfl | h := List.mem_cons.mp h
    · exact ⟨Nat.le_refl position, show position < position + (es.length + 1) by omega⟩
    · have := ih h
      omega

theorem pairwise_filesFrom (position : Nat) (es : List Event) :
    (filesFrom position es).Pairwise fun a b => EventFile.le a b = true := by
  induction es generalizing position with
  | nil => exact .nil
  | cons e es ih =>
    refine List.Pairwise.cons (fun f hf => ?_) (ih (position + 1))
    have hlt : position < f.sequence := (le_of_mem_filesFrom hf).1
    simp [EventFile.le, hlt]

theorem readFrom_filesFrom {es : List Event} (h : ∀ e ∈ es, e.Legible) (position : Nat) :
    readFrom position (filesFrom position es) = .ok es := by
  induction es generalizing position with
  | nil => rfl
  | cons e es ih =>
    have he : EventFile.read position
        ⟨position, eventFileName position e.id, .text e.toJson.pretty⟩ = .ok e := by
      rw [EventFile.read, if_neg (not_not_intro rfl)]
      show (Json.Decoder.ofText Event.decoder e.toJson.pretty).mapError _ = _
      rw [show Json.Decoder.ofText Event.decoder e.toJson.pretty = .ok e from
        h e List.mem_cons_self]
      rfl
    rw [filesFrom, readFrom, he]
    show (readFrom (position + 1) (filesFrom (position + 1) es)).bind _ = _
    rw [ih fun x hx => h x (List.mem_cons_of_mem _ hx)]
    rfl

theorem eq_nil_of_readFrom {position : Nat} {files : List EventFile}
    (h : readFrom position files = .ok []) : files = [] := by
  cases files with
  | nil => rfl
  | cons f fs =>
    rw [readFrom] at h
    cases hread : f.read position <;> rw [hread] at h
    · cases h
    · cases hrest : readFrom (position + 1) fs <;> rw [hrest] at h <;> cases h

theorem eventFiles_replace_of_none {name : String} (h : sequence? name = none) (file : File)
    (entries : List (String × File)) :
    eventFiles (replace name file entries) = eventFiles entries := by
  induction entries with
  | nil => simp [replace, eventFiles, h]
  | cons entry rest ih =>
    obtain ⟨n, f⟩ := entry
    rw [replace]
    split
    · next hn => simp [eventFiles, hn, h]
    · rw [eventFiles, List.filterMap_cons, ← eventFiles, ih]
      rfl

theorem eventFiles_replace_of_new {name : String} {k : Nat} (h : sequence? name = some k)
    (file : File) {entries : List (String × File)}
    (hnew : ∀ f ∈ eventFiles entries, f.sequence ≠ k) :
    eventFiles (replace name file entries) = eventFiles entries ++ [⟨k, name, file⟩] := by
  induction entries with
  | nil => simp [replace, eventFiles, h]
  | cons entry rest ih =>
    obtain ⟨n, f⟩ := entry
    have hcons : eventFiles ((n, f) :: rest) =
        ((sequence? n).map fun k => (⟨k, n, f⟩ : EventFile)).toList ++ eventFiles rest := by
      cases hn : sequence? n <;> simp [eventFiles, hn]
    have hne : n ≠ name := by
      rintro rfl
      exact hnew ⟨k, n, f⟩ (by simp [hcons, h]) rfl
    rw [hcons] at hnew ⊢
    have hrest : ∀ x ∈ eventFiles rest, x.sequence ≠ k := fun x hx =>
      hnew x (List.mem_append_right _ hx)
    rw [replace, if_neg hne, List.append_assoc, ← ih hrest]
    cases hn : sequence? n <;> simp [eventFiles, hn]

theorem find?_replace_self (name : String) (file : File) (entries : List (String × File)) :
    (replace name file entries).find? (·.1 = name) = some (name, file) := by
  induction entries with
  | nil => simp [replace]
  | cons entry rest ih =>
    rw [replace]
    split
    · simp
    · next hn => simpa [hn] using ih

theorem find?_replace_of_ne {name other : String} (h : other ≠ name) (file : File)
    (entries : List (String × File)) :
    (replace name file entries).find? (·.1 = other) = entries.find? (·.1 = other) := by
  induction entries with
  | nil => simp [replace, h.symm]
  | cons entry rest ih =>
    obtain ⟨n, f⟩ := entry
    rw [replace]
    split
    · next hn => simp [hn, h.symm]
    · simp only [List.find?_cons, ih]

theorem replace_replace (name : String) (file : File) (entries : List (String × File)) :
    replace name file (replace name file entries) = replace name file entries := by
  induction entries with
  | nil => simp [replace]
  | cons entry rest ih =>
    obtain ⟨n, f⟩ := entry
    by_cases hn : n = name
    · simp [replace, hn]
    · simp [replace, hn, ih]

end Directory

/-! ## Writes -/

variable {s s' : Storage}

theorem write_eq_ok {d : Directory} {name content : String}
    (h : (d.write name content).map directory = .ok s') :
    ∃ entries, d.entries = some entries ∧ Directory.leadsOut name = false ∧ s' =
      directory { d with entries := some (Directory.replace name (.text content) entries) } := by
  unfold Directory.write at h
  split at h
  · cases h
  · next entries hentries =>
    split at h
    · cases h
    · next hout =>
      split at h
      · cases h
      · exact ⟨entries, hentries, by simpa using hout, (Except.ok.inj h).symm⟩

theorem memory_persist_eq_ok {m : Memory} {k : Nat} {e : Event}
    (h : (memory m).persist k e = .ok s') :
    k = m.events.length ∧ s' = memory { m with events := m.events ++ [e] } := by
  change (m.persist k e).map memory = .ok s' at h
  unfold Memory.persist at h
  split at h
  · cases h
  · next hk => exact ⟨not_not.mp hk, (Except.ok.inj h).symm⟩

theorem backend_persist_eq_ok {b : Backend} {k : Nat} {e : Event}
    (h : (backend b).persist k e = .ok s') :
    k = b.kept.events.length ∧
      s' = backend { b with kept := { b.kept with events := b.kept.events ++ [e] } } := by
  change (b.persist k e).map backend = .ok s' at h
  unfold Backend.persist at h
  split at h
  · cases h
  · unfold Memory.persist at h
    split at h
    · cases h
    · next hk => exact ⟨not_not.mp hk, (Except.ok.inj h).symm⟩

theorem backend_writeBase_eq_ok {b : Backend} {j : Json} (h : (backend b).writeBase j = .ok s') :
    b.baseFault = none ∧ s' = backend { b with kept := { b.kept with base := some j } } := by
  change (b.writeBase j).map backend = .ok s' at h
  unfold Backend.writeBase at h
  split at h
  · cases h
  · next hfault => exact ⟨hfault, (Except.ok.inj h).symm⟩

theorem write_ne_duplicateEvent {d : Directory} {name content : String} (id : EventId) :
    (d.write name content).map directory ≠ .error (.duplicateEvent id) := by
  intro h
  unfold Directory.write at h
  repeat' split at h
  all_goals cases h

theorem persist_ne_duplicateEvent (s : Storage) (k : Nat) (e : Event) (id : EventId) :
    s.persist k e ≠ .error (.duplicateEvent id) := by
  cases s with
  | memory m =>
    intro h
    change (m.persist k e).map memory = _ at h
    unfold Memory.persist at h
    split at h <;> cases h
  | directory d => exact write_ne_duplicateEvent id
  | backend b =>
    intro h
    change (b.persist k e).map backend = _ at h
    unfold Backend.persist Memory.persist at h
    repeat' split at h
    all_goals cases h

theorem writeBase_ne_duplicateEvent (s : Storage) (j : Json) (id : EventId) :
    s.writeBase j ≠ .error (.duplicateEvent id) := by
  cases s with
  | memory m => exact fun h => nomatch h
  | directory d => exact write_ne_duplicateEvent id
  | backend b =>
    intro h
    change (b.writeBase j).map backend = _ at h
    unfold Backend.writeBase at h
    split at h <;> cases h

/-! ## The events -/

/-- What the storage keeps in memory, if it is no directory. -/
def kept? : Storage → Option Memory
  | memory m => some m
  | backend b => some b.kept
  | directory _ => none

theorem load_of_kept? {m : Memory} (h : s.kept? = some m) : s.load = .ok m.events := by
  cases s with
  | memory => cases h; rfl
  | backend => cases h; rfl
  | directory => cases h

theorem kept?_of_persist {m : Memory} {k : Nat} {e : Event} (h : s.kept? = some m)
    (hwrite : s.persist k e = .ok s') : s'.kept? = some { m with events := m.events ++ [e] } := by
  cases s with
  | memory =>
    cases h
    obtain ⟨-, rfl⟩ := memory_persist_eq_ok hwrite
    rfl
  | backend =>
    cases h
    obtain ⟨-, rfl⟩ := backend_persist_eq_ok hwrite
    rfl
  | directory => cases h

/-- The storage stores some events, each at its position. -/
def Stores : Storage → List Event → Prop
  | memory m, events => m.events = events
  | backend b, events => b.kept.events = events
  | directory d, events =>
    ∃ entries, d.entries = some entries ∧
      Directory.eventFiles entries = Directory.filesFrom 0 events

variable {events : List Event}

theorem stores_nil_of_load (h : s.load = .ok []) : s.Stores [] := by
  cases s with
  | memory m => exact Except.ok.inj h
  | backend b => exact Except.ok.inj h
  | directory d =>
    change d.load = .ok [] at h
    unfold Directory.load at h
    cases hentries : d.entries with
    | none =>
      rw [hentries] at h
      cases h
    | some entries =>
      rw [hentries] at h
      have hsorted := Directory.eq_nil_of_readFrom h
      refine ⟨entries, hentries, ?_⟩
      rw [Directory.filesFrom, ← List.length_eq_zero_iff, ← List.length_mergeSort, hsorted]
      rfl

theorem Stores.load {d : Directory} (h : (directory d).Stores events)
    (hlegible : ∀ e ∈ events, e.Legible) : (directory d).load = .ok events := by
  obtain ⟨entries, hentries, hfiles⟩ := h
  show d.load = _
  unfold Directory.load
  rw [hentries]
  show Directory.readFrom 0 ((Directory.eventFiles entries).mergeSort EventFile.le) = _
  rw [hfiles, List.mergeSort_of_pairwise (Directory.pairwise_filesFrom 0 events),
    Directory.readFrom_filesFrom hlegible]

/-- The event at the next position is stored after the others. -/
theorem Stores.persist {e : Event} (h : s.Stores events) (hsize : events.length < Text.wordSize)
    (hwrite : s.persist events.length e = .ok s') : s'.Stores (events ++ [e]) := by
  cases s with
  | memory m =>
    obtain ⟨-, rfl⟩ := memory_persist_eq_ok hwrite
    exact congrArg (· ++ [e]) h
  | backend b =>
    obtain ⟨-, rfl⟩ := backend_persist_eq_ok hwrite
    exact congrArg (· ++ [e]) h
  | directory d =>
    obtain ⟨entries, hentries, hfiles⟩ := h
    obtain ⟨_, hfound, -, rfl⟩ := write_eq_ok hwrite
    cases hentries.symm.trans hfound
    refine ⟨_, rfl, ?_⟩
    have hnew : ∀ f ∈ Directory.eventFiles entries, f.sequence ≠ events.length := by
      intro f hf
      rw [hfiles] at hf
      have := (Directory.le_of_mem_filesFrom hf).2
      omega
    rw [Directory.eventFiles_replace_of_new (sequence?_eventFileName hsize e.id) _ hnew, hfiles,
      Directory.filesFrom_append, Nat.zero_add]
    rfl

theorem Stores.writeBase {j : Json} (h : s.Stores events) (hwrite : s.writeBase j = .ok s') :
    s'.Stores events := by
  cases s with
  | memory m =>
    cases hwrite
    exact h
  | backend b =>
    obtain ⟨-, rfl⟩ := backend_writeBase_eq_ok hwrite
    exact h
  | directory d =>
    obtain ⟨entries, hentries, hfiles⟩ := h
    obtain ⟨_, hfound, -, rfl⟩ := write_eq_ok hwrite
    cases hentries.symm.trans hfound
    exact ⟨_, rfl, by rw [Directory.eventFiles_replace_of_none sequence?_baseFileName, hfiles]⟩

/-! ## The sidecar -/

/-- The storage keeps a sidecar, and can take another one in its place. -/
def Keeps : Storage → Json → Prop
  | memory m, base => m.base = some base
  | backend b, base => b.kept.base = some base ∧ b.baseFault = none
  | directory d, base => d.entry? baseFileName = some (.text base.pretty)

variable {base : Json}

theorem keeps_of_writeBase (hwrite : s.writeBase base = .ok s') : s'.Keeps base := by
  cases s with
  | memory m =>
    cases hwrite
    exact rfl
  | backend b =>
    obtain ⟨hfault, rfl⟩ := backend_writeBase_eq_ok hwrite
    exact ⟨rfl, hfault⟩
  | directory d =>
    obtain ⟨entries, -, -, rfl⟩ := write_eq_ok hwrite
    show ((Directory.replace _ _ entries).find? _).map _ = _
    rw [Directory.find?_replace_self]
    rfl

theorem Keeps.persist {k : Nat} {e : Event} (h : s.Keeps base) (hk : k < Text.wordSize)
    (hwrite : s.persist k e = .ok s') : s'.Keeps base := by
  cases s with
  | memory m =>
    obtain ⟨-, rfl⟩ := memory_persist_eq_ok hwrite
    exact h
  | backend b =>
    obtain ⟨-, rfl⟩ := backend_persist_eq_ok hwrite
    exact h
  | directory d =>
    obtain ⟨entries, hentries, -, rfl⟩ := write_eq_ok hwrite
    have hne : baseFileName ≠ eventFileName k e.id := by
      intro hname
      have := sequence?_eventFileName hk e.id
      rw [← hname, sequence?_baseFileName] at this
      cases this
    change ((d.entries.getD []).find? _).map _ = _ at h
    rw [hentries] at h
    show ((Directory.replace _ _ entries).find? _).map _ = _
    rw [Directory.find?_replace_of_ne hne]
    exact h

theorem Keeps.exists_writeBase (h : s.Keeps base) (hstores : s.Stores events) (j : Json) :
    ∃ s', s.writeBase j = .ok s' := by
  cases s with
  | memory m => exact ⟨memory { m with base := some j }, rfl⟩
  | backend b =>
    refine ⟨backend { b with kept := { b.kept with base := some j } }, ?_⟩
    show (b.writeBase j).map backend = _
    rw [Backend.writeBase, h.2]
    rfl
  | directory d =>
    obtain ⟨entries, hentries, -⟩ := hstores
    change d.entry? baseFileName = _ at h
    have hout : Directory.leadsOut baseFileName = false := by decide +kernel
    have hfolder : d.entry? baseFileName ≠ some .folder := by
      rw [h]
      exact fun heq => nomatch heq
    refine ⟨directory { d with
      entries := some (Directory.replace baseFileName (.text j.pretty) entries) }, ?_⟩
    show (d.write baseFileName j.pretty).map directory = _
    rw [Directory.write, hentries]
    simp only [hout, hfolder, Bool.false_eq_true, if_false]
    rfl

theorem writeBase_again (hwrite : s.writeBase base = .ok s') : s'.writeBase base = .ok s' := by
  cases s with
  | memory m =>
    cases hwrite
    rfl
  | backend b =>
    obtain ⟨hfault, rfl⟩ := backend_writeBase_eq_ok hwrite
    show (Backend.writeBase _ base).map backend = _
    rw [Backend.writeBase, hfault]
    rfl
  | directory d =>
    have hkeeps := keeps_of_writeBase hwrite
    obtain ⟨entries, -, hout, rfl⟩ := write_eq_ok hwrite
    change Directory.entry? _ baseFileName = _ at hkeeps
    show (Directory.write _ baseFileName base.pretty).map directory = _
    rw [Directory.write]
    simp only [hout, hkeeps, Bool.false_eq_true, if_false, Directory.replace_replace]
    rfl

end Storage
end AgentMemory
