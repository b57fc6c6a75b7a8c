import AgentMemory.Proofs.Storage.Contents
import Mathlib.Data.List.Nodup

/-!
# Loading a directory

A directory **lists** the event files that it holds in the order of their numbers, when no number
is there twice. Loading reads them from the first one on, each at the position that is due. It
succeeds only if the numbers are those from zero on, so a file written past a gap makes the whole
directory unreadable.
-/

namespace AgentMemory.Storage

/-! ## The order of event files -/

namespace EventFile

theorem le_of_lt {a b : EventFile} (h : a.sequence < b.sequence) : a.le b = true := by
  simp [EventFile.le, h]

theorem sequence_le {a b : EventFile} (h : a.le b = true) : a.sequence ≤ b.sequence := by
  simp only [EventFile.le, Bool.or_eq_true, Bool.and_eq_true, decide_eq_true_eq] at h
  omega

theorem le_total (a b : EventFile) : (a.le b || b.le a) = true := by
  rcases Nat.lt_trichotomy a.sequence b.sequence with h | h | h
  · rw [le_of_lt h, Bool.true_or]
  · by_cases hname : b.name < a.name
    · have hback : ¬ a.name < b.name := fun h => String.lt_irrefl _ (String.lt_trans hname h)
      simp [EventFile.le, h, hback]
    · simp [EventFile.le, h, hname]
  · rw [le_of_lt h, Bool.or_true]

theorem le_trans (a b c : EventFile) (hab : a.le b = true) (hbc : b.le c = true) :
    a.le c = true := by
  simp only [EventFile.le, Bool.or_eq_true, Bool.and_eq_true, decide_eq_true_eq,
    Bool.not_eq_true', decide_eq_false_iff_not, String.not_lt] at hab hbc ⊢
  rcases hab with hab | ⟨hab, hnames⟩ <;> rcases hbc with hbc | ⟨hbc, hnames'⟩
  · exact .inl (by omega)
  · exact .inl (by omega)
  · exact .inl (by omega)
  · exact .inr ⟨by omega, String.le_trans hnames hnames'⟩

theorem mergeSort_eq {fs files : List EventFile} (hperm : fs.Perm files)
    (hgrow : files.Pairwise (·.sequence < ·.sequence)) : fs.mergeSort EventFile.le = files := by
  have hnodup : (files.map (·.sequence)).Nodup :=
    List.pairwise_map.mpr (hgrow.imp Nat.ne_of_lt)
  have hsorted := (List.mergeSort_perm fs EventFile.le).trans hperm
  refine List.Perm.eq_of_pairwise ?_ (List.pairwise_mergeSort le_trans le_total fs)
    (hgrow.imp le_of_lt) hsorted
  intro a b ha hb hab hba
  have hsequence : a.sequence = b.sequence :=
    Nat.le_antisymm (sequence_le hab) (sequence_le hba)
  exact List.inj_on_of_nodup_map hnodup (hsorted.mem_iff.mp ha) hb hsequence

end EventFile

namespace Directory

variable {d d' : Directory} {files : List EventFile} {events : List Event}

/-- The event files of a directory, in the order of their numbers, which all differ. -/
def Lists (d : Directory) (files : List EventFile) : Prop :=
  ∃ entries, d.entries = some entries ∧ (eventFiles entries).Perm files ∧
    files.Pairwise (·.sequence < ·.sequence)

theorem Lists.load (h : d.Lists files) : d.load = readFrom 0 files := by
  obtain ⟨entries, hentries, hperm, hgrow⟩ := h
  rw [Directory.load, hentries]
  show readFrom 0 ((eventFiles entries).mergeSort EventFile.le) = _
  rw [EventFile.mergeSort_eq hperm hgrow]

/-! ## Reading files -/

theorem readFrom_cons_eq_ok {position : Nat} {f : EventFile} :
    readFrom position (f :: files) = .ok events ↔
      ∃ e es, f.read position = .ok e ∧ readFrom (position + 1) files = .ok es ∧
        events = e :: es := by
  rw [readFrom]
  cases f.read position with
  | error error => simp [bind, Except.bind]
  | ok e =>
    cases readFrom (position + 1) files with
    | error error => simp [bind, Except.bind]
    | ok es => simp [bind, Except.bind, pure, Except.pure, eq_comm]

theorem sequence_of_read {position : Nat} {f : EventFile} {e : Event}
    (h : f.read position = .ok e) : f.sequence = position := by
  by_contra hne
  rw [EventFile.read, if_pos hne] at h
  cases h

theorem readFrom_append_eq_ok {position : Nat} {fs gs : List EventFile} :
    readFrom position (fs ++ gs) = .ok events ↔
      ∃ es₁ es₂, readFrom position fs = .ok es₁ ∧
        readFrom (position + fs.length) gs = .ok es₂ ∧ events = es₁ ++ es₂ := by
  induction fs generalizing position events with
  | nil => simp [readFrom, eq_comm]
  | cons f fs ih =>
    have hposition : position + (f :: fs).length = position + 1 + fs.length := by
      rw [List.length_cons]
      omega
    rw [List.cons_append, readFrom_cons_eq_ok, hposition]
    constructor
    · rintro ⟨e, es, he, hes, rfl⟩
      obtain ⟨es₁, es₂, h₁, h₂, rfl⟩ := ih.mp hes
      exact ⟨e :: es₁, es₂, readFrom_cons_eq_ok.mpr ⟨e, es₁, he, h₁, rfl⟩, h₂, rfl⟩
    · rintro ⟨es₁, es₂, h₁, h₂, rfl⟩
      obtain ⟨e, es, he, hes, rfl⟩ := readFrom_cons_eq_ok.mp h₁
      exact ⟨e, es ++ es₂, he, ih.mpr ⟨es, es₂, hes, h₂, rfl⟩, rfl⟩

theorem sequences_of_readFrom {position : Nat} (h : readFrom position files = .ok events) :
    files.map (·.sequence) = List.range' position events.length ∧
      files.length = events.length := by
  induction files generalizing position events with
  | nil =>
    cases h
    exact ⟨rfl, rfl⟩
  | cons f files ih =>
    obtain ⟨e, es, he, hes, rfl⟩ := readFrom_cons_eq_ok.mp h
    obtain ⟨hsequences, hlength⟩ := ih hes
    rw [List.map_cons, List.length_cons, List.length_cons, List.range'_succ, hsequences, hlength,
      sequence_of_read he]
    exact ⟨rfl, rfl⟩

theorem lists_of_load (h : d.load = .ok events) :
    ∃ files, d.Lists files ∧ readFrom 0 files = .ok events := by
  unfold Directory.load at h
  cases hentries : d.entries with
  | none =>
    rw [hentries] at h
    cases h
  | some entries =>
    rw [hentries] at h
    change readFrom 0 ((eventFiles entries).mergeSort EventFile.le) = .ok events at h
    refine ⟨_, ⟨entries, hentries, (List.mergeSort_perm _ _).symm, ?_⟩, h⟩
    have hgrow : (List.range' 0 events.length).Pairwise (· < ·) := List.pairwise_lt_range' 1
    rw [← (sequences_of_readFrom h).1, List.pairwise_map] at hgrow
    exact hgrow

/-! ## Writing files -/

theorem replace_of_new {name : String} {entries : List (String × File)}
    (hnew : ∀ entry ∈ entries, entry.1 ≠ name) (file : File) :
    replace name file entries = entries ++ [(name, file)] := by
  induction entries with
  | nil => rfl
  | cons entry entries ih =>
    rw [replace, if_neg (hnew entry List.mem_cons_self),
      ih fun other hother => hnew other (List.mem_cons_of_mem _ hother), List.cons_append]

theorem write_of_new {name : String} {entries : List (String × File)}
    (hentries : d.entries = some entries) (hout : leadsOut name = false)
    (hnew : ∀ entry ∈ entries, entry.1 ≠ name) (content : String) :
    d.write name content = .ok { d with entries := some (entries ++ [(name, .text content)]) } := by
  have hnone : entries.find? (·.1 = name) = none := by
    rw [List.find?_eq_none]
    intro entry hentry
    simpa using hnew entry hentry
  have hentry : d.entry? name ≠ some .folder := by
    simp [ entry?, hentries, hnone]
  rw [write, hentries]
  simp only [hout, Bool.false_eq_true, if_false, hentry, replace_of_new hnew]

theorem leadsOut_eventFileName (k : Nat) (id : EventId) :
    leadsOut (eventFileName k id) = decide ('/' ∈ id.text.toList) := by
  have hdigits : '/' ∉ (Text.padded 5 k).toList := fun h =>
    absurd (Text.isDigit_of_mem_padded h) (by decide)
  simp [leadsOut, eventFileName, String.toList_append, eventPrefix, eventSuffix, hdigits]

theorem eventFileName_ne_baseFileName {k : Nat} (hk : k < Text.wordSize) (id : EventId) :
    eventFileName k id ≠ baseFileName := by
  intro h
  have hsequence := sequence?_eventFileName hk id
  rw [h, sequence?_baseFileName] at hsequence
  cases hsequence

def fileAt (position : Nat) (e : Event) : EventFile :=
  ⟨position, eventFileName position e.id, .text e.toJson.pretty⟩

theorem read_fileAt_self (k : Nat) (e : Event) :
    (fileAt k e).read k = (Json.Decoder.ofText Event.decoder e.toJson.pretty).mapError
      fun fault => .corruptFile (eventFileName k e.id) (.undecodable fault) := by
  unfold EventFile.read
  exact if_neg (not_not_intro rfl)

theorem read_fileAt {position k : Nat} {e : Event} :
    (fileAt k e).read position = .ok e ↔ k = position ∧ e.Legible := by
  constructor
  · intro h
    obtain rfl : k = position := sequence_of_read h
    refine ⟨rfl, ?_⟩
    rw [read_fileAt_self] at h
    cases htext : Json.Decoder.ofText Event.decoder e.toJson.pretty with
    | error fault =>
      rw [htext] at h
      cases h
    | ok found =>
      rw [htext] at h
      rw [Event.Legible, htext, Except.ok.inj h]
  · rintro ⟨rfl, h⟩
    rw [read_fileAt_self, h]
    rfl

theorem Lists.persist (h : d.Lists files) {k : Nat} {e : Event} {s : Storage}
    (hk : k < Text.wordSize) (hpast : ∀ f ∈ files, f.sequence < k)
    (hwrite : (directory d).persist k e = .ok s) :
    ∃ d', s = directory d' ∧ d'.Lists (files ++ [fileAt k e]) := by
  obtain ⟨entries, hentries, hperm, hgrow⟩ := h
  obtain ⟨_, hfound, -, rfl⟩ := write_eq_ok hwrite
  cases hentries.symm.trans hfound
  have hnew : ∀ f ∈ eventFiles entries, f.sequence ≠ k := fun f hf =>
    Nat.ne_of_lt (hpast f (hperm.mem_iff.mp hf))
  refine ⟨_, rfl, _, rfl, ?_, ?_⟩
  · rw [eventFiles_replace_of_new (sequence?_eventFileName hk e.id) _ hnew]
    exact hperm.append_right _
  · refine List.pairwise_append.mpr ⟨hgrow, List.pairwise_singleton _ _, ?_⟩
    intro f hf g hg
    rw [List.mem_singleton.mp hg]
    exact hpast f hf

theorem Lists.writeBase (h : d.Lists files) {j : Json} {s : Storage}
    (hwrite : (directory d).writeBase j = .ok s) : ∃ d', s = directory d' ∧ d'.Lists files := by
  obtain ⟨entries, hentries, hperm, hgrow⟩ := h
  obtain ⟨_, hfound, -, rfl⟩ := write_eq_ok hwrite
  cases hentries.symm.trans hfound
  refine ⟨_, rfl, _, rfl, ?_, hgrow⟩
  rwa [eventFiles_replace_of_none sequence?_baseFileName]

end Directory

theorem load_writeBase {s s' : Storage} {events : List Event} {j : Json}
    (hload : s.load = .ok events) (hwrite : s.writeBase j = .ok s') : s'.load = .ok events := by
  cases s with
  | memory m =>
    cases hwrite
    exact hload
  | backend b =>
    obtain ⟨-, rfl⟩ := backend_writeBase_eq_ok hwrite
    exact hload
  | directory d =>
    obtain ⟨files, hlists, hread⟩ := Directory.lists_of_load hload
    obtain ⟨d', rfl, hlists'⟩ := hlists.writeBase hwrite
    exact hlists'.load.trans hread

end AgentMemory.Storage
