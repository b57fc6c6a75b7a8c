import AgentMemory.Proofs.Event.Codec
import AgentMemory.Proofs.Storage.Loading

/-!
# What a directory is loaded as

The event files of a directory have one order, by number and then by name, in whatever order they
are listed. Loading goes through them in this order up to the first position at which it fails: the
number that is due there is missing, the number found there has been before, or what the file holds
is no event.
-/

namespace AgentMemory.Storage

variable {files : List EventFile} {events : List Event} {f g : EventFile} {e : Event} {p : Nat}
  {error : StoreError}

/-! ## Reading one file -/

namespace EventFile

/-- What the file holds is the event. -/
def Holds (f : EventFile) (e : Event) : Prop :=
  ∃ content, f.file.read = .ok content ∧ Json.Decoder.ofText Event.decoder content = .ok e

/-- What the file holds is no event, and this is reported. -/
inductive Spoilt (f : EventFile) : StoreError → Prop
  | unreadable {fault : FileFault} (h : f.file.read = .error fault) : Spoilt f (.io fault)
  | undecodable {content : String} {fault : Json.Fault} (h : f.file.read = .ok content)
      (hfault : Json.Decoder.ofText Event.decoder content = .error fault) :
      Spoilt f (.corruptFile f.name (.undecodable fault))

theorem eq_of_le_of_le (hfg : f.le g = true) (hgf : g.le f = true) :
    f.sequence = g.sequence ∧ f.name = g.name := by
  have hsequence : f.sequence = g.sequence :=
    Nat.le_antisymm (sequence_le hfg) (sequence_le hgf)
  simp only [EventFile.le, hsequence, Nat.lt_irrefl, decide_false, Bool.false_or, decide_true,
    Bool.true_and, Bool.not_eq_true', decide_eq_false_iff_not, String.not_lt] at hfg hgf
  exact ⟨hsequence, String.le_antisymm hfg hgf⟩

theorem read_of_ne (h : f.sequence ≠ p) :
    f.read p = .error (.corruptFile f.name (.wrongSequence p f.sequence)) := by
  unfold EventFile.read
  exact if_pos h

theorem read_self (f : EventFile) : f.read f.sequence = (f.file.read.mapError .io).bind
    fun content => (Json.Decoder.ofText Event.decoder content).mapError
      fun fault => .corruptFile f.name (.undecodable fault) := by
  unfold EventFile.read
  exact if_neg (not_not_intro rfl)

theorem read_eq_ok_iff : f.read p = .ok e ↔ f.sequence = p ∧ f.Holds e := by
  by_cases hp : f.sequence = p
  · subst hp
    rw [read_self, EventFile.Holds, and_iff_right rfl]
    cases f.file.read with
    | error fault => simp [Except.mapError, Except.bind]
    | ok content =>
      simp only [Except.mapError, Except.bind, Except.ok.injEq, exists_eq_left']
      cases Json.Decoder.ofText Event.decoder content <;> simp
  · simp [read_of_ne hp, hp]

theorem read_self_eq_error_iff : f.read f.sequence = .error error ↔ f.Spoilt error := by
  constructor
  · intro h
    rw [read_self] at h
    cases hread : f.file.read with
    | error fault =>
      rw [hread] at h
      cases h
      exact .unreadable hread
    | ok content =>
      rw [hread] at h
      change (Json.Decoder.ofText Event.decoder content).mapError _ = _ at h
      cases htext : Json.Decoder.ofText Event.decoder content with
      | error fault =>
        rw [htext] at h
        cases h
        exact .undecodable hread htext
      | ok e =>
        rw [htext] at h
        cases h
  · rintro (h | ⟨h, hfault⟩)
    · rw [read_self, h]
      rfl
    · rw [read_self, h]
      show (Json.Decoder.ofText Event.decoder _).mapError _ = _
      rw [hfault]
      rfl

end EventFile

namespace Directory

variable {position : Nat}

/-! ## Reading files in turn -/

theorem readFrom_cons_eq_error :
    readFrom position (f :: files) = .error error ↔
      f.read position = .error error ∨
        (∃ e, f.read position = .ok e) ∧ readFrom (position + 1) files = .error error := by
  rw [readFrom]
  cases f.read position with
  | error failure => simp [bind, Except.bind]
  | ok e =>
    cases readFrom (position + 1) files with
    | error failure => simp [bind, Except.bind]
    | ok es => simp [bind, Except.bind, pure, Except.pure]

/-- Every file up to a position holds an event and has the number that is due. -/
def SoundBefore (files : List EventFile) (position n : Nat) : Prop :=
  ∀ i < n, ∃ f e, files[i]? = some f ∧ f.read (position + i) = .ok e

theorem soundBefore_zero : SoundBefore files position 0 := fun i hi => absurd hi (Nat.not_lt_zero i)

theorem soundBefore_succ {n : Nat} :
    SoundBefore (f :: files) position (n + 1) ↔
      (∃ e, f.read position = .ok e) ∧ SoundBefore files (position + 1) n := by
  constructor
  · intro h
    obtain ⟨f', e, hf, he⟩ := h 0 (Nat.succ_pos n)
    cases Option.some.inj hf
    refine ⟨⟨e, he⟩, fun i hi => ?_⟩
    rw [Nat.add_assoc, Nat.add_comm 1]
    exact h (i + 1) (Nat.succ_lt_succ hi)
  · rintro ⟨⟨e, he⟩, h⟩ i hi
    cases i with
    | zero => exact ⟨f, e, rfl, he⟩
    | succ i =>
      have hi' := h i (Nat.lt_of_succ_lt_succ hi)
      rwa [Nat.add_assoc, Nat.add_comm 1] at hi'

theorem readFrom_eq_error_iff : readFrom position files = .error error ↔
    ∃ i f, files[i]? = some f ∧ f.read (position + i) = .error error ∧
      SoundBefore files position i := by
  induction files generalizing position with
  | nil => simp [readFrom]
  | cons f files ih =>
    rw [readFrom_cons_eq_error, ih]
    constructor
    · rintro (h | ⟨he, i, g, hg, hread, hbefore⟩)
      · exact ⟨0, f, rfl, h, soundBefore_zero⟩
      · refine ⟨i + 1, g, hg, ?_, soundBefore_succ.mpr ⟨he, hbefore⟩⟩
        rwa [Nat.add_comm i, ← Nat.add_assoc]
    · rintro ⟨i, g, hg, hread, hbefore⟩
      cases i with
      | zero =>
        cases Option.some.inj hg
        exact .inl hread
      | succ i =>
        obtain ⟨he, hbefore⟩ := soundBefore_succ.mp hbefore
        refine .inr ⟨he, i, g, hg, ?_, hbefore⟩
        rwa [Nat.add_assoc, Nat.add_comm 1]

theorem readFrom_eq_ok_iff : readFrom position files = .ok events ↔
    files.length = events.length ∧
      ∀ (i : Nat) (f : EventFile), files[i]? = some f →
        ∃ e, events[i]? = some e ∧ f.read (position + i) = .ok e := by
  induction files generalizing position events with
  | nil => simp [readFrom, eq_comm]
  | cons f files ih =>
    rw [readFrom_cons_eq_ok]
    constructor
    · rintro ⟨e, es, he, hes, rfl⟩
      obtain ⟨hlength, hall⟩ := ih.mp hes
      refine ⟨congrArg (· + 1) hlength, fun i g hg => ?_⟩
      cases i with
      | zero =>
        cases Option.some.inj hg
        exact ⟨e, rfl, he⟩
      | succ i =>
        obtain ⟨e', he', hread⟩ := hall i g hg
        refine ⟨e', he', ?_⟩
        rwa [Nat.add_comm i, ← Nat.add_assoc]
    · rintro ⟨hlength, hall⟩
      obtain ⟨e, he, hread⟩ := hall 0 f rfl
      cases events with
      | nil => cases he
      | cons e' es =>
        cases Option.some.inj he
        refine ⟨e, es, hread, ih.mpr ⟨Nat.succ.inj hlength, fun i g hg => ?_⟩, rfl⟩
        obtain ⟨e', he', hread'⟩ := hall (i + 1) g hg
        refine ⟨e', he', ?_⟩
        rwa [Nat.add_assoc, Nat.add_comm 1]

/-! ## Files in order -/

/-- The event files in numeric order, those of one number by their names. -/
def listing (entries : List (String × File)) : List EventFile :=
  (eventFiles entries).mergeSort EventFile.le

variable {entries entries' : List (String × File)}

theorem load_eq_readFrom (path : String) (entries : List (String × File)) :
    (Directory.mk path (some entries)).load = readFrom 0 (listing entries) := rfl

theorem listing_perm (entries : List (String × File)) :
    (listing entries).Perm (eventFiles entries) := List.mergeSort_perm _ _

theorem listing_sorted (entries : List (String × File)) :
    (listing entries).Pairwise fun a b => a.le b = true :=
  List.pairwise_mergeSort EventFile.le_trans EventFile.le_total _

theorem mem_eventFiles : f ∈ eventFiles entries ↔
    (f.name, f.file) ∈ entries ∧ sequence? f.name = some f.sequence := by
  simp only [eventFiles, List.mem_filterMap, Option.map_eq_some_iff]
  constructor
  · rintro ⟨⟨name, file⟩, hmem, k, hk, rfl⟩
    exact ⟨hmem, hk⟩
  · rintro ⟨hmem, hk⟩
    exact ⟨(f.name, f.file), hmem, f.sequence, hk, rfl⟩

theorem file_eq (hnames : (entries.map (·.1)).Nodup) {name : String} {a b : File}
    (ha : (name, a) ∈ entries) (hb : (name, b) ∈ entries) : a = b :=
  congrArg Prod.snd (List.inj_on_of_nodup_map hnames ha hb rfl)

theorem nodup_eventFiles (hnames : (entries.map (·.1)).Nodup) : (eventFiles entries).Nodup := by
  refine (List.Nodup.of_map _ hnames).filterMap ?_
  rintro ⟨name, a⟩ ⟨name', b⟩ f ha hb
  simp only [Option.mem_def, Option.map_eq_some_iff] at ha hb
  obtain ⟨k, -, rfl⟩ := ha
  obtain ⟨k', -, heq⟩ := hb
  cases heq
  rfl

/-- Two directories have the same event files, whatever else they hold. -/
def SameEventFiles (entries entries' : List (String × File)) : Prop :=
  ∀ name file, (sequence? name).isSome → ((name, file) ∈ entries ↔ (name, file) ∈ entries')

theorem listing_congr (hnames : (entries.map (·.1)).Nodup) (hnames' : (entries'.map (·.1)).Nodup)
    (h : SameEventFiles entries entries') : listing entries = listing entries' := by
  have hperm : (eventFiles entries).Perm (eventFiles entries') := by
    rw [List.perm_ext_iff_of_nodup (nodup_eventFiles hnames) (nodup_eventFiles hnames')]
    intro f
    rw [mem_eventFiles, mem_eventFiles]
    exact and_congr_left fun hk => h f.name f.file (by rw [hk]; rfl)
  have hsame := (listing_perm entries).trans (hperm.trans (listing_perm entries').symm)
  refine List.Perm.eq_of_pairwise ?_ (listing_sorted entries) (listing_sorted entries') hsame
  intro a b ha hb hab hba
  have hb' := hsame.mem_iff.mpr hb
  obtain ⟨ha, -⟩ := mem_eventFiles.mp ((listing_perm entries).mem_iff.mp ha)
  obtain ⟨hb, -⟩ := mem_eventFiles.mp ((listing_perm entries).mem_iff.mp hb')
  obtain ⟨hsequence, hname⟩ := EventFile.eq_of_le_of_le hab hba
  rw [← hname] at hb
  obtain ⟨k, name, file⟩ := a
  obtain ⟨k', name', file'⟩ := b
  cases hsequence
  cases hname
  exact congrArg (EventFile.mk k name) (file_eq hnames ha hb)

theorem perm_range_iff (entries : List (String × File)) (n : Nat) :
    ((eventFiles entries).map (·.sequence)).Perm (List.range n) ↔
      (listing entries).map (·.sequence) = List.range n := by
  have hperm := (listing_perm entries).map (·.sequence)
  constructor
  · intro h
    have hsorted : ((listing entries).map (·.sequence)).Pairwise (· ≤ ·) :=
      List.pairwise_map.mpr ((listing_sorted entries).imp EventFile.sequence_le)
    exact (hperm.trans h).eq_of_pairwise (fun _ _ _ _ => Nat.le_antisymm) hsorted
      List.pairwise_le_range
  · intro h
    rw [← h]
    exact hperm.symm

theorem sequence_eq_of_range {i n : Nat} (h : files.map (·.sequence) = List.range n)
    (hf : files[i]? = some f) : f.sequence = i := by
  have hi : (files.map (·.sequence))[i]? = some f.sequence := by
    rw [List.getElem?_map, hf]
    rfl
  rw [h] at hi
  obtain ⟨hlt, heq⟩ := List.getElem?_eq_some_iff.mp hi
  rw [← heq, List.getElem_range]

/-! ## Where loading fails -/

/-- What is wrong at a position of the files in numeric order, and how it is reported. -/
inductive FailsAt (files : List EventFile) (p : Nat) : StoreError → Prop
  /-- No file has the number that is due. -/
  | missing {f : EventFile} (hf : files[p]? = some f) (hnone : ∀ g ∈ files, g.sequence ≠ p)
      (hlater : p < f.sequence) :
      FailsAt files p (.corruptFile f.name (.wrongSequence p f.sequence))
  /-- A file before it has the same number. -/
  | repeated {f g : EventFile} {q : Nat} (hf : files[p]? = some f) (hg : files[q]? = some g)
      (hq : q < p) (hsame : g.sequence = f.sequence) :
      FailsAt files p (.corruptFile f.name (.wrongSequence p f.sequence))
  | spoilt {f : EventFile} {error : StoreError} (hf : files[p]? = some f) (hdue : f.sequence = p)
      (h : f.Spoilt error) : FailsAt files p error

theorem failsAt_iff (hsorted : files.Pairwise fun a b => a.sequence ≤ b.sequence)
    (hbefore : SoundBefore files 0 p) :
    FailsAt files p error ↔ ∃ f, files[p]? = some f ∧ f.read p = .error error := by
  have hdue : ∀ q < p, ∀ g, files[q]? = some g → g.sequence = q := by
    intro q hq g hg
    obtain ⟨g', e, hg', he⟩ := hbefore q hq
    cases Option.some.inj (hg.symm.trans hg')
    exact (sequence_of_read he).trans (Nat.zero_add q)
  constructor
  · rintro (⟨hf, -, hlater⟩ | ⟨hf, hg, hq, hsame⟩ | ⟨hf, rfl, h⟩)
    · exact ⟨_, hf, EventFile.read_of_ne (Nat.ne_of_gt hlater)⟩
    · refine ⟨_, hf, EventFile.read_of_ne ?_⟩
      rw [← hsame, hdue _ hq _ hg]
      exact Nat.ne_of_lt hq
    · exact ⟨_, hf, EventFile.read_self_eq_error_iff.mpr h⟩
  · rintro ⟨f, hf, h⟩
    have hlt : p < files.length := (List.getElem?_eq_some_iff.mp hf).1
    rcases Nat.lt_trichotomy f.sequence p with hless | rfl | hmore
    · rw [EventFile.read_of_ne (Nat.ne_of_lt hless)] at h
      cases h
      have hlt' : f.sequence < files.length := Nat.lt_trans hless hlt
      exact .repeated hf (List.getElem?_eq_getElem hlt') hless
        (hdue _ hless _ (List.getElem?_eq_getElem hlt'))
    · exact .spoilt hf rfl (EventFile.read_self_eq_error_iff.mp h)
    · rw [EventFile.read_of_ne (Nat.ne_of_gt hmore)] at h
      cases h
      refine .missing hf ?_ hmore
      intro g hg
      obtain ⟨q, hq⟩ := List.getElem?_of_mem hg
      rcases Nat.lt_or_ge q p with hqp | hpq
      · rw [hdue q hqp g hq]
        exact Nat.ne_of_lt hqp
      · have hle : f.sequence ≤ g.sequence := by
          obtain rfl | hpq := Nat.eq_or_lt_of_le hpq
          · cases Option.some.inj (hf.symm.trans hq)
            exact Nat.le_refl _
          · obtain ⟨hp', rfl⟩ := List.getElem?_eq_some_iff.mp hf
            obtain ⟨hq', rfl⟩ := List.getElem?_eq_some_iff.mp hq
            exact List.pairwise_iff_getElem.mp hsorted p q hp' hq' hpq
        omega

/-- Up to a position nothing is wrong exactly if every file before it can be read where it
stands. -/
theorem soundBefore_iff (hsorted : files.Pairwise fun a b => a.sequence ≤ b.sequence)
    (hp : p ≤ files.length) :
    SoundBefore files 0 p ↔ ∀ q < p, ∀ failure, ¬ FailsAt files q failure := by
  constructor
  · intro h q hq failure hfails
    have hbefore : SoundBefore files 0 q := fun i hi => h i (Nat.lt_trans hi hq)
    obtain ⟨f, hf, hread⟩ := (failsAt_iff hsorted hbefore).mp hfails
    obtain ⟨g, e, hg, he⟩ := h q hq
    cases Option.some.inj (hf.symm.trans hg)
    rw [Nat.zero_add, hread] at he
    cases he
  · intro h
    induction p with
    | zero => exact soundBefore_zero
    | succ p ih =>
      have hbefore := ih (Nat.le_of_succ_le hp) fun q hq => h q (Nat.lt_succ_of_lt hq)
      intro i hi
      obtain hi | rfl := Nat.lt_succ_iff_lt_or_eq.mp hi
      · exact hbefore i hi
      · have hf : files[i]? = some files[i] := List.getElem?_eq_getElem hp
        cases hread : files[i].read i with
        | error failure =>
          exact absurd ((failsAt_iff hsorted hbefore).mpr ⟨_, hf, hread⟩)
            (h i (Nat.lt_succ_self i) failure)
        | ok e => exact ⟨_, e, hf, by rw [Nat.zero_add, hread]⟩

theorem load_eq_error_iff (path : String) (entries : List (String × File)) :
    (Directory.mk path (some entries)).load = .error error ↔
      ∃ p, FailsAt (listing entries) p error ∧
        ∀ q < p, ∀ failure, ¬ FailsAt (listing entries) q failure := by
  have hsorted : (listing entries).Pairwise fun a b => a.sequence ≤ b.sequence :=
    (listing_sorted entries).imp EventFile.sequence_le
  rw [load_eq_readFrom, readFrom_eq_error_iff]
  constructor
  · rintro ⟨p, f, hf, hread, hbefore⟩
    rw [Nat.zero_add] at hread
    have hp : p < (listing entries).length := (List.getElem?_eq_some_iff.mp hf).1
    exact ⟨p, (failsAt_iff hsorted hbefore).mpr ⟨f, hf, hread⟩,
      (soundBefore_iff hsorted (Nat.le_of_lt hp)).mp hbefore⟩
  · rintro ⟨p, hfails, hbefore⟩
    have hp : p < (listing entries).length := by
      cases hfails with
      | missing hf | repeated hf | spoilt hf => exact (List.getElem?_eq_some_iff.mp hf).1
    have hbefore := (soundBefore_iff hsorted (Nat.le_of_lt hp)).mpr hbefore
    obtain ⟨f, hf, hread⟩ := (failsAt_iff hsorted hbefore).mp hfails
    exact ⟨p, f, hf, by rwa [Nat.zero_add], hbefore⟩

/-! ## What loading gives -/

theorem load_eq_ok_iff (path : String) (entries : List (String × File)) :
    (Directory.mk path (some entries)).load = .ok events ↔
      ((eventFiles entries).map (·.sequence)).Perm (List.range events.length) ∧
        ∀ f ∈ eventFiles entries, ∃ e, f.Holds e ∧ events[f.sequence]? = some e := by
  rw [load_eq_readFrom, perm_range_iff]
  constructor
  · intro h
    obtain ⟨hsequences, -⟩ := sequences_of_readFrom h
    refine ⟨by rw [hsequences, List.range_eq_range'], fun f hf => ?_⟩
    obtain ⟨i, hi⟩ := List.getElem?_of_mem ((listing_perm entries).mem_iff.mpr hf)
    obtain ⟨e, he, hread⟩ := (readFrom_eq_ok_iff.mp h).2 i f hi
    obtain ⟨hdue, hholds⟩ := EventFile.read_eq_ok_iff.mp hread
    rw [Nat.zero_add] at hdue
    exact ⟨e, hholds, hdue ▸ he⟩
  · rintro ⟨hsequences, hall⟩
    refine readFrom_eq_ok_iff.mpr ⟨?_, fun i f hf => ?_⟩
    · simpa using congrArg List.length hsequences
    · have hdue : f.sequence = i := sequence_eq_of_range hsequences hf
      obtain ⟨e, hholds, he⟩ := hall f
        ((listing_perm entries).mem_iff.mp (List.mem_of_getElem? hf))
      exact ⟨e, hdue ▸ he, EventFile.read_eq_ok_iff.mpr ⟨by rw [hdue, Nat.zero_add], hholds⟩⟩

theorem exists_load_iff (path : String) (entries : List (String × File)) :
    (∃ events, (Directory.mk path (some entries)).load = .ok events) ↔
      (∃ n, ((eventFiles entries).map (·.sequence)).Perm (List.range n)) ∧
        ∀ f ∈ eventFiles entries, ∃ e, f.Holds e := by
  constructor
  · rintro ⟨events, h⟩
    obtain ⟨hperm, hall⟩ := (load_eq_ok_iff path entries).mp h
    exact ⟨⟨_, hperm⟩, fun f hf => (hall f hf).imp fun _ => And.left⟩
  · rintro ⟨⟨n, hperm⟩, hall⟩
    rw [perm_range_iff] at hperm
    cases hload : (Directory.mk path (some entries)).load with
    | ok events => exact ⟨events, rfl⟩
    | error error =>
      -- the file that cannot be read has the number that is due, and holds an event
      rw [load_eq_readFrom, readFrom_eq_error_iff] at hload
      obtain ⟨i, f, hf, hread, -⟩ := hload
      obtain ⟨e, hholds⟩ := hall f ((listing_perm entries).mem_iff.mp (List.mem_of_getElem? hf))
      have hdue : f.sequence = 0 + i := by
        rw [Nat.zero_add]
        exact sequence_eq_of_range hperm hf
      rw [EventFile.read_eq_ok_iff.mpr ⟨hdue, hholds⟩] at hread
      cases hread

/-- **Loading is exact**: it gives the events of the files in numeric order if their numbers are
those from zero on, each once, and every file holds an event. Otherwise it fails at the first
position of that order at which something is wrong. What else the directory holds, and the order in
which it is listed, make no difference. The name of an event file tells the position it is made
of. -/
theorem load_exact (path : String) (entries : List (String × File)) :
    (∀ path' entries', (entries.map (·.1)).Nodup → (entries'.map (·.1)).Nodup →
      SameEventFiles entries entries' →
        (Directory.mk path' (some entries')).load = (Directory.mk path (some entries)).load) ∧
    ((∃ events, (Directory.mk path (some entries)).load = .ok events) ↔
      (∃ n, ((eventFiles entries).map (·.sequence)).Perm (List.range n)) ∧
        ∀ f ∈ eventFiles entries, ∃ e, f.Holds e) ∧
    (∀ events, (Directory.mk path (some entries)).load = .ok events ↔
      ((eventFiles entries).map (·.sequence)).Perm (List.range events.length) ∧
        ∀ f ∈ eventFiles entries, ∃ e, f.Holds e ∧ events[f.sequence]? = some e) ∧
    (∀ error, (Directory.mk path (some entries)).load = .error error ↔
      ∃ p, FailsAt (listing entries) p error ∧
        ∀ q < p, ∀ failure, ¬ FailsAt (listing entries) q failure) ∧
    ∀ k id, k < Text.wordSize → sequence? (eventFileName k id) = some k := by
  refine ⟨?_, exists_load_iff path entries, fun _ => load_eq_ok_iff path entries,
    fun _ => load_eq_error_iff path entries, fun k id hk => sequence?_eventFileName hk id⟩
  intro path' entries' hnames hnames' hsame
  rw [load_eq_readFrom, load_eq_readFrom, listing_congr hnames hnames' hsame]

namespace Sample

def call : File := .text Event.quotedCall.toJson.pretty

/-- A number is there in two spellings. -/
def ordered : List (String × File) :=
  [("event-0-a.json", call), ("event-+1-c.json", call), ("event-00001-b.json", call)]

/-- The same files in another order, and a stray one. -/
def scrambled : List (String × File) :=
  [("notes.txt", .binary), ("event-00001-b.json", call), ("event-+1-c.json", call),
    ("event-0-a.json", call)]

def first : EventFile := ⟨0, "event-0-a.json", call⟩
def plain : EventFile := ⟨1, "event-00001-b.json", call⟩
def signed : EventFile := ⟨1, "event-+1-c.json", call⟩

end Sample

open Storage.Directory.Sample

/-- The number is refused where it comes again. -/
theorem load_exact_scrambled :
    (Directory.mk "talk" (some scrambled)).load = (Directory.mk "copy" (some ordered)).load ∧
      (Directory.mk "talk" (some scrambled)).load =
        .error (.corruptFile "event-00001-b.json" (.wrongSequence 2 1)) := by
  have hstray : sequence? "notes.txt" = none := by decide +kernel
  have ha : sequence? "event-0-a.json" = some 0 := by decide +kernel
  have hb : sequence? "event-00001-b.json" = some 1 := by decide +kernel
  have hc : sequence? "event-+1-c.json" = some 1 := by decide +kernel
  have hsame : SameEventFiles ordered scrambled := by
    intro name file hk
    have hname : name ≠ "notes.txt" := by
      rintro rfl
      rw [hstray] at hk
      cases hk
    simp only [ordered, scrambled, List.mem_cons, Prod.mk.injEq, hname, List.not_mem_nil]
    tauto
  have hload : (Directory.mk "talk" (some scrambled)).load =
      (Directory.mk "copy" (some ordered)).load :=
    (load_exact "copy" ordered).1 "talk" scrambled (by decide) (by decide) hsame
  have hlisting : listing ordered = [first, signed, plain] := by
    have hfiles : eventFiles ordered = [first, signed, plain] := by
      simp [ordered, eventFiles, ha, hb, hc, first, plain, signed]
    have hle : signed.le plain = true := by
      show (decide (1 < 1) ||
        (decide (1 = 1) && !decide ("event-00001-b.json" < "event-+1-c.json"))) = true
      decide +kernel
    rw [listing, hfiles]
    refine List.mergeSort_of_pairwise (.cons ?_ (.cons ?_ (List.pairwise_singleton _ plain)))
    · intro f hf
      obtain rfl | rfl := List.mem_pair.mp hf <;> rfl
    · intro f hf
      rwa [List.mem_singleton.mp hf]
  have hread : ∀ f : EventFile, f.file = call → ∃ e, f.read f.sequence = .ok e := fun f hf =>
    ⟨_, EventFile.read_eq_ok_iff.mpr ⟨rfl, _, by rw [hf]; rfl,
      (Event.ofText_compact_and_pretty Event.storable_quotedCall).2⟩⟩
  have hsound : SoundBefore [first, signed, plain] 0 2 := soundBefore_succ.mpr
    ⟨hread first rfl, soundBefore_succ.mpr ⟨hread signed rfl, soundBefore_zero⟩⟩
  have hgrow : [first, signed, plain].Pairwise fun f g => f.sequence ≤ g.sequence := by
    simp [first, plain, signed]
  refine ⟨hload, hload.trans (((load_exact "copy" ordered).2.2.2.1 _).mpr ⟨2, ?_⟩)⟩
  rw [hlisting]
  have hfails : FailsAt [first, signed, plain] 2
      (.corruptFile plain.name (.wrongSequence 2 plain.sequence)) :=
    .repeated rfl (show [first, signed, plain][1]? = some signed from rfl) Nat.one_lt_two rfl
  exact ⟨hfails,
    (soundBefore_iff hgrow (by decide)).mp hsound⟩

end Directory
end AgentMemory.Storage
