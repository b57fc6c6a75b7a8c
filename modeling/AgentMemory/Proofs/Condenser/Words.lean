import AgentMemory.Proofs.Condenser.Bounds

/-!
# Sizes as machine words

Sizes come unchecked from files, over the whole range of a 64-bit word. Here a condenser is made,
and a range selected, in the arithmetic of words: a sum or difference that leaves its range has no
value, nor has a slice that leaves its sequence. One number of events to keep has no successor, the
largest word; for all other settings every step has a value, and it is the one that whole numbers
give (`sizes_in_words`).
-/

namespace AgentMemory

namespace Condenser

variable {s : CondenserSettings} {c : Condenser} {v : View}

/-! ## Words -/

/-- A part of a sequence, if it lies within. -/
def slice? {α : Type} (l : List α) (first stop : Nat) : Option (List α) :=
  if first ≤ stop ∧ stop ≤ l.length then some ((l.take stop).drop first) else none

/-- The number of events kept at the end, found in words. -/
def tailFor? (c : Condenser) (target : Nat) : Option Nat := do
  let reserved ← addWords? c.keepFirst 1
  return target - reserved

/-- What of a view is to be forgotten, found in words and by slices. -/
def select? (c : Condenser) (v : View) : Option (Except CondenserError ForgottenRange) := do
  let tail ← c.tailFor? (c.target v)
  let start := snap v (min c.keepFirst v.size)
  let stop := snap v (max (v.size - tail) start)
  if stop ≤ start then return .error .nothingToCondense
  else
    let head ← slice? v.events 0 start
    let back ← slice? v.events stop v.size
    let extra := c.model.enforce (head ++ back) v.events
    let inRange (position : Nat) (e : Event) :=
      (start ≤ position && position < stop) || e.id ∈ extra
    return .ok {
      events := (v.events.zipIdx.filter fun (e, i) => inRange i e).map (·.1)
      offset := (head.filter fun e => !e.isSummary && e.id ∉ extra).length }

/-! ## Steps that have a value -/

theorem addWords?_eq_none_iff {a b : Nat} : addWords? a b = none ↔ Text.wordSize ≤ a + b := by
  rw [addWords?]
  split <;> simp <;> omega

theorem addWords?_of_lt {a b : Nat} (h : a + b < Text.wordSize) : addWords? a b = some (a + b) :=
  if_pos h

theorem subSigned?_of_within {a b : Int} (h : -(maxSigned : Int) - 1 ≤ a - b ∧ a - b ≤ maxSigned) :
    subSigned? a b = some (a - b) :=
  if_pos h

theorem signed_within (n : Nat) : 0 ≤ signed n ∧ signed n ≤ maxSigned := by
  unfold signed
  omega

theorem reportedTail?_eq (maxSize keepFirst : Nat) :
    reportedTail? maxSize keepFirst = some (reportedTail maxSize keepFirst) := by
  have htarget := signed_within (maxSize / 2)
  have hkeep := signed_within keepFirst
  rw [reportedTail?, subSigned?_of_within (by omega)]
  exact subSigned?_of_within (by omega)

theorem slice?_front {α : Type} {l : List α} {stop : Nat} (h : stop ≤ l.length) :
    slice? l 0 stop = some (l.take stop) :=
  if_pos ⟨Nat.zero_le _, h⟩

theorem slice?_back {α : Type} {l : List α} {first : Nat} (h : first ≤ l.length) :
    slice? l first l.length = some (l.drop first) := by
  rw [slice?, if_pos ⟨h, Nat.le_refl _⟩, List.take_length]

/-! ## Making a condenser -/

theorem ofSettings?_eq_none_iff (hkeep : s.keepFirst < Text.wordSize) :
    ofSettings? s = none ↔ s.keepFirst = Text.wordSize - 1 := by
  by_cases hlast : s.keepFirst = Text.wordSize - 1
  · have hnone : addWords? s.keepFirst 1 = none := addWords?_eq_none_iff.mpr (by omega)
    refine iff_of_true ?_ hlast
    simp only [ofSettings?, hnone, Option.bind_eq_bind, Option.bind_none]
  · have hsome : addWords? s.keepFirst 1 = some (s.keepFirst + 1) := addWords?_of_lt (by omega)
    simp only [ofSettings?, hsome, reportedTail?_eq, Option.bind_eq_bind, Option.bind_some,
      iff_false_right hlast]
    split <;> simp

theorem ofSettings?_eq_some (hkeep : s.keepFirst + 1 < Text.wordSize) :
    ofSettings? s = some (ofSettings s) := by
  rw [ofSettings?, addWords?_of_lt hkeep, reportedTail?_eq, ofSettings]
  simp only [Option.bind_eq_bind, Option.bind_some]
  split <;> rfl

theorem exists_ofSettings_iff :
    (∃ c, ofSettings s = .ok c) ↔ 1 ≤ ((s.maxSize / 2 : Nat) : Int) - s.keepFirst - 1 := by
  constructor
  · rintro ⟨c, hc⟩
    obtain ⟨-, -, -, hlt⟩ := ofSettings_eq_ok hc
    omega
  · intro hle
    rw [ofSettings, if_neg (by omega)]
    exact ⟨_, rfl⟩

/-! ## Selecting a range -/

theorem tailFor?_eq (h : c.keepFirst + 1 < Text.wordSize) (target : Nat) :
    c.tailFor? target = some (c.tailFor target) := by
  rw [tailFor?, addWords?_of_lt h]
  rfl

theorem rangeStart_le_size (c : Condenser) (v : View) : c.rangeStart v ≤ v.size := snap_le _ _

theorem rangeEnd_le_size (c : Condenser) (v : View) : c.rangeEnd v ≤ v.size := snap_le _ _

theorem select?_eq (h : c.keepFirst + 1 < Text.wordSize) (v : View) :
    c.select? v = some (c.select v) := by
  have hstart := slice?_front (c.rangeStart_le_size v)
  have hstop : slice? v.events (c.rangeEnd v) v.size = some (v.events.drop (c.rangeEnd v)) :=
    slice?_back (c.rangeEnd_le_size v)
  rw [select?, tailFor?_eq h, select]
  simp only [Option.bind_eq_bind, Option.bind_some]
  rw [← rangeStart, ← rangeEnd]
  split
  · rfl
  · rw [hstart, hstop]
    rfl

/-- **Sizes in words.** Making a condenser leaves the range of words for one number of events to
keep only. For all others it does what whole numbers tell, and settings are accepted just when they
leave an event at the end. With accepted settings, selecting from any view under any model stays in
range, and what it selects begins and ends within the view. -/
theorem sizes_in_words (hmax : s.maxSize < Text.wordSize) (hkeep : s.keepFirst < Text.wordSize) :
    (ofSettings? s = none ↔ s.keepFirst = Text.wordSize - 1) ∧
    (s.keepFirst ≠ Text.wordSize - 1 → ofSettings? s = some (ofSettings s)) ∧
    ((∃ c, ofSettings? s = some (.ok c)) ↔
      1 ≤ ((s.maxSize / 2 : Nat) : Int) - s.keepFirst - 1) ∧
    ∀ accepted m v, ofSettings? s = some (.ok accepted) →
      let c := { accepted with model := m }
      (∀ target : Nat, ∃ tail : Nat, c.tailFor? target = some tail ∧
        (tail : Int) = max 0 (target - s.keepFirst - 1)) ∧
      c.select? v = some (c.select v) ∧
      ∀ r, c.select? v = some (.ok r) →
        c.rangeStart v < c.rangeEnd v ∧ c.rangeEnd v ≤ v.size := by
  have hnone := ofSettings?_eq_none_iff hkeep
  have hsome : s.keepFirst ≠ Text.wordSize - 1 → ofSettings? s = some (ofSettings s) :=
    fun hne => ofSettings?_eq_some (by omega)
  have hfits : ∀ {c}, ofSettings? s = some c → s.keepFirst ≠ Text.wordSize - 1 := by
    intro c hc hlast
    rw [hnone.mpr hlast] at hc
    cases hc
  refine ⟨hnone, hsome, ?_, fun accepted m v haccepted => ?_⟩
  · rw [← exists_ofSettings_iff]
    constructor
    · rintro ⟨c, hc⟩
      rw [hsome (hfits hc)] at hc
      exact ⟨c, Option.some.inj hc⟩
    · rintro ⟨c, hc⟩
      obtain ⟨-, -, -, hlt⟩ := ofSettings_eq_ok hc
      exact ⟨c, by rw [hsome (by omega), hc]⟩
  · intro c
    have hsucc : c.keepFirst + 1 < Text.wordSize ∧ c.keepFirst = s.keepFirst := by
      rw [hsome (hfits haccepted)] at haccepted
      obtain ⟨-, -, hsame, hlt⟩ := ofSettings_eq_ok (Option.some.inj haccepted)
      exact ⟨by show accepted.keepFirst + 1 < _; omega, hsame⟩
    have hselect := select?_eq hsucc.1 v
    refine ⟨fun target => ⟨_, tailFor?_eq hsucc.1 target, ?_⟩, hselect, fun r hr => ?_⟩
    · rw [tailFor]
      omega
    · rw [hselect] at hr
      exact ⟨rangeStart_lt_of_select (Option.some.inj hr), c.rangeEnd_le_size v⟩

end Condenser

/-- Settings that keep as many events at the front as a word can tell. -/
def Sample.insatiable : CondenserSettings := ⟨12, Text.wordSize - 1, none⟩

namespace Condenser

open Sample (condensable insatiable keeper)

/-- Settings with a front as long as it can be, and a view of which something is selected. -/
theorem sizes_in_words_largest :
    (∃ c, ofSettings? ⟨Text.wordSize - 1, maxSigned - 2, none⟩ = some (.ok c) ∧
      c.tailFor? maxSigned = some 1) ∧
    ∃ r, keeper.select? (.ofEvents condensable) = some (.ok r) ∧
      keeper.rangeStart (.ofEvents condensable) < keeper.rangeEnd (.ofEvents condensable) ∧
      keeper.rangeEnd (.ofEvents condensable) ≤ (View.ofEvents condensable).size := by
  constructor
  · obtain ⟨-, -, haccepted, hany⟩ :=
      sizes_in_words (s := ⟨Text.wordSize - 1, maxSigned - 2, none⟩) (by decide) (by decide)
    obtain ⟨c, hc⟩ := haccepted.mpr (by decide)
    obtain ⟨tail, htail, hone⟩ := (hany c c.model (.ofEvents condensable) hc).1 maxSigned
    obtain rfl : tail = 1 := Int.ofNat_inj.mp (hone.trans (by decide))
    exact ⟨c, hc, htail⟩
  · obtain ⟨-, -, -, hany⟩ := sizes_in_words (s := ⟨8, 1, none⟩) (by decide) (by decide)
    obtain ⟨-, hsame, hwithin⟩ := hany keeper .standard (.ofEvents condensable) rfl
    obtain ⟨r, hr⟩ : ∃ r, keeper.select (.ofEvents condensable) = .ok r :=
      exists_select_of_lt (by decide +kernel)
    have hselect : keeper.select? (.ofEvents condensable) = some (.ok r) :=
      hsame.trans (congrArg some hr)
    exact ⟨r, hselect, hwithin r hselect⟩

/-- The largest word of events to keep at the front leaves none at the end, and whole numbers tell
so. In words that is not found: the step that adds the place of the summary has no value. -/
theorem keep_without_successor :
    insatiable.maxSize < Text.wordSize ∧ insatiable.keepFirst < Text.wordSize ∧
      ¬ 1 ≤ ((insatiable.maxSize / 2 : Nat) : Int) - insatiable.keepFirst - 1 ∧
      addWords? insatiable.keepFirst 1 = none ∧ ofSettings? insatiable = none ∧
      ofSettings insatiable = .error (.noTail 12 (Text.wordSize - 1)) :=
  ⟨by decide, by decide, by decide, by decide, by decide, rfl⟩

end Condenser
end AgentMemory
