import AgentMemory.Diagnostics

/-!
# What a capture tells

A capture is used by emitting events and by clearing it. The events it holds are the ones emitted
since it was last cleared, in their order, and every question about it is one about these.
-/

namespace AgentMemory.Diagnostics

theorem occursIn_iff_isInfix (part whole : List Char) :
    occursIn part whole = true ↔ part <:+: whole := by
  induction whole with
  | nil => simp [occursIn]
  | cons c rest ih => simp [occursIn, ih, List.infix_cons_iff]

theorem Record.mentions_iff (r : Record) (part : String) :
    r.mentions part = true ↔ part.toList <:+: r.message.toList :=
  occursIn_iff_isInfix _ _

theorem Record.field?_eq_some_iff (r : Record) (name value : String) :
    r.field? name = some value ↔ ∃ before after,
      r.fields = before ++ (name, value) :: after ∧ ∀ field ∈ before, field.1 ≠ name := by
  simp only [Record.field?, Option.map_eq_some_iff, List.find?_eq_some_iff_append]
  constructor
  · rintro ⟨⟨key, _⟩, ⟨found, before, after, split, others⟩, rfl⟩
    obtain rfl : key = name := by simpa using found
    exact ⟨before, after, split, by simpa using others⟩
  · rintro ⟨before, after, split, others⟩
    exact ⟨(name, value), ⟨by simp, before, after, split, by simpa using others⟩, rfl⟩

namespace Capture

theorem hasMessage_iff (c : Capture) (part : String) :
    c.hasMessage part = true ↔ ∃ r ∈ c.records, part.toList <:+: r.message.toList := by
  simp [hasMessage, Record.mentions_iff]

theorem hasEvent_iff (c : Capture) (level : Level) (part : String) :
    c.hasEvent level part = true ↔
      ∃ r ∈ c.records, r.level = level ∧ part.toList <:+: r.message.toList := by
  simp [hasEvent, Record.mentions_iff]

theorem hasMessage_iff_hasEvent (c : Capture) (part : String) :
    c.hasMessage part = true ↔ ∃ level, c.hasEvent level part = true := by
  simp only [hasMessage_iff, hasEvent_iff]
  constructor
  · rintro ⟨r, held, mentioned⟩
    exact ⟨r.level, r, held, rfl, mentioned⟩
  · rintro ⟨_, r, held, _, mentioned⟩
    exact ⟨r, held, mentioned⟩

theorem count_pos_iff (c : Capture) (level : Level) :
    0 < c.count level ↔ c.hasEvent level "" = true := by
  simp [count, hasEvent_iff, List.length_pos_iff_exists_mem]

theorem count_add (c : Capture) :
    c.count .trace + c.count .debug + c.count .info + c.count .warn + c.count .error =
      c.records.length := by
  obtain ⟨records⟩ := c
  induction records with
  | nil => rfl
  | cons r rest ih =>
    simp only [count, List.length_cons] at ih ⊢
    rw [← ih]
    cases h : r.level <;> simp [h] <;> omega

/-! ### Uses of a capture -/

inductive Use where
  | emit (level : Level) (message : String) (fields : List (String × FieldValue))
  | clear

def step (c : Capture) : Use → Capture
  | .emit level message fields => c.emit level message fields
  | .clear => c.clear

def Use.record? : Use → Option Record
  | emit level message fields =>
    some ⟨level, message, fields.map fun (name, value) => (name, value.shown)⟩
  | clear => none

def afterUses (uses : List Use) : Capture := uses.foldl step {}

theorem records_foldl_step (c : Capture) (uses : List Use) (uncleared : Use.clear ∉ uses) :
    (uses.foldl step c).records = c.records ++ uses.filterMap Use.record? := by
  induction uses generalizing c with
  | nil => simp
  | cons u rest ih =>
    cases u with
    | clear => simp at uncleared
    | emit level message fields =>
      have later : Use.clear ∉ rest := fun h => uncleared (List.mem_cons_of_mem _ h)
      simp [ih _ later, step, emit, Use.record?]

/-- What was done before a capture was cleared leaves no trace, and what is emitted afterwards is
held in its order. -/
theorem records_afterUses_clear (before since : List Use) (uncleared : Use.clear ∉ since) :
    (afterUses (before ++ .clear :: since)).records = since.filterMap Use.record? := by
  rw [afterUses, List.foldl_append, List.foldl_cons, records_foldl_step _ _ uncleared]
  rfl

theorem hasEvent_afterUses_clear (before since : List Use) (uncleared : Use.clear ∉ since)
    (level : Level) (part : String) :
    (afterUses (before ++ .clear :: since)).hasEvent level part = true ↔
      ∃ message fields, .emit level message fields ∈ since ∧ part.toList <:+: message.toList := by
  rw [hasEvent_iff, records_afterUses_clear _ _ uncleared]
  constructor
  · rintro ⟨r, held, rfl, mentioned⟩
    obtain ⟨u, used, made⟩ := List.mem_filterMap.mp held
    cases u with
    | clear => cases made
    | emit level message fields =>
      cases made
      exact ⟨message, fields, used, mentioned⟩
  · rintro ⟨message, fields, used, mentioned⟩
    exact ⟨_, List.mem_filterMap.mpr ⟨_, used, rfl⟩, rfl, mentioned⟩

end Capture
end AgentMemory.Diagnostics
