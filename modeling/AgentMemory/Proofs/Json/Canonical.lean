import AgentMemory.Proofs.Json.Fields

/-!
# Records in canonical form

The canonical form of a record has its members in key order and their values in canonical form. Each
field takes the same from them in that order, so a value that is **admitted** by the decoders of its
parts, in both forms, is admitted as a whole.
-/

namespace AgentMemory.Json

theorem canonicalItems_eq_map (items : List Json) : canonicalItems items = items.map canonical := by
  induction items with
  | nil => rfl
  | cons j js ih => rw [canonicalItems, ih, List.map_cons]

theorem canonicalMembers_eq_map (members : List (String × Json)) :
    canonicalMembers members = members.map fun m => (m.1, m.2.canonical) := by
  induction members with
  | nil => rfl
  | cons m ms ih => rw [canonicalMembers, ih, List.map_cons]

/-! ## Members in key order -/

namespace Fields

variable {αs : List Type} {members : List (String × Json)} {t : Tuple αs}

theorem fieldDecodes_last {α : Type} {d : Decoder α} {whenAbsent : Option α}
    {values : List Json} {a : α} (h : FieldDecodes d whenAbsent values a) :
    FieldDecodes d whenAbsent values.getLast?.toList a := by
  obtain ⟨rfl, ha⟩ | ⟨j, rfl, ha⟩ := h
  · exact .inl ⟨rfl, ha⟩
  · exact .inr ⟨j, rfl, ha⟩

theorem Reads.last {fields : Fields αs} {given : Nat → String → List Json} {p : Nat}
    (h : fields.Reads given p t) :
    fields.Reads (fun p key => (given p key).getLast?.toList) p t := by
  induction fields generalizing p with
  | nil => trivial
  | cons key d whenAbsent rest ih => exact ⟨fieldDecodes_last h.1, ih h.2⟩

/-- **Records in key order** are read from members that give their fields. -/
theorem Given.decodes_ordered {β : Type} {fields : Fields αs} {build : Tuple αs → β} {b : β}
    (h : Given fields members t) (hkeys : fields.keys.Nodup) (hb : build t = b) :
    (fields.record build).Decodes (.object (ordered members)) b := by
  refine (record_decodes_iff hkeys _ b).mpr ⟨trivial, t, ?_, hb⟩
  simpa only [entries, valuesAt_ordered] using (h.reads hkeys 0).last

end Fields

/-! ## Both forms -/

namespace Decoder

variable {α : Type}

/-- The decoder reads the value as `a`, as it stands and in canonical form. -/
def Admits (d : Decoder α) (j : Json) (a : α) : Prop := d.Decodes j a ∧ d.Decodes j.canonical a

theorem admits_string (s : String) : string.Admits (.string s) s := ⟨rfl, rfl⟩

theorem admits_json {j : Json} (h : j.canonical = j) : json.Admits j j :=
  ⟨decodes_json h, by rw [h]; exact decodes_json h⟩

theorem Admits.list {d : Decoder α} {f : α → Json} {as : List α}
    (h : ∀ a ∈ as, d.Admits (f a) a) : (Decoder.list d).Admits (.array (as.map f)) as := by
  refine ⟨.list fun a ha => (h a ha).1, ?_⟩
  rw [canonical, canonicalItems_eq_map, List.map_map]
  exact .list fun a ha => (h a ha).2

end Decoder

namespace Fields

variable {αs : List Type} {members : List (String × Json)} {t : Tuple αs}

/-- The members give the fields in order, each in both forms. -/
inductive Held : {αs : List Type} → Fields αs → List (String × Json) → Tuple αs → Prop where
  | nil : Held .nil [] ()
  | given {α : Type} {αs : List Type} {key : String} {d : Decoder α} {whenAbsent : Option α}
      {rest : Fields αs} {j : Json} {a : α} {members : List (String × Json)} {t : Tuple αs}
      (value : d.Admits j a) (further : Held rest members t) :
      Held (.cons key d whenAbsent rest) ((key, j) :: members) (a, t)
  | absent {α : Type} {αs : List Type} {key : String} {d : Decoder α} {a : α} {rest : Fields αs}
      {members : List (String × Json)} {t : Tuple αs} (further : Held rest members t) :
      Held (.cons key d (some a) rest) members (a, t)

theorem Held.member? {α : Type} {key : String} {d : Decoder α} {rest : Fields αs} {f : α → Json}
    {o : Option α} (value : ∀ a ∈ o, d.Decodes (f a) a)
    (hf : ∀ a, Doc.ofJson (f a) ≠ .null ∧ (f a).canonical = f a) (further : Held rest members t) :
    Held (.omittable key d rest) (Json.member? key (o.map f) ++ members) (o, t) := by
  cases o with
  | none => exact .absent further
  | some a =>
    obtain ⟨hnull, hsame⟩ := hf a
    have hread := (value a rfl).option hnull
    exact .given ⟨hread, by rwa [hsame]⟩ further

theorem Held.plain {fields : Fields αs} (h : Held fields members t) : Given fields members t := by
  induction h with
  | nil => exact .nil
  | given value _ ih => exact .given value.1 ih
  | absent _ ih => exact .absent ih

theorem Held.canonical {fields : Fields αs} (h : Held fields members t) :
    Given fields (canonicalMembers members) t := by
  induction h with
  | nil => exact .nil
  | given value _ ih => exact .given value.2 ih
  | absent _ ih => exact .absent ih

/-- **Records in both forms** are read from members that give their fields in both forms. -/
theorem Held.admits {β : Type} {fields : Fields αs} {build : Tuple αs → β} {b : β}
    (h : Held fields members t) (hkeys : fields.keys.Nodup) (hb : build t = b) :
    (fields.record build).Admits (.object members) b :=
  ⟨h.plain.decodes hkeys hb, h.canonical.decodes_ordered hkeys hb⟩

end Fields
end AgentMemory.Json
