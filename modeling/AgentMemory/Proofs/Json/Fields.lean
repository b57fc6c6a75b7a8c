import AgentMemory.Proofs.Json.Members
import AgentMemory.Proofs.Json.Record

/-!
# What a record is read from

A value gives each field of a record the values of its key, or the item at its position. A record is
read from it just when every field takes what it is given: its only value, or its default where
there is none (`record_decodes_iff`). What else the members of an object hold makes no difference. A
record that has been written gives each field by the next member or leaves it out (`Given`).
-/

namespace AgentMemory.Json

variable {α β : Type} {αs : List Type}

/-! ## What a value gives a field -/

/-- What a value gives the field at a position with a key. -/
def entries (p : Nat) (key : String) : Json → List Json
  | .object members => valuesAt key members
  | .array items => items[p]?.toList
  | _ => []

/-- A field comes out as `a`: from its only value, or from none if it may be absent. -/
def FieldDecodes (d : Decoder α) (whenAbsent : Option α) (values : List Json) (a : α) : Prop :=
  (values = [] ∧ whenAbsent = some a) ∨ ∃ j, values = [j] ∧ d.Decodes j a

namespace Fields

def keys : {αs : List Type} → Fields αs → List String
  | _, .nil => []
  | _, .cons key _ _ rest => key :: rest.keys

def size : {αs : List Type} → Fields αs → Nat
  | _, .nil => 0
  | _, .cons _ _ _ rest => rest.size + 1

/-- Every field takes what it is given. The positions count from `p`. -/
def Reads (given : Nat → String → List Json) :
    (p : Nat) → {αs : List Type} → Fields αs → Tuple αs → Prop
  | _, _, .nil, _ => True
  | p, _, .cons key d whenAbsent rest, (a, t) =>
    FieldDecodes d whenAbsent (given p key) a ∧ Reads given (p + 1) rest t

theorem reads_congr {fields : Fields αs} {given given' : Nat → String → List Json}
    (h : ∀ p, ∀ key ∈ fields.keys, given p key = given' p key) (p : Nat) (t : Tuple αs) :
    fields.Reads given p t ↔ fields.Reads given' p t := by
  induction fields generalizing p with
  | nil => exact Iff.rfl
  | cons key d whenAbsent rest ih =>
    obtain ⟨a, t⟩ := t
    rw [Reads, Reads, h p key List.mem_cons_self,
      ih fun p key hkey => h p key (List.mem_cons_of_mem _ hkey)]

/-- A value has the form of a record with so many fields. -/
def Shaped (size : Nat) : Json → Prop
  | .object _ => True
  | .array items => items.length ≤ size
  | _ => False

/-! ## Objects -/

section

variable {key : String} {d : Decoder α} {whenAbsent slot slot' : Option α} {rest fields : Fields αs}
  {slots slots' : Slots αs} {members : List (String × Json)} {t : Tuple αs}

/-- The slot of a field after the values of its key. -/
def Fills (d : Decoder α) (slot : Option α) (values : List Json) (slot' : Option α) : Prop :=
  (values = [] ∧ slot' = slot) ∨
    ∃ j a, slot = none ∧ values = [j] ∧ d.Decodes j a ∧ slot' = some a

theorem fills_cons_iff {j : Json} {values : List Json} :
    Fills d slot (j :: values) slot' ↔
      slot = none ∧ ∃ a, d.Decodes j a ∧ Fills d (some a) values slot' := by
  simp only [Fills, List.cons_ne_nil, false_and, false_or, List.cons.injEq, reduceCtorEq,
    exists_false, or_false]
  constructor
  · rintro ⟨i, a, rfl, ⟨rfl, rfl⟩, ha, rfl⟩
    exact ⟨rfl, a, ha, rfl, rfl⟩
  · rintro ⟨rfl, a, ha, rfl, rfl⟩
    exact ⟨j, a, rfl, ⟨rfl, rfl⟩, ha, rfl⟩

theorem store_of_not_mem {doc : Doc} (h : key ∉ fields.keys) (slots : Slots αs) :
    fields.store key doc slots = .ok none := by
  induction fields with
  | nil => rfl
  | cons k d whenAbsent rest ih =>
    obtain ⟨slot, slots⟩ := slots
    obtain ⟨hkey, hrest⟩ := not_or.mp (fun hmem => h (List.mem_cons.mpr hmem))
    simp only [Fields.store, beq_eq_false_iff_ne.mpr (Ne.symm hkey), Bool.false_eq_true, if_false,
      ih hrest]
    rfl

theorem store_self (j : Json) (slot : Option α) (slots : Slots αs) :
    (Fields.cons key d whenAbsent rest).store key (Doc.ofJson j) (slot, slots) =
      if slot.isSome then .error .mismatch
      else (d (Doc.ofJson j)).map fun a => some (some a, slots) := by
  simp only [Fields.store, beq_self_eq_true, if_true]
  rfl

theorem store_other {k : String} {doc : Doc} (h : k ≠ key) (slot : Option α) (slots : Slots αs) :
    (Fields.cons key d whenAbsent rest).store k doc (slot, slots) =
      (rest.store k doc slots).map (Option.map fun slots => (slot, slots)) := by
  simp only [Fields.store, beq_eq_false_iff_ne.mpr (Ne.symm h), Bool.false_eq_true, if_false]
  rfl

theorem storeAll_member (fields : Fields αs) (slots : Slots αs) (k : String) (j : Json)
    (members : List (String × Json)) :
    fields.storeAll false slots (Doc.ofMembers ((k, j) :: members)) =
      (fields.store k (Doc.ofJson j) slots).bind fun stored =>
        fields.storeAll false (stored.getD slots) (Doc.ofMembers members) := by
  rw [Doc.ofMembers, Fields.storeAll]
  simp only [Doc.keyText, Except.mapError, bind, Except.bind, Doc.skip_ofJson]
  cases fields.store k (Doc.ofJson j) slots with
  | error f => rfl
  | ok stored => cases stored <;> rfl

theorem storeAll_eq_ok_iff (hkey : key ∉ rest.keys) (slot : Option α) (slots : Slots αs) :
    (Fields.cons key d whenAbsent rest).storeAll false (slot, slots) (Doc.ofMembers members) =
        .ok (slot', slots') ↔
      Fills d slot (valuesAt key members) slot' ∧
        rest.storeAll false slots (Doc.ofMembers members) = .ok slots' := by
  induction members generalizing slot slots with
  | nil =>
    show Except.ok (slot, slots) = Except.ok (slot', slots') ↔
      Fills d slot [] slot' ∧ Except.ok slots = Except.ok slots'
    simp [Fills, eq_comm]
  | cons m ms ih =>
    obtain ⟨k, j⟩ := m
    rw [storeAll_member (.cons key d whenAbsent rest) (slot, slots), storeAll_member rest]
    by_cases hk : k = key
    · subst hk
      rw [store_self, store_of_not_mem hkey, valuesAt_cons_self, fills_cons_iff]
      cases slot with
      | some a => simp [Except.bind]
      | none =>
        cases hd : d (Doc.ofJson j) with
        | error f => simp [Except.map, Except.bind, Decoder.Decodes, hd]
        | ok a =>
          refine Iff.trans (ih (some a) slots) ?_
          simp [Decoder.Decodes, hd, Except.bind]
    · rw [store_other hk, valuesAt_cons_of_ne hk]
      cases rest.store k (Doc.ofJson j) slots with
      | error f => simp [Except.map, Except.bind]
      | ok stored =>
        cases stored with
        | none => exact ih slot slots
        | some stored => exact ih slot stored

theorem pair_eq_ok_iff {a b : α} {further : Except Fault (Tuple αs)} :
    (do return (b, ← further) : Except Fault (Tuple (α :: αs))) = .ok (a, t) ↔
      b = a ∧ further = .ok t := by
  cases further with
  | error f => exact iff_of_false nofun nofun
  | ok u =>
    constructor
    · rintro ⟨⟩
      exact ⟨rfl, rfl⟩
    · rintro ⟨⟨⟩, ⟨⟩⟩
      rfl

theorem complete_eq_ok_iff {a : α} :
    (Fields.cons key d whenAbsent rest).complete (slot, slots) = .ok (a, t) ↔
      (slot <|> whenAbsent) = some a ∧ rest.complete slots = .ok t := by
  simp only [Fields.complete]
  cases slot <|> whenAbsent with
  | none => simp
  | some b => exact pair_eq_ok_iff.trans (and_congr_left' Option.some_inj.symm)

theorem fieldDecodes_iff {values : List Json} {a : α} :
    FieldDecodes d whenAbsent values a ↔
      ∃ slot, Fills d none values slot ∧ (slot <|> whenAbsent) = some a := by
  constructor
  · rintro (⟨hnil, ha⟩ | ⟨j, hj, ha⟩)
    · exact ⟨none, .inl ⟨hnil, rfl⟩, ha⟩
    · exact ⟨some a, .inr ⟨j, a, rfl, hj, ha, rfl⟩, rfl⟩
  · rintro ⟨slot, ⟨hnil, rfl⟩ | ⟨j, b, -, hj, hb, rfl⟩, ha⟩
    · exact .inl ⟨hnil, ha⟩
    · obtain rfl := Option.some.inj ha
      exact .inr ⟨j, hj, hb⟩

theorem decode_object_iff (hkeys : fields.keys.Nodup) (p : Nat) :
    (∃ slots, fields.storeAll false fields.empty (Doc.ofMembers members) = .ok slots ∧
      fields.complete slots = .ok t) ↔ fields.Reads (fun _ key => valuesAt key members) p t := by
  induction fields generalizing p with
  | nil =>
    refine iff_of_true ⟨(), ?_, rfl⟩ trivial
    induction members with
    | nil => rfl
    | cons m ms ih =>
      rw [storeAll_member]
      exact ih
  | cons key d whenAbsent rest ih =>
    obtain ⟨a, t⟩ := t
    obtain ⟨hkey, hrest⟩ := List.nodup_cons.mp hkeys
    rw [Fields.Reads, ← ih hrest, fieldDecodes_iff]
    constructor
    · rintro ⟨⟨slot, slots⟩, hstore, hcomplete⟩
      obtain ⟨hfills, hstore⟩ := (storeAll_eq_ok_iff hkey none rest.empty).mp hstore
      obtain ⟨ha, hcomplete⟩ := complete_eq_ok_iff.mp hcomplete
      exact ⟨⟨slot, hfills, ha⟩, slots, hstore, hcomplete⟩
    · rintro ⟨⟨slot, hfills, ha⟩, slots, hstore, hcomplete⟩
      exact ⟨(slot, slots), (storeAll_eq_ok_iff hkey none rest.empty).mpr ⟨hfills, hstore⟩,
        complete_eq_ok_iff.mpr ⟨ha, hcomplete⟩⟩

/-! ## Arrays -/

theorem ofItems_eq_ok_iff {items : List Json} {given : Nat → String → List Json} {p : Nat}
    (hgiven : ∀ q key, given (p + q) key = items[q]?.toList) :
    fields.ofItems .closed (Doc.ofItems items) = .ok t ↔
      items.length ≤ fields.size ∧ fields.Reads given p t := by
  induction fields generalizing items p with
  | nil =>
    cases items with
    | nil => exact iff_of_true rfl ⟨Nat.le_refl 0, trivial⟩
    | cons j js => simp [Doc.ofItems, Fields.ofItems, Fields.size]
  | cons key d whenAbsent rest ih =>
    obtain ⟨a, t⟩ := t
    have hfirst : given p key = items[0]?.toList := hgiven 0 key
    have hnext : ∀ q key, given (p + 1 + q) key = items[q + 1]?.toList := by
      intro q key
      rw [← hgiven, Nat.add_assoc, Nat.add_comm 1 q]
    rw [Fields.Reads, hfirst]
    cases items with
    | nil =>
      have hdecodes :
          FieldDecodes d whenAbsent ([] : List Json)[0]?.toList a ↔ whenAbsent = some a := by
        simp [FieldDecodes]
      have hrest : rest.ofItems .closed (Doc.ofItems []) = .ok t ↔ rest.Reads given (p + 1) t :=
        (ih hnext).trans (and_iff_right (Nat.zero_le _))
      rw [hdecodes, ← hrest]
      refine Iff.trans ?_ (and_iff_right (Nat.zero_le _)).symm
      simp only [Doc.ofItems, Fields.ofItems, Ending.check]
      cases whenAbsent with
      | none => simp [bind, Except.bind]
      | some b => exact pair_eq_ok_iff.trans (and_congr_left' Option.some_inj.symm)
    | cons j js =>
      have hdecodes : FieldDecodes d whenAbsent (j :: js)[0]?.toList a ↔ d.Decodes j a := by
        simp [FieldDecodes]
      rw [hdecodes, List.length_cons, Fields.size, Nat.add_le_add_iff_right, and_left_comm,
        ← ih hnext]
      simp only [Doc.ofItems, Fields.ofItems, Decoder.Decodes]
      cases d (Doc.ofJson j) with
      | error f => simp [Except.bind, bind]
      | ok b =>
        rw [Except.ok.injEq]
        exact pair_eq_ok_iff

/-! ## Records -/

/-- **A record is read** from a value of its form when every field takes what it is given. -/
theorem record_decodes_iff {fields : Fields αs} {build : Tuple αs → β} (hkeys : fields.keys.Nodup)
    (u : Json) (b : β) :
    (fields.record build).Decodes u b ↔
      Shaped fields.size u ∧
        ∃ t, fields.Reads (fun p key => entries p key u) 0 t ∧ build t = b := by
  have hdecode : ∀ t, fields.decode false (Doc.ofJson u) = .ok t ↔
      Shaped fields.size u ∧ fields.Reads (fun p key => entries p key u) 0 t := by
    intro t
    cases u with
    | null | bool | number | string => exact iff_of_false nofun fun h => h.1
    | array items =>
      refine ofItems_eq_ok_iff fun q key => ?_
      rw [Nat.zero_add]
      rfl
    | object members =>
      refine Iff.trans ?_ ((decode_object_iff hkeys 0).trans (and_iff_right trivial).symm)
      show Except.bind (fields.storeAll false fields.empty (Doc.ofMembers members)) _ = _ ↔ _
      cases fields.storeAll false fields.empty (Doc.ofMembers members) with
      | error f => exact iff_of_false nofun fun ⟨_, h, _⟩ => nomatch h
      | ok slots => simp [Except.bind, bind, Ending.check]
  have hmap : (fields.record build).Decodes u b ↔
      ∃ t, fields.decode false (Doc.ofJson u) = .ok t ∧ build t = b := by
    show (fields.decode false (Doc.ofJson u)).map build = .ok b ↔ _
    cases fields.decode false (Doc.ofJson u) with
    | error f => simp [Except.map]
    | ok t => simp [Except.map]
  simp only [hmap, hdecode, and_assoc, exists_and_left]

end

/-! ## Members of a written record -/

/-- The members give the fields in order: each field is given by the next member, or it is absent
and takes its default. -/
inductive Given : {αs : List Type} → Fields αs → List (String × Json) → Tuple αs → Prop where
  | nil : Given .nil [] ()
  | given {α : Type} {αs : List Type} {key : String} {d : Decoder α} {whenAbsent : Option α}
      {rest : Fields αs} {j : Json} {a : α} {members : List (String × Json)} {t : Tuple αs}
      (value : d.Decodes j a) (further : Given rest members t) :
      Given (.cons key d whenAbsent rest) ((key, j) :: members) (a, t)
  | absent {α : Type} {αs : List Type} {key : String} {d : Decoder α} {a : α} {rest : Fields αs}
      {members : List (String × Json)} {t : Tuple αs} (further : Given rest members t) :
      Given (.cons key d (some a) rest) members (a, t)

theorem Given.member? {key : String} {d : Decoder α} {rest : Fields αs} {f : α → Json}
    {o : Option α} {members : List (String × Json)} {t : Tuple αs}
    (value : ∀ a ∈ o, d.Decodes (f a) a) (hf : ∀ a ∈ o, Doc.ofJson (f a) ≠ .null)
    (further : Given rest members t) :
    Given (.omittable key d rest) (Json.member? key (o.map f) ++ members) (o, t) := by
  cases o with
  | none => exact .absent further
  | some a => exact .given ((value a rfl).option (hf a rfl)) further

theorem Given.lastMember? {key : String} {d : Decoder α} {f : α → Json} {o : Option α}
    (value : ∀ a ∈ o, d.Decodes (f a) a) (hf : ∀ a ∈ o, Doc.ofJson (f a) ≠ .null) :
    Given (.omittable key d .nil) (Json.member? key (o.map f)) (o, ()) := by
  rw [← List.append_nil (Json.member? _ _)]
  exact .member? value hf .nil

theorem Given.mem_keys {fields : Fields αs} {members : List (String × Json)} {t : Tuple αs}
    (h : Given fields members t) : ∀ m ∈ members, m.1 ∈ fields.keys := by
  induction h with
  | nil =>
    intro m hm
    cases hm
  | given value further ih =>
    intro m hm
    rcases List.mem_cons.mp hm with rfl | hm
    · exact List.mem_cons_self
    · exact List.mem_cons_of_mem _ (ih m hm)
  | absent further ih =>
    intro m hm
    exact List.mem_cons_of_mem _ (ih m hm)

theorem Given.reads {fields : Fields αs} {members : List (String × Json)} {t : Tuple αs}
    (h : Given fields members t) (hkeys : fields.keys.Nodup) (p : Nat) :
    fields.Reads (fun _ key => valuesAt key members) p t := by
  induction h generalizing p with
  | nil => trivial
  | @given α αs key d whenAbsent rest j a members t value further ih =>
    obtain ⟨hkey, hrest⟩ := List.nodup_cons.mp hkeys
    have hown : valuesAt key ((key, j) :: members) = [j] := by
      rw [valuesAt_cons_self, valuesAt_eq_nil]
      rintro m hm rfl
      exact hkey (further.mem_keys m hm)
    have hothers : ∀ _ : Nat, ∀ k ∈ rest.keys,
        valuesAt k ((key, j) :: members) = valuesAt k members := by
      rintro - k hk
      refine valuesAt_cons_of_ne ?_
      rintro rfl
      exact hkey hk
    exact ⟨.inr ⟨j, hown, value⟩, (reads_congr hothers (p + 1) t).mpr (ih hrest (p + 1))⟩
  | @absent α αs key d a rest members t further ih =>
    obtain ⟨hkey, hrest⟩ := List.nodup_cons.mp hkeys
    refine ⟨.inl ⟨valuesAt_eq_nil ?_, rfl⟩, ih hrest (p + 1)⟩
    rintro m hm rfl
    exact hkey (further.mem_keys m hm)

/-- **Records** are read from members that give their fields. -/
theorem Given.decodes {fields : Fields αs} {members : List (String × Json)} {t : Tuple αs}
    {build : Tuple αs → β} {b : β} (h : Given fields members t) (hkeys : fields.keys.Nodup)
    (hb : build t = b) : (fields.record build).Decodes (.object members) b :=
  (record_decodes_iff hkeys _ b).mpr ⟨trivial, t, h.reads hkeys 0, hb⟩

theorem Given.tagged {β : Type} {tag name : String} {pick : Doc → Except Fault (Decoder β)}
    {fields : Fields αs} {members : List (String × Json)} {t : Tuple αs} {build : Tuple αs → β}
    {b : β} (hpick : pick (.text (some name)) = .ok (fields.record build))
    (h : Given fields members t) (hkeys : (tag :: fields.keys).Nodup) (hb : build t = b) :
    (Decoder.taggedWith tag pick).Decodes (.object ((tag, .string name) :: members)) b := by
  obtain ⟨htag, hrest⟩ := List.nodup_cons.mp hkeys
  refine Decoder.Decodes.tagged hpick ?_ (h.decodes hrest hb)
  rintro m hm rfl
  exact htag (h.mem_keys m hm)

end Fields
end AgentMemory.Json
