import AgentMemory.Json.Value
import AgentMemory.Proofs.Json.Canonical

/-!
# Reading what is laid over defaults

Members are laid over those of an object key by key: at each key stands what was there, with every
value given there laid over it in turn. When what is below holds the defaults of a record, and the
values above it are such that a null stands for an absent field, then laying a value over it changes
nothing that the record is read as (`Fields.Base.decodes_overlay`), but for nulls, which it takes
out.
-/

namespace AgentMemory.Json

variable {α β : Type} {αs : List Type} {key k : String} {value v x : Json}
  {members above below : List (String × Json)}

/-! ## Members laid over members -/

/-- A value laid over what there is, if there is anything. -/
def overlaid (below : Option Json) (value : Json) : Json :=
  match below with
  | some old => old.overlay value
  | none => value

/-- What stands at a key after one more value has been laid over it. -/
def layOver (below : Option Json) (value : Json) : Option Json :=
  if value.isNull then below else some (overlaid below value)

theorem layOver_of_null (h : x.isNull = true) (below : Option Json) : layOver below x = below :=
  if_pos h

theorem layOver_of_not_null (h : ¬ x.isNull = true) (below : Option Json) :
    layOver below x = some (overlaid below x) := if_neg h

theorem overlayMembers_cons (below : List (String × Json)) (m : String × Json)
    (above : List (String × Json)) :
    overlayMembers below (m :: above) = overlayMembers (overlayMembers below [m]) above := rfl

theorem overlayMembers_single (below : List (String × Json)) (key : String) (j : Json) :
    overlayMembers below [(key, j)] =
      if j.isNull then below
      else insertMember key (overlaid ((Json.object below).get? key) j) below := by
  rw [overlayMembers, overlayMembers]
  split
  · rfl
  · cases (Json.object below).get? key <;> rfl

theorem Ascending.overlayMembers (h : Ascending below) (above : List (String × Json)) :
    Ascending (Json.overlayMembers below above) := by
  induction above generalizing below with
  | nil => exact h
  | cons m ms ih =>
    rw [overlayMembers_cons]
    refine ih ?_
    rw [overlayMembers_single]
    split
    · exact h
    · exact h.insertMember

theorem Ascending.get?_overlayMembers (h : Ascending below) (above : List (String × Json))
    (k : String) : (Json.object (Json.overlayMembers below above)).get? k =
      (valuesAt k above).foldl layOver ((Json.object below).get? k) := by
  induction above generalizing below with
  | nil => rfl
  | cons m ms ih =>
    obtain ⟨key, j⟩ := m
    have hsingle : (Json.object (Json.overlayMembers below [(key, j)])).get? k =
        (valuesAt k [(key, j)]).foldl layOver ((Json.object below).get? k) := by
      rw [overlayMembers_single]
      by_cases hk : key = k
      · subst hk
        rw [valuesAt_cons_self]
        show _ = layOver ((Json.object below).get? key) j
        split
        · next hnull => rw [layOver_of_null hnull]
        · next hnull => rw [h.get?_insertMember, if_pos rfl, layOver_of_not_null hnull]
      · rw [valuesAt_cons_of_ne hk]
        show _ = (Json.object below).get? k
        split
        · rfl
        · rw [h.get?_insertMember, if_neg (Ne.symm hk)]
    have hvalues : valuesAt k ((key, j) :: ms) = valuesAt k [(key, j)] ++ valuesAt k ms := by
      rw [← valuesAt_append]
      rfl
    rw [overlayMembers_cons, ih (h.overlayMembers [(key, j)]), hsingle, hvalues,
      List.foldl_append]

/-! ## Defaults below -/

/-- What is below a field is nothing or its default, a null is read only as what stands for an
absent field, and a value is read alike when it is laid over what is below. -/
structure DefaultBelow (below : Option Json) (d : Decoder α) (whenAbsent : Option α) : Prop where
  written : ∀ v ∈ below, ∃ a, whenAbsent = some a ∧ d.Decodes v a
  null : ∀ a, d.Decodes .null a → whenAbsent = some a
  laid : ∀ x a, d.Decodes x a → d.Decodes (overlaid below x) a

theorem eq_null_of_isNull (h : x.isNull = true) : x = .null := by
  cases x with
  | null => rfl
  | bool | number | string | array | object => cases h

section

variable {d : Decoder α} {whenAbsent : Option α} {under : Option Json} {values : List Json} {a : α}

theorem DefaultBelow.fieldDecodes_below (h : DefaultBelow under d whenAbsent) :
    FieldDecodes d whenAbsent under.toList a ↔ whenAbsent = some a := by
  cases under with
  | none => simp [FieldDecodes]
  | some v =>
    obtain ⟨b, hb, hv⟩ := h.written v rfl
    have hread : d.Decodes v a ↔ b = a := by rw [Decoder.Decodes, hv, Except.ok.injEq]
    simp [FieldDecodes, hb, hread]

theorem DefaultBelow.fieldDecodes_layOver (h : DefaultBelow under d whenAbsent)
    (ha : FieldDecodes d whenAbsent values a) :
    FieldDecodes d whenAbsent (values.foldl layOver under).toList a := by
  obtain ⟨rfl, ha⟩ | ⟨x, rfl, hx⟩ := ha
  · exact h.fieldDecodes_below.mpr ha
  · show FieldDecodes d whenAbsent (layOver under x).toList a
    by_cases hnull : x.isNull = true
    · rw [layOver_of_null hnull, h.fieldDecodes_below]
      exact h.null a (eq_null_of_isNull hnull ▸ hx)
    · rw [layOver_of_not_null hnull]
      exact .inr ⟨_, rfl, h.laid x a hx⟩

end

namespace Fields

def DefaultsBelow (below : String → Option Json) : {αs : List Type} → Fields αs → Prop
  | _, .nil => True
  | _, .cons key d whenAbsent rest =>
    DefaultBelow (below key) d whenAbsent ∧ DefaultsBelow below rest

variable {fields : Fields αs} {build : Tuple αs → β} {b : β} {t : Tuple αs} {u : Json}

theorem DefaultsBelow.reads {below : String → Option Json} (h : fields.DefaultsBelow below)
    {given : Nat → String → List Json} {p : Nat} (ht : fields.Reads given p t) :
    fields.Reads (fun p key => ((given p key).foldl layOver (below key)).toList) p t := by
  induction fields generalizing p with
  | nil => trivial
  | cons key d whenAbsent rest ih =>
    obtain ⟨a, t⟩ := t
    exact ⟨h.1.fieldDecodes_layOver ht.1, ih h.2 ht.2⟩

theorem entries_overlay {members : List (String × Json)} (h : Ascending below) (p : Nat)
    (key : String) : entries p key (overlay (.object below) (.object members)) =
      ((entries p key (.object members)).foldl layOver ((Json.object below).get? key)).toList := by
  rw [overlay]
  show valuesAt key _ = _
  rw [(h.overlayMembers members).valuesAt_eq, h.get?_overlayMembers]
  rfl

theorem overlay_eq_self (h : ∀ members, u ≠ .object members) (v : Json) : v.overlay u = u := by
  cases u with
  | object members => exact absurd rfl (h members)
  | null | bool | number | string | array =>
    rw [overlay]
    exact h

/-- A value holds the defaults of the fields, as an object in key order. -/
structure Base (fields : Fields αs) (v : Json) : Prop where
  keys : fields.keys.Nodup
  object : ∃ below, v = .object below ∧ Ascending below
  defaults : fields.DefaultsBelow fun key => v.get? key

/-- **Laying over defaults**: a value that is read as a record is read as the same record when it is
laid over the defaults of the fields. -/
theorem Base.decodes_overlay (h : fields.Base v) (hu : (fields.record build).Decodes u b) :
    (fields.record build).Decodes (v.overlay u) b := by
  obtain ⟨hkeys, ⟨below, rfl, hbelow⟩, hdefaults⟩ := h
  cases u with
  | object members =>
    obtain ⟨-, t, ht, hb⟩ := (record_decodes_iff hkeys _ b).mp hu
    refine (record_decodes_iff hkeys _ b).mpr ⟨by rw [overlay]; trivial, t, ?_, hb⟩
    simpa only [entries_overlay hbelow] using hdefaults.reads ht
  | null | bool | number | string | array => rwa [overlay_eq_self (by simp)]

theorem Base.defaultBelow {under : Option Json} (h : fields.Base v)
    (hempty : (fields.record build).Decodes (.object []) b) (hunder : under = some v) :
    DefaultBelow under (fields.record build) (some b) where
  written w hw := by
    have hlaid := h.decodes_overlay hempty
    obtain ⟨-, ⟨below, rfl, -⟩, -⟩ := h
    obtain rfl := Option.some.inj (hunder.symm.trans hw)
    exact ⟨b, rfl, hlaid⟩
  null _ := nofun
  laid x c hx := by
    rw [hunder]
    exact h.decodes_overlay hx

end Fields

theorem overlay_of_not_object (h : ∀ members, v ≠ .object members) (u : Json) :
    v.overlay u = u := by
  cases u with
  | object above =>
    cases v with
    | object below => exact absurd rfl (h below)
    | null | bool | number | string | array =>
      rw [overlay]
      exact h
  | null | bool | number | string | array => exact Fields.overlay_eq_self (by simp) v

/-- A single value is below a field, or nothing. -/
def Single (below : Option Json) : Prop := ∀ v ∈ below, ∀ members, v ≠ .object members

theorem Single.overlaid_eq {below : Option Json} (h : Single below) (u : Json) :
    overlaid below u = u := by
  cases below with
  | none => rfl
  | some v => exact overlay_of_not_object (h v rfl) u

theorem Single.of_some {under : Option Json} (hunder : under = some v)
    (hv : ∀ members, v ≠ .object members) : Single under := by
  rintro w hw
  obtain rfl := Option.some.inj (hunder.symm.trans hw)
  exact hv

theorem Single.of_none {under : Option Json} (hunder : under = none) : Single under := by
  subst hunder
  nofun

theorem DefaultBelow.of_some {under : Option Json} {d : Decoder α} {a : α} (hunder : under = some v)
    (hv : ∀ members, v ≠ .object members) (ha : d.Decodes v a) (hnull : ∀ b, ¬ d.Decodes .null b) :
    DefaultBelow under d (some a) where
  written w hw := by
    obtain rfl := Option.some.inj (hunder.symm.trans hw)
    exact ⟨a, rfl, ha⟩
  null b hb := absurd hb (hnull b)
  laid x b hx := by rwa [(Single.of_some hunder hv).overlaid_eq]

theorem DefaultBelow.of_none {under : Option Json} {d : Decoder α} (hunder : under = none) :
    DefaultBelow under d.option (some none) where
  written w hw := by
    subst hunder
    cases hw
  null b hb := congrArg some (Except.ok.inj hb)
  laid x b hx := by rwa [(Single.of_none hunder).overlaid_eq]

/-! ## Where a field comes from -/

/-- Nothing is given twice. -/
def Keyed (u : Json) : Prop := ∀ p key, (entries p key u).length ≤ 1

/-- What a value gives a field, unless it is null. -/
def given? (p : Nat) (key : String) (u : Json) : Option Json :=
  (entries p key u).find? (!·.isNull)

/-- A field comes from what it is given, as it stands or laid over what is below; and if it is given
nothing it has its default. -/
def OverlaidOrDefault (below : Option Json) (d : Decoder α) (whenAbsent : Option α)
    (given : Option Json) (a : α) : Prop :=
  match given with
  | none => whenAbsent = some a
  | some x => d.Decodes x a ∨ d.Decodes (overlaid below x) a

/-- A field is read from what it is given, or has its default. -/
def GivenOrDefault (d : Decoder α) (default : α) (given : Option Json) (a : α) : Prop :=
  match given with
  | none => a = default
  | some x => d.Decodes x a

theorem DefaultBelow.overlaidOrDefault {d : Decoder α} {whenAbsent : Option α} {under : Option Json}
    {values : List Json} {a : α} (h : DefaultBelow under d whenAbsent) (hvalues : values.length ≤ 1)
    (ha : FieldDecodes d whenAbsent values a ∨
      FieldDecodes d whenAbsent (values.foldl layOver under).toList a) :
    OverlaidOrDefault under d whenAbsent (values.find? (!·.isNull)) a := by
  match values with
  | [] =>
    refine ha.elim (fun ha => ?_) h.fieldDecodes_below.mp
    show whenAbsent = some a
    simpa [FieldDecodes] using ha
  | [x] =>
    have halone : FieldDecodes d whenAbsent [x] a → d.Decodes x a := by simp [FieldDecodes]
    replace ha : d.Decodes x a ∨ FieldDecodes d whenAbsent (layOver under x).toList a :=
      ha.imp_left halone
    by_cases hnull : x.isNull = true
    · rw [layOver_of_null hnull, h.fieldDecodes_below] at ha
      have hnone : [x].find? (!·.isNull) = none := by simp [hnull]
      rw [hnone]
      exact ha.elim (fun hx => h.null a (eq_null_of_isNull hnull ▸ hx)) id
    · rw [layOver_of_not_null hnull] at ha
      have hsome : [x].find? (!·.isNull) = some x := by simp [hnull]
      rw [hsome]
      exact ha.imp_right fun hx => by simpa [FieldDecodes] using hx
  | x :: y :: zs => simp at hvalues

theorem OverlaidOrDefault.of_single {under given : Option Json} {d : Decoder α} {default a : α}
    (h : Single under) (ha : OverlaidOrDefault under d (some default) given a) :
    GivenOrDefault d default given a := by
  cases given with
  | none => exact (Option.some.inj ha).symm
  | some x =>
    refine ha.elim id fun hx => ?_
    rwa [h.overlaid_eq] at hx

namespace Fields

variable {fields : Fields αs} {build : Tuple αs → β} {b : β} {t : Tuple αs} {u : Json}

/-- Every field comes from what it is given or has its default. -/
def OverlaidOrDefault (below : String → Option Json) (given : Nat → String → Option Json) :
    (p : Nat) → {αs : List Type} → Fields αs → Tuple αs → Prop
  | _, _, .nil, _ => True
  | p, _, .cons key d whenAbsent rest, (a, t) =>
    Json.OverlaidOrDefault (below key) d whenAbsent (given p key) a ∧
      OverlaidOrDefault below given (p + 1) rest t

theorem DefaultsBelow.overlaidOrDefault_of_reads {below : String → Option Json}
    (h : fields.DefaultsBelow below) {given : Nat → String → List Json}
    (hgiven : ∀ p key, (given p key).length ≤ 1) {p : Nat}
    (ht : fields.Reads given p t ∨
      fields.Reads (fun p key => ((given p key).foldl layOver (below key)).toList) p t) :
    fields.OverlaidOrDefault below (fun p key => (given p key).find? (!·.isNull)) p t := by
  induction fields generalizing p with
  | nil => trivial
  | cons key d whenAbsent rest ih =>
    obtain ⟨a, t⟩ := t
    exact ⟨h.1.overlaidOrDefault (hgiven p key) (ht.imp And.left And.left),
      ih h.2 (ht.imp And.right And.right)⟩

/-- **Where a record comes from** that is read from a value, as it stands or laid over the defaults
of the fields. -/
theorem Base.overlaidOrDefault (h : fields.Base v) (hkeyed : u.Keyed)
    (hu : (fields.record build).Decodes u b ∨ (fields.record build).Decodes (v.overlay u) b) :
    ∃ t, build t = b ∧
      fields.OverlaidOrDefault (fun key => v.get? key) (fun p key => given? p key u) 0 t := by
  obtain ⟨hkeys, ⟨below, rfl, hbelow⟩, hdefaults⟩ := h
  rw [record_decodes_iff hkeys, record_decodes_iff hkeys] at hu
  obtain ⟨-, t, ht, hb⟩ | ⟨-, t, ht, hb⟩ := hu
  · exact ⟨t, hb, hdefaults.overlaidOrDefault_of_reads hkeyed (.inl ht)⟩
  · refine ⟨t, hb, hdefaults.overlaidOrDefault_of_reads hkeyed ?_⟩
    cases u with
    | object members => exact .inr (by simpa only [entries_overlay hbelow] using ht)
    | null | bool | number | string | array =>
      rw [overlay_eq_self (by simp)] at ht
      exact .inl ht

theorem Base.overlaidOrDefault_within {c : β} (h : fields.Base v)
    (hempty : (fields.record build).Decodes (.object []) b) {given : Option Json}
    (hkeyed : ∀ x ∈ given, x.Keyed)
    (hc : Json.OverlaidOrDefault (some v) (fields.record build) (some b) given c) :
    ∃ t, build t = c ∧
      fields.OverlaidOrDefault (fun key => v.get? key) (fun p key => given.bind (given? p key))
        0 t := by
  cases given with
  | none =>
    obtain rfl := Option.some.inj hc
    exact h.overlaidOrDefault (u := .object []) (fun _ _ => Nat.zero_le 1) (.inl hempty)
  | some x => exact h.overlaidOrDefault (hkeyed x rfl) hc

end Fields

/-! ### Canonical values -/

theorem keyed_canonical (j : Json) : j.canonical.Keyed := by
  intro p key
  cases j with
  | object members =>
    rw [canonical, entries, (ascending_ordered _).valuesAt_eq]
    exact Option.length_toList_le
  | array items =>
    rw [canonical, entries]
    exact Option.length_toList_le
  | null | bool | number | string => exact Nat.zero_le 1

theorem exists_canonical_of_given? {j : Json} {p : Nat} (h : given? p key j.canonical = some x) :
    ∃ i : Json, x = i.canonical := by
  have hmem := List.mem_of_find?_eq_some h
  cases j with
  | object members =>
    rw [canonical, entries, valuesAt_ordered, Option.mem_toList] at hmem
    have hlast := List.mem_of_getLast? hmem
    rw [canonicalMembers_eq_map] at hlast
    obtain ⟨m, -, hm⟩ := List.mem_map.mp (mem_of_mem_valuesAt hlast)
    exact ⟨m.2, (Prod.mk.inj hm).2.symm⟩
  | array items =>
    rw [canonical, entries, Option.mem_toList, canonicalItems_eq_map] at hmem
    obtain ⟨i, -, hi⟩ := List.mem_map.mp (List.mem_of_getElem? hmem)
    exact ⟨i, hi.symm⟩
  | null | bool | number | string => cases hmem

/-! ## Nulls -/

def dropNulls : Json → Json
  | .object members => .object (members.filter (!·.2.isNull))
  | u => u

def onMembers (f : Json → Json) : Json → Json
  | .object members => .object (members.map fun m => (m.1, f m.2))
  | u => u

theorem overlayMembers_filter (below above : List (String × Json)) :
    overlayMembers below (above.filter (!·.2.isNull)) = overlayMembers below above := by
  induction above generalizing below with
  | nil => rfl
  | cons m ms ih =>
    obtain ⟨key, j⟩ := m
    rw [overlayMembers_cons, overlayMembers_single, ← ih]
    split
    · next hnull => rw [List.filter_cons_of_neg (by simp [hnull])]
    · next hnull =>
      rw [List.filter_cons_of_pos (by simpa using hnull), overlayMembers_cons,
        overlayMembers_single, if_neg hnull]

theorem overlay_dropNulls (below : List (String × Json)) (u : Json) :
    overlay (.object below) u.dropNulls = overlay (.object below) u := by
  cases u with
  | object members => rw [dropNulls, overlay, overlay, overlayMembers_filter]
  | null | bool | number | string | array => rfl

theorem Fields.Base.overlay_dropNulls {fields : Fields αs} (h : fields.Base v) (u : Json) :
    v.overlay u.dropNulls = v.overlay u := by
  obtain ⟨-, ⟨below, rfl, -⟩, -⟩ := h
  exact Json.overlay_dropNulls below u

theorem layOver_dropNulls (below : List (String × Json)) (x : Json) :
    layOver (some (.object below)) x.dropNulls = layOver (some (.object below)) x := by
  have hnull : x.dropNulls.isNull = x.isNull := by cases x <;> rfl
  rw [layOver, layOver, hnull, overlaid, overlaid, overlay_dropNulls]

theorem foldl_layOver_dropNulls (below : List (String × Json)) {values : List Json}
    (h : values.length ≤ 1) :
    (values.map dropNulls).foldl layOver (some (.object below)) =
      values.foldl layOver (some (.object below)) := by
  rcases values with _ | ⟨x, _ | ⟨y, zs⟩⟩
  · rfl
  · exact layOver_dropNulls below x
  · simp at h

theorem Fields.Base.decodes_onMembers {fields : Fields αs} {build : Tuple αs → β} {b : β} {u : Json}
    (h : fields.Base v) (hrecords : ∀ key ∈ fields.keys, ∃ below, v.get? key = some (.object below))
    (hkeyed : u.Keyed) :
    (fields.record build).Decodes (v.overlay (u.onMembers dropNulls)) b ↔
      (fields.record build).Decodes (v.overlay u) b := by
  obtain ⟨hkeys, ⟨below, rfl, hbelow⟩, -⟩ := h
  cases u with
  | null | bool | number | string | array => exact Iff.rfl
  | object members =>
    have hsame : ∀ p, ∀ key ∈ fields.keys,
        entries p key ((Json.object below).overlay (onMembers dropNulls (.object members))) =
          entries p key ((Json.object below).overlay (.object members)) := by
      intro p key hkey
      obtain ⟨inner, hinner⟩ := hrecords key hkey
      have hvalues : (valuesAt key members).length ≤ 1 := hkeyed p key
      rw [onMembers, Fields.entries_overlay hbelow, Fields.entries_overlay hbelow, entries, entries,
        valuesAt_map, hinner, foldl_layOver_dropNulls inner hvalues]
    rw [Fields.record_decodes_iff hkeys, Fields.record_decodes_iff hkeys]
    refine and_congr ?_ (exists_congr fun t => and_congr_left' (Fields.reads_congr hsame 0 t))
    rw [onMembers, overlay, overlay]
    exact Iff.rfl

end AgentMemory.Json
