import AgentMemory.Json.Value
import Mathlib.Data.List.Induction

/-!
# Members of objects

An object gives a key the values of all members that have it (`valuesAt`). When the keys stand in
increasing order (`Ascending`), that is one value at most, and putting in a member makes a
difference at its own key only. Members that are put in key order keep the last value of each key.
-/

namespace AgentMemory.Json

variable {key k : String} {value : Json} {members below : List (String × Json)}

/-! ## Values of a key -/

/-- The values of a key in turn. -/
def valuesAt (key : String) (members : List (String × Json)) : List Json :=
  (members.filter (·.1 == key)).map (·.2)

theorem valuesAt_cons_self {key : String} {j : Json} {members : List (String × Json)} :
    valuesAt key ((key, j) :: members) = j :: valuesAt key members := by
  simp [valuesAt]

theorem valuesAt_cons_of_ne {key : String} {m : String × Json} {members : List (String × Json)}
    (h : m.1 ≠ key) : valuesAt key (m :: members) = valuesAt key members := by
  simp [valuesAt, h]

theorem valuesAt_eq_nil (h : ∀ m ∈ members, m.1 ≠ key) : valuesAt key members = [] := by
  rw [valuesAt, List.map_eq_nil_iff, List.filter_eq_nil_iff]
  exact fun m hm => by simpa using h m hm

theorem valuesAt_append (key : String) (ms ns : List (String × Json)) :
    valuesAt key (ms ++ ns) = valuesAt key ms ++ valuesAt key ns := by
  simp [valuesAt]

theorem mem_of_mem_valuesAt {x : Json} (h : x ∈ valuesAt key members) : (key, x) ∈ members := by
  obtain ⟨m, hm, rfl⟩ := List.mem_map.mp h
  obtain ⟨hm, hkey⟩ := List.mem_filter.mp hm
  rwa [← eq_of_beq hkey]

theorem valuesAt_map (f : Json → Json) (key : String) (members : List (String × Json)) :
    valuesAt key (members.map fun m => (m.1, f m.2)) = (valuesAt key members).map f := by
  simp [valuesAt, List.filter_map, Function.comp_def]

/-! ## Members in key order -/

/-- The keys stand in strictly increasing order. -/
def Ascending (members : List (String × Json)) : Prop := members.Pairwise (·.1 < ·.1)

theorem mem_insertMember {m : String × Json} (h : m ∈ insertMember key value members) :
    m = (key, value) ∨ m ∈ members := by
  induction members with
  | nil => exact .inl (List.mem_singleton.mp h)
  | cons n ns ih =>
    obtain ⟨k, v⟩ := n
    rw [insertMember] at h
    split at h
    · exact List.mem_cons.mp h
    · split at h
      · obtain rfl | h := List.mem_cons.mp h
        · exact .inr List.mem_cons_self
        · exact (ih h).imp_right (List.mem_cons_of_mem _)
      · exact (List.mem_cons.mp h).imp_right (List.mem_cons_of_mem _)

theorem Ascending.insertMember (h : Ascending members) :
    Ascending (insertMember key value members) := by
  induction members with
  | nil => exact List.pairwise_singleton _ _
  | cons m ms ih =>
    obtain ⟨k, v⟩ := m
    obtain ⟨hfirst, hrest⟩ := List.pairwise_cons.mp h
    rw [Json.insertMember]
    split
    · next hlt =>
      refine List.pairwise_cons.mpr ⟨fun m hm => ?_, h⟩
      obtain rfl | hm := List.mem_cons.mp hm
      · exact hlt
      · exact String.lt_trans hlt (hfirst m hm)
    · split
      · next hgt =>
        refine List.pairwise_cons.mpr ⟨fun m hm => ?_, ih hrest⟩
        obtain rfl | hm := mem_insertMember hm
        · exact hgt
        · exact hfirst m hm
      · next hlt hgt =>
        obtain rfl : k = key := String.le_antisymm (String.not_lt.mp hlt) (String.not_lt.mp hgt)
        exact List.pairwise_cons.mpr ⟨hfirst, hrest⟩

theorem Ascending.valuesAt_of_le {m : String × Json} (h : Ascending (m :: members))
    (hkey : key ≤ m.1) : valuesAt key members = [] :=
  valuesAt_eq_nil fun n hn heq =>
    absurd (heq ▸ (List.pairwise_cons.mp h).1 n hn) (String.not_lt.mpr hkey)

theorem Ascending.valuesAt_insertMember (h : Ascending members) :
    valuesAt k (Json.insertMember key value members) =
      if k = key then [value] else valuesAt k members := by
  induction members with
  | nil =>
    by_cases hk : k = key
    · simp [Json.insertMember, valuesAt, hk]
    · simp [Json.insertMember, valuesAt, hk, Ne.symm hk]
  | cons m ms ih =>
    obtain ⟨first, v⟩ := m
    rw [Json.insertMember]
    split
    · next hlt =>
      have hne : first ≠ key := fun heq => String.lt_irrefl first (heq ▸ hlt)
      by_cases hk : k = key
      · rw [if_pos hk, hk, valuesAt_cons_self, valuesAt_cons_of_ne hne,
          h.valuesAt_of_le (String.not_lt.mp (String.lt_asymm hlt))]
      · rw [if_neg hk, valuesAt_cons_of_ne (Ne.symm hk)]
    · split
      · next hgt =>
        by_cases hk : k = first
        · subst hk
          have hne : k ≠ key := fun heq => String.lt_irrefl k (by rwa [← heq] at hgt)
          rw [if_neg hne, valuesAt_cons_self, valuesAt_cons_self, ih h.of_cons, if_neg hne]
        · rw [valuesAt_cons_of_ne (Ne.symm hk), valuesAt_cons_of_ne (Ne.symm hk), ih h.of_cons]
      · next hlt hgt =>
        obtain rfl : first = key := String.le_antisymm (String.not_lt.mp hlt) (String.not_lt.mp hgt)
        by_cases hk : k = first
        · rw [if_pos hk, hk, valuesAt_cons_self, h.valuesAt_of_le (String.le_refl _)]
        · rw [if_neg hk, valuesAt_cons_of_ne (Ne.symm hk), valuesAt_cons_of_ne (Ne.symm hk)]

theorem Ascending.foldl_insertMember (h : Ascending below) (members : List (String × Json)) :
    Ascending (members.foldl (fun acc m => Json.insertMember m.1 m.2 acc) below) := by
  induction members generalizing below with
  | nil => exact h
  | cons m ms ih => exact ih h.insertMember

theorem ascending_ordered (members : List (String × Json)) : Ascending (ordered members) :=
  Ascending.foldl_insertMember .nil members

theorem valuesAt_ordered (key : String) (members : List (String × Json)) :
    valuesAt key (ordered members) = (valuesAt key members).getLast?.toList := by
  induction members using List.reverseRecOn with
  | nil => rfl
  | append_singleton ms m ih =>
    have hlast : ordered (ms ++ [m]) = Json.insertMember m.1 m.2 (ordered ms) := by
      rw [ordered, List.foldl_append]
      rfl
    rw [hlast, (ascending_ordered ms).valuesAt_insertMember, valuesAt_append,
      List.getLast?_append, ih]
    by_cases hkey : key = m.1
    · simp [hkey, valuesAt]
    · simp [hkey, valuesAt, Ne.symm hkey]

theorem get?_object (key : String) (members : List (String × Json)) :
    (Json.object members).get? key = (valuesAt key members).head? := by
  rw [get?, valuesAt, List.head?_map, List.head?_filter]

theorem Ascending.get?_insertMember (h : Ascending members) :
    (Json.object (Json.insertMember key value members)).get? k =
      if k = key then some value else (Json.object members).get? k := by
  rw [get?_object, h.valuesAt_insertMember, get?_object]
  split <;> rfl

theorem Ascending.valuesAt_eq (h : Ascending members) (key : String) :
    valuesAt key members = ((Json.object members).get? key).toList := by
  rw [get?_object]
  induction members with
  | nil => rfl
  | cons m ms ih =>
    obtain ⟨k, v⟩ := m
    by_cases hk : k = key
    · subst hk
      rw [valuesAt_cons_self, h.valuesAt_of_le (String.le_refl _)]
      rfl
    · rw [valuesAt_cons_of_ne hk]
      exact ih h.of_cons

end AgentMemory.Json
