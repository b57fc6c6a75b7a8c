import AgentMemory.Json.Value

/-!
# Induction, depth and numbers of JSON values
-/

namespace AgentMemory.Json

/-! ## Induction over values -/

/-- Induction with the hypothesis for every item of an array and every member of an object. -/
theorem induct {motive : Json → Prop} (null : motive .null) (bool : ∀ b, motive (.bool b))
    (number : ∀ n, motive (.number n)) (string : ∀ s, motive (.string s))
    (array : ∀ items, (∀ j ∈ items, motive j) → motive (.array items))
    (object : ∀ members, (∀ m ∈ members, motive m.2) → motive (.object members)) (j : Json) :
    motive j := by
  refine @Json.rec motive (fun items => ∀ j ∈ items, motive j)
    (fun members => ∀ m ∈ members, motive m.2) (fun m => motive m.2)
    null bool number string array object ?_ ?_ ?_ ?_ ?_ j
  · intro j h
    cases h
  · intro j items hj hitems
    exact List.forall_mem_cons.mpr ⟨hj, hitems⟩
  · intro m h
    cases h
  · intro m members hm hmembers
    exact List.forall_mem_cons.mpr ⟨hm, hmembers⟩
  · intro k j hj
    exact hj

/-! ## Depth and numbers of a value -/

mutual
def depth : Json → Nat
  | .array items => depthItems items + 1
  | .object members => depthMembers members + 1
  | .null | .bool _ | .number _ | .string _ => 0
def depthItems : List Json → Nat
  | [] => 0
  | j :: js => max j.depth (depthItems js)
def depthMembers : List (String × Json) → Nat
  | [] => 0
  | (_, j) :: ms => max j.depth (depthMembers ms)
end

mutual
def numbers : Json → List Number
  | .number n => [n]
  | .array items => numbersItems items
  | .object members => numbersMembers members
  | .null | .bool _ | .string _ => []
def numbersItems : List Json → List Number
  | [] => []
  | j :: js => j.numbers ++ numbersItems js
def numbersMembers : List (String × Json) → List Number
  | [] => []
  | (_, j) :: ms => j.numbers ++ numbersMembers ms
end

theorem mem_numbersItems {items : List Json} {j : Json} {n : Number} (hj : j ∈ items)
    (hn : n ∈ j.numbers) : n ∈ numbersItems items := by
  induction items with
  | nil => cases hj
  | cons i items ih =>
    rw [numbersItems, List.mem_append]
    rcases List.mem_cons.mp hj with rfl | hj
    · exact .inl hn
    · exact .inr (ih hj)

theorem exists_of_mem_numbersItems {items : List Json} {n : Number} (hn : n ∈ numbersItems items) :
    ∃ j ∈ items, n ∈ j.numbers := by
  induction items with
  | nil => cases hn
  | cons i items ih =>
    rw [numbersItems, List.mem_append] at hn
    rcases hn with hn | hn
    · exact ⟨i, List.mem_cons_self, hn⟩
    · obtain ⟨j, hj, hn⟩ := ih hn
      exact ⟨j, List.mem_cons_of_mem i hj, hn⟩

theorem depthItems_le {items : List Json} {d : Nat} (h : ∀ j ∈ items, j.depth ≤ d) :
    depthItems items ≤ d := by
  induction items with
  | nil => exact Nat.zero_le d
  | cons i items ih =>
    have hi : i.depth ≤ d := h i List.mem_cons_self
    have hitems : depthItems items ≤ d := ih fun j hj => h j (List.mem_cons_of_mem i hj)
    exact Nat.max_le.mpr ⟨hi, hitems⟩

theorem mem_numbersMembers {members : List (String × Json)} {m : String × Json} {n : Number}
    (hm : m ∈ members) (hn : n ∈ m.2.numbers) : n ∈ numbersMembers members := by
  induction members with
  | nil => cases hm
  | cons i members ih =>
    rw [numbersMembers, List.mem_append]
    rcases List.mem_cons.mp hm with rfl | hm
    · exact .inl hn
    · exact .inr (ih hm)

end AgentMemory.Json
