import AgentMemory.Json.Record
import AgentMemory.Proofs.Json.Value
import Mathlib.Data.List.Basic

/-!
# Decoders of written values

A value has no fault, so its document gives it back, and a decoder reads it as what it stands for
(`Decodes`).
-/

namespace AgentMemory.Json

theorem key_of_mem_member? {key : String} {value : Option Json} {m : String × Json}
    (h : m ∈ member? key value) : m.1 = key := by
  cases value with
  | none => cases h
  | some j => rw [List.mem_singleton.mp h]

/-! ## The document of a value -/

theorem Doc.content_ofJson (j : Json) : (Doc.ofJson j).content = .ok j := by
  induction j using Json.induct with
  | null => rfl
  | bool b => rfl
  | number n => rfl
  | string s => rfl
  | array items ih =>
    have hitems : Doc.contentItems (Doc.ofItems items) = .ok items := by
      induction items with
      | nil => rfl
      | cons j js ihs =>
        have hj := ih j List.mem_cons_self
        have hjs := ihs fun i hi => ih i (List.mem_cons_of_mem j hi)
        rw [Doc.ofItems, Doc.contentItems, hj, hjs]
        rfl
    rw [Doc.ofJson, Doc.content, hitems]
    rfl
  | object members ih =>
    have hmembers : Doc.contentMembers (Doc.ofMembers members) = .ok members := by
      induction members with
      | nil => rfl
      | cons m ms ihs =>
        obtain ⟨k, j⟩ := m
        have hj : (Doc.ofJson j).content = .ok j := ih (k, j) List.mem_cons_self
        have hms := ihs fun m hm => ih m (List.mem_cons_of_mem _ hm)
        rw [Doc.ofMembers, Doc.contentMembers, hj, hms]
        rfl
    rw [Doc.ofJson, Doc.content, hmembers]
    rfl

theorem Doc.skip_ofJson (j : Json) : (Doc.ofJson j).skip = .ok () := by
  induction j using Json.induct with
  | null | bool | number | string => rfl
  | array items ih =>
    have hitems : Doc.skipItems (Doc.ofItems items) = .ok () := by
      induction items with
      | nil => rfl
      | cons j js ihs =>
        rw [Doc.ofItems, Doc.skipItems, ih j List.mem_cons_self]
        exact ihs fun i hi => ih i (List.mem_cons_of_mem j hi)
    rw [Doc.ofJson, Doc.skip, hitems]
    rfl
  | object members ih =>
    have hmembers : Doc.skipMembers (Doc.ofMembers members) = .ok () := by
      induction members with
      | nil => rfl
      | cons m ms ihs =>
        obtain ⟨k, j⟩ := m
        have hj : (Doc.ofJson j).skip = .ok () := ih (k, j) List.mem_cons_self
        rw [Doc.ofMembers, Doc.skipMembers, hj]
        exact ihs fun m hm => ih m (List.mem_cons_of_mem _ hm)
    rw [Doc.ofJson, Doc.skip, hmembers]
    rfl

namespace Decoder

variable {α β : Type}

/-- The decoder reads the value `j` as `a`. -/
def Decodes (d : Decoder α) (j : Json) (a : α) : Prop := d (Doc.ofJson j) = .ok a

theorem ofJson_eq_ok_iff {d : Decoder α} {j : Json} {a : α} :
    d.ofJson j = .ok a ↔ d.Decodes j a := by
  rw [Decoder.ofJson, ofJson?, Decodes]
  cases d (Doc.ofJson j) <;> simp

theorem ofJson_congr {d : Decoder α} {i j : Json} (h : ∀ a, d.Decodes i a ↔ d.Decodes j a) :
    d.ofJson i = d.ofJson j := by
  have hok : ∀ a, d.ofJson i = .ok a ↔ d.ofJson j = .ok a := fun a => by
    rw [ofJson_eq_ok_iff, ofJson_eq_ok_iff, h]
  rw [Decoder.ofJson, Decoder.ofJson] at hok ⊢
  cases hi : d.ofJson? i with
  | some a => simpa [hi, eq_comm] using hok a
  | none =>
    cases hj : d.ofJson? j with
    | none => rfl
    | some a => simpa [hi, hj] using hok a

theorem decodes_string (s : String) : string.Decodes (.string s) s := rfl

theorem string_ne_null (s : String) : Doc.ofJson (.string s) ≠ .null := by
  simp [Doc.ofJson]

theorem decodes_json {j : Json} (h : j.canonical = j) : json.Decodes j j := by
  show (Doc.ofJson j).content.map canonical = .ok j
  rw [Doc.content_ofJson, Except.map, h]

theorem Decodes.map {d : Decoder α} {j : Json} {a : α} (h : d.Decodes j a) (f : α → β) :
    (d.map f).Decodes j (f a) := by
  show (d (Doc.ofJson j)).map f = .ok (f a)
  rw [h, Except.map]

theorem Decodes.parsed {f : String → Option α} {s : String} {a : α} (h : f s = some a) :
    (parsed f).Decodes (.string s) a := by
  unfold Decodes Decoder.parsed
  show Except.bind (.ok s) _ = _
  rw [Except.bind, h]

theorem Decodes.option {d : Decoder α} {j : Json} {a : α} (h : d.Decodes j a)
    (hj : Doc.ofJson j ≠ .null) : d.option.Decodes j (some a) := by
  have hoption : d.option (Doc.ofJson j) = (d (Doc.ofJson j)).map some := by
    unfold Decoder.option
    split
    · next heq => exact absurd heq hj
    · rfl
  rw [Decodes, hoption, h, Except.map]

theorem Decodes.list {d : Decoder α} {f : α → Json} {as : List α}
    (h : ∀ a ∈ as, d.Decodes (f a) a) : (Decoder.list d).Decodes (.array (as.map f)) as := by
  have hitems : items d (Doc.ofItems (as.map f)) = .ok as := by
    induction as with
    | nil => rfl
    | cons a as ih =>
      have ha : d (Doc.ofJson (f a)) = .ok a := h a List.mem_cons_self
      have has := ih fun b hb => h b (List.mem_cons_of_mem a hb)
      rw [List.map_cons, Doc.ofItems, items, ha, has]
      rfl
  rw [Decodes, Doc.ofJson, Decoder.list, hitems]
  rfl

theorem Decodes.tagged {tag name : String} {pick : Doc → Except Fault (Decoder α)}
    {d : Decoder α} {members : List (String × Json)} {a : α}
    (hpick : pick (.text (some name)) = .ok d) (htag : ∀ m ∈ members, m.1 ≠ tag)
    (h : d.Decodes (.object members) a) :
    (taggedWith tag pick).Decodes (.object ((tag, .string name) :: members)) a := by
  have hmembers : tagMembers tag pick (some d) (Doc.ofMembers members) = .ok (some d, members) := by
    clear h
    induction members with
    | nil => rfl
    | cons m ms ih =>
      obtain ⟨k, j⟩ := m
      have hk : (k == tag) = false := beq_eq_false_iff_ne.mpr (htag (k, j) List.mem_cons_self)
      have hms := ih fun m hm => htag m (List.mem_cons_of_mem _ hm)
      simp only [Doc.ofMembers, tagMembers, Doc.keyText, Except.mapError, bind, Except.bind, hk,
        Bool.false_eq_true, if_false, Doc.content_ofJson, hms]
      rfl
  have hall : tagMembers tag pick none (Doc.ofMembers ((tag, .string name) :: members)) =
      .ok (some d, members) := by
    simp only [Doc.ofMembers, Doc.ofJson, tagMembers, Doc.keyText, Except.mapError, bind,
      Except.bind, beq_self_eq_true, if_true, Option.isSome_none, Bool.false_eq_true, if_false,
      hpick, hmembers]
  rw [Decodes, Doc.ofJson, taggedWith, hall]
  exact ofJson_eq_ok_iff.mpr h

end Decoder
end AgentMemory.Json
