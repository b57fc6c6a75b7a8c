import AgentMemory.Conversation.Config
import Mathlib.Order.Basic

/-!
# Configurations, recorded and compared

A configuration is the same as itself, so once recorded it is the present one and is not recorded
again. It fits a log if its tools are those of the first system prompt, by name; a log without
events is fitted by every configuration.
-/

namespace AgentMemory

/-! ## Equality -/

namespace Json

theorem Number.same_refl (n : Number) : n.same n = true := by
  cases n with
  | int a => exact beq_self_eq_true a
  | float x => simp [Number.same, Binary64.same]

mutual
theorem same_refl : (j : Json) → j.same j = true
  | .null => rfl
  | .bool b => beq_self_eq_true b
  | .number n => n.same_refl
  | .string s => beq_self_eq_true s
  | .array items => sameItems_refl items
  | .object members => sameMembers_refl members
theorem sameItems_refl : (js : List Json) → sameItems js js = true
  | [] => rfl
  | j :: js => by rw [sameItems, same_refl j, sameItems_refl js]; rfl
theorem sameMembers_refl : (ms : List (String × Json)) → sameMembers ms ms = true
  | [] => rfl
  | (k, j) :: ms => by rw [sameMembers, same_refl j, sameMembers_refl ms, beq_self_eq_true]; rfl
end

end Json

namespace AgentConfig

theorem sameTools_refl (tools : List ToolSpec) : sameTools tools tools = true := by
  induction tools with
  | nil => rfl
  | cons t ts ih =>
    have hparameters : (t.parameters == t.parameters) = true := t.parameters.same_refl
    rw [sameTools, ih, ToolSpec.same, hparameters, beq_self_eq_true, beq_self_eq_true]
    rfl

theorem same_refl (c : AgentConfig) : c.same c = true := by
  simp [same, sameTools_refl]

end AgentConfig

/-! ## The history -/

namespace BaseState

variable (b : BaseState) (config : AgentConfig) (now later : Timestamp)

@[simp] theorem id_record : (b.record config now).id = b.id := by
  unfold record
  split <;> rfl

theorem history_record : (b.record config now).history =
    b.history ++ if b.isCurrent config then [] else [⟨now, config⟩] := by
  unfold record
  split
  · rw [List.append_nil]
  · rfl

variable {b config} in
theorem record_of_isCurrent (h : b.isCurrent config = true) : b.record config now = b := by
  rw [record, if_pos h]

theorem isCurrent_record : (b.record config now).isCurrent config = true := by
  unfold record
  split
  · assumption
  · simp [isCurrent, current?, AgentConfig.same_refl]

theorem record_record : (b.record config now).record config later = b.record config now :=
  record_of_isCurrent later (b.isCurrent_record config now)

end BaseState

/-! ## Tools -/

theorem mem_insertText {x s : String} {l : List String} : x ∈ insertText s l ↔ x = s ∨ x ∈ l := by
  induction l with
  | nil => simp [insertText]
  | cons y ys ih =>
    rw [insertText]
    split
    · simp
    · split
      · rw [List.mem_cons, ih, List.mem_cons, or_left_comm]
      · rename_i hlt hgt
        have heq : s = y := String.le_antisymm (String.not_lt.mp hgt) (String.not_lt.mp hlt)
        rw [heq, List.mem_cons, ← or_assoc, or_self]

theorem mem_distinctTexts {x : String} {l : List String} : x ∈ distinctTexts l ↔ x ∈ l := by
  have hfold : ∀ acc : List String,
      x ∈ l.foldl (fun acc s => insertText s acc) acc ↔ x ∈ acc ∨ x ∈ l := by
    induction l with
    | nil => simp
    | cons s ss ih =>
      intro acc
      rw [List.foldl_cons, ih, mem_insertText, List.mem_cons, or_comm (a := x = s), or_assoc]
  rw [distinctTexts, hfold, or_iff_right List.not_mem_nil]

/-- The tools of a configuration are those of a system prompt, by name. -/
def SystemPrompt.Offers (p : SystemPrompt) (config : AgentConfig) : Prop :=
  ∀ name, name ∈ p.tools.map (·.name) ↔ name ∈ config.tools.map (·.name)

/-- A configuration fits a log: there is no event, or there is a system prompt, and the first one
has the tools of the configuration. -/
def AgentConfig.Fits (config : AgentConfig) (log : List Event) : Prop :=
  log = [] ∨ ∃ p, recordedPrompt? log = some p ∧ p.Offers config

theorem isEmpty_filter_notMem_iff {xs ys : List String} :
    (xs.filter (· ∉ ys)).isEmpty = true ↔ ∀ x ∈ xs, x ∈ ys := by
  simp only [List.isEmpty_iff, List.filter_eq_nil_iff, decide_eq_true_eq, not_not]

theorem checkTools_eq_ok_iff {p : SystemPrompt} {config : AgentConfig} :
    checkTools p config = .ok () ↔ p.Offers config := by
  unfold checkTools SystemPrompt.Offers AgentConfig.toolNames
  dsimp only
  split
  · next h =>
    rw [Bool.and_eq_true, isEmpty_filter_notMem_iff, isEmpty_filter_notMem_iff] at h
    simp only [mem_distinctTexts] at h
    exact iff_of_true rfl fun name => ⟨h.2 name, h.1 name⟩
  · next h =>
    rw [Bool.and_eq_true, isEmpty_filter_notMem_iff, isEmpty_filter_notMem_iff] at h
    simp only [mem_distinctTexts] at h
    exact iff_of_false (fun heq => nomatch heq)
      fun hsame => h ⟨fun name => (hsame name).mpr, fun name => (hsame name).mp⟩

theorem checkToolCompatibility_eq_ok_iff {config : AgentConfig} {log : List Event} :
    checkToolCompatibility log config = .ok () ↔ config.Fits log := by
  unfold checkToolCompatibility AgentConfig.Fits
  split
  · next hempty => simp [List.isEmpty_iff.mp hempty]
  · next hne =>
    rw [List.isEmpty_iff] at hne
    cases hp : recordedPrompt? log with
    | none => simp [hne]
    | some p =>
      rw [checkTools_eq_ok_iff]
      exact ⟨fun h => .inr ⟨p, rfl, h⟩,
        fun h => by
          obtain ⟨q, hq, hoffers⟩ := h.resolve_left hne
          exact Option.some.inj hq ▸ hoffers⟩

end AgentMemory
