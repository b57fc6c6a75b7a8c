import AgentMemory.Event.Codec
import AgentMemory.Proofs.Json.Fields
import AgentMemory.Proofs.Json.Written
import AgentMemory.Proofs.Timestamp

/-!
# Stored events are read back

Every part of an event is read from its written form as itself, and so is the event from its text in
either layout.
-/

namespace AgentMemory

open Json (Decoder Fields)
open Json.Decoder (decodes_string decodes_json string_ne_null)

/-! ## Identifiers and enumerations -/

theorem EventId.decodes (id : EventId) : EventId.decoder.Decodes id.toJson id := rfl

theorem ToolCallId.decodes (id : ToolCallId) : ToolCallId.decoder.Decodes id.toJson id := rfl

theorem BatchId.decodes (id : BatchId) : BatchId.decoder.Decodes id.toJson id := rfl

theorem Source.decodes (s : Source) : Source.decoder.Decodes s.toJson s := by
  cases s <;> rfl

theorem Role.decodes (r : Role) : Role.decoder.Decodes r.toJson r := by
  cases r <;> rfl

/-! ## Parts of events -/

theorem ToolSpec.decodes {t : ToolSpec} (h : t.parameters.canonical = t.parameters) :
    ToolSpec.decoder.Decodes t.toJson t := by
  unfold ToolSpec.decoder
  apply Fields.Given.decodes
  · exact .given (decodes_string _) (.given (decodes_string _) (.given (decodes_json h) .nil))
  · decide
  · rfl

theorem ToolPayload.decodes {p : ToolPayload} (h : p.data.canonical = p.data) :
    ToolPayload.decoder.Decodes p.toJson p := by
  unfold ToolPayload.decoder
  apply Fields.Given.decodes
  · exact .given (decodes_string _) (.given (decodes_json h) .nil)
  · decide
  · rfl

theorem ReasoningBlock.decodes (b : ReasoningBlock) :
    (Decoder.taggedWithin "type" ReasoningBlock.cases).Decodes b.toJson b := by
  cases b with
  | thinking text signature =>
    apply Fields.Given.tagged
    · rfl
    · apply Fields.Given.given (decodes_string _)
      exact .lastMember? (fun s _ => decodes_string s) fun s _ => string_ne_null s
    · decide
    · rfl
  | redacted data =>
    apply Fields.Given.tagged
    · rfl
    · exact .given (decodes_string _) .nil
    · decide
    · rfl

theorem ReasoningBlock.given {blocks : List ReasoningBlock} {αs : List Type} {rest : Fields αs}
    {members : List (String × Json)} {t : Json.Tuple αs} (further : Fields.Given rest members t) :
    Fields.Given
      (.defaulted "reasoning_blocks" (.list (.taggedWithin "type" ReasoningBlock.cases)) [] rest)
      (Json.member? "reasoning_blocks" (if blocks.isEmpty then none
        else some (.array (blocks.map ReasoningBlock.toJson))) ++ members) (blocks, t) := by
  cases blocks with
  | nil => exact .absent further
  | cons b bs => exact .given (.list fun b _ => ReasoningBlock.decodes b) further

theorem Condensation.offset_lt {c : Condensation} (h : ∀ n ∈ c.toJson.numbers, n.Legible) :
    ∀ n ∈ c.offset, n < Nat.pow 2 64 := by
  intro n hn
  have hmem : Json.Number.int n ∈ c.toJson.numbers := by
    have hoffset : c.offset = some n := hn
    have hmembers : ("summary_offset", Json.nat n) ∈ c.members := by
      simp [Condensation.members, Json.member?, hoffset]
    exact Json.mem_numbersMembers hmembers (List.mem_singleton.mpr rfl)
  exact Int.ofNat_lt.mp (h _ hmem).2

theorem Json.Decoder.decodes_nat {n : Nat} (h : n < Nat.pow 2 64) :
    Decoder.nat.Decodes (.nat n) n := by
  have hrange : (0 : Int) ≤ n ∧ (n : Int) < Nat.pow 2 64 :=
    ⟨Int.natCast_nonneg n, Int.ofNat_lt.mpr h⟩
  show (if (0 : Int) ≤ n ∧ (n : Int) < Nat.pow 2 64 then Except.ok (n : Int).toNat
    else Except.error Json.Fault.mismatch) = .ok n
  rw [if_pos hrange, Int.toNat_natCast]

theorem Condensation.decodes {c : Condensation} (h : ∀ n ∈ c.toJson.numbers, n.Legible) :
    Condensation.decoder.Decodes c.toJson c := by
  have hoffset := Condensation.offset_lt h
  unfold Condensation.decoder Condensation.toJson Condensation.members
  simp only [List.append_assoc]
  apply Fields.Given.decodes
  · apply Fields.Given.given (.list fun id _ => EventId.decodes id)
    apply Fields.Given.member? (fun s _ => decodes_string s) (fun s _ => string_ne_null s)
    apply Fields.Given.member? (fun n hn => Json.Decoder.decodes_nat (hoffset n hn))
      (fun _ _ => by simp [Json.nat, Json.Doc.ofJson])
    exact .lastMember? (fun id _ => BatchId.decodes id) fun id _ => string_ne_null id.text
  · decide
  · rfl

/-! ## Bodies -/

/-- The free JSON of a body: what the tools take, and what a tool call hands over. -/
def Body.freeJson : Body → List Json
  | systemPrompt p => p.tools.map (·.parameters)
  | action a => [a.payload.data]
  | _ => []

theorem Body.decodes_action {a : Action} (h : a.payload.data.canonical = a.payload.data) :
    Body.decoder.Decodes (Body.action a).toJson (.action a) := by
  obtain ⟨batch, call, tool, reasoning, payload⟩ := a
  apply Fields.Given.tagged
  · rfl
  · apply Fields.Given.given (BatchId.decodes batch)
    apply Fields.Given.given (ToolCallId.decodes call)
    apply Fields.Given.given (decodes_string tool)
    exact ReasoningBlock.given (.given (ToolPayload.decodes h) .nil)
  · decide
  · rfl

theorem Body.decodes {b : Body} (hfree : ∀ j ∈ b.freeJson, j.canonical = j)
    (hnumbers : ∀ n ∈ b.toJson.numbers, n.Legible) : Body.decoder.Decodes b.toJson b := by
  cases b with
  | systemPrompt p =>
    have htools : ∀ t ∈ p.tools, ToolSpec.decoder.Decodes t.toJson t := fun t ht =>
      ToolSpec.decodes (hfree _ (List.mem_map_of_mem ht))
    apply Fields.Given.tagged
    · rfl
    · exact .given (decodes_string _) (.given (.list htools) .nil)
    · decide
    · rfl
  | message m =>
    apply Fields.Given.tagged
    · rfl
    · apply Fields.Given.given (Role.decodes _)
      apply Fields.Given.given (decodes_string _)
      exact .lastMember? (fun id _ => BatchId.decodes id) fun id _ => string_ne_null id.text
    · decide
    · rfl
  | action a => exact Body.decodes_action (hfree _ (List.mem_singleton.mpr rfl))
  | observation o =>
    apply Fields.Given.tagged
    · rfl
    · apply Fields.Given.given (ToolCallId.decodes _)
      apply Fields.Given.given (EventId.decodes _)
      exact .given (decodes_string _) (.given (decodes_string _) .nil)
    · decide
    · rfl
  | agentError e =>
    apply Fields.Given.tagged
    · rfl
    · apply Fields.Given.given (ToolCallId.decodes _)
      apply Fields.Given.given (EventId.decodes _)
      exact .given (decodes_string _) (.given (decodes_string _) (.given rfl .nil))
    · decide
    · rfl
  | condensation c =>
    have hc : ∀ n ∈ c.toJson.numbers, n.Legible := fun n hn => hnumbers n hn
    have hkeys : ∀ m ∈ c.members, m.1 ≠ "type" := by
      intro m hm
      simp only [Condensation.members, List.mem_cons, List.mem_append] at hm
      rcases hm with rfl | (hm | hm) | hm
      · simp
      all_goals
        rw [Json.key_of_mem_member? hm]
        decide
    exact Decoder.Decodes.tagged rfl hkeys ((Condensation.decodes hc).map _)
  | condensationRequest reason =>
    apply Fields.Given.tagged
    · rfl
    · exact .lastMember? (fun s _ => decodes_string s) fun s _ => string_ne_null s
    · decide
    · rfl
  | condensationSummary summary =>
    apply Fields.Given.tagged
    · rfl
    · exact .given (decodes_string _) .nil
    · decide
    · rfl

/-! ## Events -/

namespace Event

/-- An event as the stored form can hold it: its year has four digits, its free JSON is in canonical
form, each of its numbers reads back and its containers stay within the depth that is read. -/
structure Storable (e : Event) : Prop where
  time : e.time.FourDigitYear
  freeJson : ∀ j ∈ e.body.freeJson, j.canonical = j
  numbers : ∀ n ∈ e.toJson.numbers, n.Legible
  depth : e.toJson.depth ≤ Json.Doc.maxDepth

theorem Storable.decodes {e : Event} (h : e.Storable) : Event.decoder.Decodes e.toJson e := by
  have hbody : Body.decoder.Decodes e.body.toJson e.body := by
    apply Body.decodes h.freeJson
    intro n hn
    have hmem : ("kind", e.body.toJson) ∈ [("id", e.id.toJson), ("timestamp", e.time.toJson),
        ("source", e.source.toJson), ("kind", e.body.toJson)] := by simp
    exact h.numbers n (Json.mem_numbersMembers hmem hn)
  unfold Event.decoder
  apply Fields.Given.decodes
  · apply Fields.Given.given (EventId.decodes _)
    apply Fields.Given.given (.parsed (Timestamp.parse_text h.time))
    exact .given (Source.decodes _) (.given hbody .nil)
  · decide
  · rfl

/-- The text of an event in a layout that adds only blanks is read as the event. -/
theorem Storable.ofText_write {e : Event} (h : e.Storable) {l : Json.Layout} (hl : l.Plain) :
    Decoder.ofText Event.decoder (String.ofList (e.toJson.write l 0)) = .ok e := by
  rw [Decoder.ofText, Json.Doc.parse_write hl h.numbers h.depth]
  show (do let a ← Event.decoder (Json.Doc.ofJson e.toJson); .ok a) = .ok e
  rw [h.decodes]
  rfl

/-- **Stored events** are read back, from the text without blanks and from the one with an entry a
line. -/
theorem ofText_compact_and_pretty {e : Event} (h : e.Storable) :
    Decoder.ofText Event.decoder e.toJson.compact = .ok e ∧
      Decoder.ofText Event.decoder e.toJson.pretty = .ok e :=
  ⟨h.ofText_write Json.Layout.compact_plain, h.ofText_write Json.Layout.pretty_plain⟩

/-- A tool call with reasoning of both kinds, a quote, a backslash, a control character and letters
that are not ASCII, and with a payload that holds a number with a fraction. -/
def quotedCall : Event where
  id := ⟨"c\"1\""⟩
  time := ⟨2024, 2, 29, 23, 59, 60, 120000⟩
  source := .agent
  body := .action {
    batch := ⟨"b\\"⟩, call := ⟨"1"⟩, tool := "größer"
    reasoning := [.thinking "so\n" none, .redacted "\x01"]
    payload := ⟨"shell", .object [("limit", .number (.float ⟨false, 3 * 2 ^ 51, -52⟩)),
      ("retries", .array [.int (-1), .null])]⟩ }

theorem storable_quotedCall : quotedCall.Storable where
  time := ⟨by decide, by decide, by decide⟩
  freeJson := by
    intro j hj
    rw [List.mem_singleton.mp hj]
    with_unfolding_all rfl
  numbers := by
    have hwritten : (Binary64.mk false (3 * 2 ^ 51) (-52)).write = ['1', '.', '5'] := by
      decide +kernel
    have hnumbers : quotedCall.toJson.numbers =
        [.float ⟨false, 3 * 2 ^ 51, -52⟩, .int (-1)] := by
      with_unfolding_all rfl
    rw [hnumbers, List.forall_mem_cons, List.forall_mem_singleton]
    constructor
    · show Json.ofText (String.ofList (Binary64.write _)) = _
      rw [hwritten]
      with_unfolding_all rfl
    · exact ⟨by decide, by decide⟩
  depth := by decide

theorem ofText_compact_and_pretty_quotedCall : quotedCall.Storable ∧
    Decoder.ofText Event.decoder quotedCall.toJson.compact = .ok quotedCall ∧
      Decoder.ofText Event.decoder quotedCall.toJson.pretty = .ok quotedCall :=
  ⟨storable_quotedCall, ofText_compact_and_pretty storable_quotedCall⟩

end Event
end AgentMemory
