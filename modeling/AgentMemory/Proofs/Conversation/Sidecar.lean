import AgentMemory.Proofs.Conversation.Restore
import AgentMemory.Proofs.Event.Codec
import AgentMemory.Proofs.Json.Canonical

/-!
# The sidecar is read back

A state that a document can hold is read from its document, and from the canonical form of it in
which a text is read. So what a storage has written as its sidecar is read as the state that was
written; in a directory this takes a text within the limits of what is read.
-/

namespace AgentMemory

open Json (Decoder Fields)
open Json.Decoder (Admits admits_string admits_json decodes_string decodes_nat string_ne_null)

/-! ## Configurations -/

theorem ToolSpec.admits {t : ToolSpec} (h : t.parameters.canonical = t.parameters) :
    ToolSpec.decoder.Admits t.toJson t := by
  unfold ToolSpec.decoder
  apply Fields.Held.admits
  · exact .given (admits_string _) (.given (admits_string _) (.given (admits_json h) .nil))
  · decide
  · rfl

/-- Every size fits 64 bits. -/
structure CondenserSettings.Fits64 (s : CondenserSettings) : Prop where
  maxSize : s.maxSize < Nat.pow 2 64
  keepFirst : s.keepFirst < Nat.pow 2 64
  maxTokens : ∀ n ∈ s.maxTokens, n < Nat.pow 2 64

theorem CondenserSettings.admits {s : CondenserSettings} (h : s.Fits64) :
    CondenserSettings.decoder.Admits s.toJson s := by
  have hnat : ∀ n, n < Nat.pow 2 64 → Decoder.nat.Admits (.nat n) n := fun n hn =>
    ⟨decodes_nat hn, decodes_nat hn⟩
  unfold CondenserSettings.decoder
  apply Fields.Held.admits
  · apply Fields.Held.given (hnat _ h.maxSize)
    apply Fields.Held.given (hnat _ h.keepFirst)
    rw [← List.append_nil (Json.member? _ _)]
    exact .member? (fun n hn => decodes_nat (h.maxTokens n hn))
      (fun n => ⟨by simp [Json.nat, Json.Doc.ofJson], rfl⟩) .nil
  · decide
  · rfl

/-- A configuration as a document can hold it: its sizes fit 64 bits, and the parameters of its
tools are in canonical form. -/
structure AgentConfig.Storable (c : AgentConfig) : Prop where
  condenser : c.condenser.Fits64
  parameters : ∀ t ∈ c.tools, t.parameters.canonical = t.parameters

theorem AgentConfig.Storable.admits {c : AgentConfig} (h : c.Storable) :
    AgentConfig.decoder.Admits c.toJson c := by
  unfold AgentConfig.decoder
  apply Fields.Held.admits
  · apply Fields.Held.given (admits_string _)
    apply Fields.Held.given (CondenserSettings.admits h.condenser)
    apply Fields.Held.given (.list fun s _ => admits_string s)
    apply Fields.Held.member? (fun s _ => decodes_string s) (fun s => ⟨string_ne_null s, rfl⟩)
    exact .given (.list fun t ht => ToolSpec.admits (h.parameters t ht)) .nil
  · decide
  · rfl

/-! ## States -/

/-- A recorded configuration as a document can hold it. -/
structure ConfigSnapshot.Storable (s : ConfigSnapshot) : Prop where
  time : s.time.FourDigitYear
  config : s.config.Storable

theorem ConfigSnapshot.Storable.admits {s : ConfigSnapshot} (h : s.Storable) :
    ConfigSnapshot.decoder.Admits s.toJson s := by
  have htime : Timestamp.decoder.Decodes s.time.toJson s.time :=
    .parsed (Timestamp.parse_text h.time)
  unfold ConfigSnapshot.decoder
  apply Fields.Held.admits
  · exact .given ⟨htime, htime⟩ (.given h.config.admits .nil)
  · decide
  · rfl

/-- A recorded configuration within the limits of what is read from a text: each of its numbers
reads back, and its containers, inside the two around it, are not nested too deep. -/
structure ConfigSnapshot.Legible (s : ConfigSnapshot) : Prop where
  numbers : ∀ n ∈ s.toJson.numbers, n.Legible
  depth : s.toJson.depth + 2 ≤ Json.Doc.maxDepth

namespace BaseState

variable {b : BaseState}

theorem admits_of_storable (h : ∀ s ∈ b.history, s.Storable) : decoder.Admits b.toJson b := by
  unfold decoder
  apply Fields.Held.admits
  · exact .given ⟨rfl, rfl⟩ (.given (.list fun s hs => (h s hs).admits) .nil)
  · decide
  · rfl

theorem depth_toJson_le (h : ∀ s ∈ b.history, s.Legible) : b.toJson.depth ≤ Json.Doc.maxDepth := by
  have hitems : Json.depthItems (b.history.map ConfigSnapshot.toJson) ≤ Json.Doc.maxDepth - 2 := by
    apply Json.depthItems_le
    intro j hj
    obtain ⟨s, hs, rfl⟩ := List.mem_map.mp hj
    exact Nat.le_sub_of_add_le (h s hs).depth
  have htwo : 2 ≤ Json.Doc.maxDepth := by decide
  have hdepth : b.toJson.depth =
      Json.depthItems (b.history.map ConfigSnapshot.toJson) + 1 + 1 := by
    simp [toJson, Json.depth, Json.depthMembers, ConversationId.toJson]
  omega

theorem ofText_pretty (h : ∀ s ∈ b.history, s.Legible) :
    Decoder.ofText .json b.toJson.pretty = .ok b.toJson.canonical := by
  have hnumbers : ∀ n ∈ b.toJson.numbers, n.Legible := by
    intro n hn
    have hitems : n ∈ Json.numbersItems (b.history.map ConfigSnapshot.toJson) := by
      simpa [toJson, Json.numbers, Json.numbersMembers, ConversationId.toJson] using hn
    obtain ⟨j, hj, hn⟩ := Json.exists_of_mem_numbersItems hitems
    obtain ⟨s, hs, rfl⟩ := List.mem_map.mp hj
    exact (h s hs).numbers n hn
  have hparse : Json.Doc.parse b.toJson.pretty = (Json.Doc.ofJson b.toJson, false) :=
    Json.Doc.parse_write Json.Layout.pretty_plain hnumbers (depth_toJson_le h)
  rw [Decoder.ofText, hparse]
  show (do let j ← (Json.Doc.ofJson b.toJson).content.map Json.canonical; .ok j) = _
  rw [Json.Doc.content_ofJson]
  rfl

end BaseState

/-! ## The sidecar of a storage -/

namespace Storage

variable {s s' : Storage} {b : BaseState}

/-- The storage can hold a recorded configuration. In a directory it is held as a text. -/
def CanHold : Storage → ConfigSnapshot → Prop
  | memory _, x | backend _, x => x.Storable
  | directory _, x => x.Storable ∧ x.Legible

/-- The storage can hold the state as its sidecar. -/
def Admits (s : Storage) (b : BaseState) : Prop := ∀ x ∈ b.history, s.CanHold x

theorem Admits.record {config : AgentConfig} {now : Timestamp} (h : s.Admits b)
    (hnew : s.CanHold ⟨now, config⟩) : s.Admits (b.record config now) := by
  intro x hx
  rw [BaseState.history_record, List.mem_append] at hx
  obtain hx | hx := hx
  · exact h x hx
  · split at hx
    · cases hx
    · rwa [List.mem_singleton.mp hx]

theorem Admits.faithful (h : s.Admits b) : s.Faithful [] b := by
  cases s with
  | memory m => exact Decoder.ofJson_eq_ok_iff.mpr (BaseState.admits_of_storable h).1
  | backend k => exact Decoder.ofJson_eq_ok_iff.mpr (BaseState.admits_of_storable h).1
  | directory d =>
    have hadmits := BaseState.admits_of_storable fun x hx => (h x hx).1
    exact ⟨nofun, _, BaseState.ofText_pretty fun x hx => (h x hx).2,
      Decoder.ofJson_eq_ok_iff.mpr hadmits.2⟩

theorem Admits.writeBase {j : Json} (h : s.Admits b) (hwrite : s.writeBase j = .ok s') :
    s'.Admits b := by
  cases s with
  | memory m =>
    cases hwrite
    exact h
  | backend k =>
    obtain ⟨-, rfl⟩ := backend_writeBase_eq_ok hwrite
    exact h
  | directory d =>
    obtain ⟨_, -, -, rfl⟩ := write_eq_ok hwrite
    exact h

/-- **The sidecar is read back**: the state that was written last is read. -/
theorem readBase_of_writeBase (h : s.Admits b) (hwrite : s.writeBase b.toJson = .ok s') :
    Conversation.readBase s' = .ok (some b) :=
  Conversation.readBase_of_faithful (keeps_of_writeBase hwrite) (h.writeBase hwrite).faithful

end Storage
end AgentMemory
