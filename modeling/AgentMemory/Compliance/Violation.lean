import AgentMemory.Event.Codec

/-!
# Violations

A departure from the protocol of tool calls and results: which event departs, in which way, and
which calls are involved.
-/

namespace AgentMemory.Compliance

open Json (Decoder Fields)

/-- The ways to depart from the protocol. -/
inductive ViolationKind where
  /-- A result of a call that was never issued. -/
  | unmatchedResult
  /-- A second result of a call. -/
  | duplicateResult
  /-- Something else than a result while calls are open. -/
  | interleavedMessage
  /-- A result out of order. -/
  | toolResultOrder
  /-- A call id used again. -/
  | duplicateCall
  deriving DecidableEq

namespace ViolationKind
def name : ViolationKind → String
  | unmatchedResult => "unmatched_result"
  | duplicateResult => "duplicate_result"
  | interleavedMessage => "interleaved_message"
  | toolResultOrder => "tool_result_order"
  | duplicateCall => "duplicate_call"
def decoder : Decoder ViolationKind :=
  Decoder.choice ([unmatchedResult, duplicateResult, interleavedMessage, toolResultOrder,
    duplicateCall].map fun k => (k.name, k))
end ViolationKind

/-- A departure from the protocol. -/
structure Violation where
  kind : ViolationKind
  event : EventId
  calls : List ToolCallId
  message : String
  deriving DecidableEq

namespace Violation

/-! ## The violations of single events -/

/-- A call id used again, in spite of its state. -/
def reissued (event : EventId) (call : ToolCallId) (state : String) : Violation :=
  ⟨.duplicateCall, event, [call], "call id " ++ call.text ++ " reissued while " ++ state⟩

/-- Something else than a result while calls are open. -/
def interleaved (event : EventId) (what : String) (pending : List ToolCallId) : Violation :=
  ⟨.interleavedMessage, event, pending,
    what ++ " while calls pending: [" ++ ", ".intercalate (pending.map (·.text)) ++ "]"⟩

/-- A result that the order of results does not allow yet. -/
def outOfOrder (event : EventId) (call : ToolCallId) (order : String) : Violation :=
  ⟨.toolResultOrder, event, [call],
    "result for " ++ call.text ++ " arrived out of " ++ order ++ " order"⟩

/-- A second result of a call. -/
def repeated (event : EventId) (call : ToolCallId) : Violation :=
  ⟨.duplicateResult, event, [call], "second result for " ++ call.text⟩

/-- A result of a call that was never issued. -/
def unmatched (event : EventId) (call : ToolCallId) : Violation :=
  ⟨.unmatchedResult, event, [call], "result for " ++ call.text ++ ", which was never issued"⟩

/-! ## Violations as JSON -/

def toJson (v : Violation) : Json :=
  .object [("kind", .string v.kind.name), ("eventId", v.event.toJson),
    ("toolCallIds", .array (v.calls.map ToolCallId.toJson)), ("message", .string v.message)]

def decoder : Decoder Violation :=
  (Fields.required "kind" ViolationKind.decoder <| .required "eventId" EventId.decoder <|
    .required "toolCallIds" (.list ToolCallId.decoder) <| .required "message" .string .nil).record
    fun (kind, event, calls, message, ()) => { kind, event, calls, message }

end Violation
end AgentMemory.Compliance
