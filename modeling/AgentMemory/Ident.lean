/-!
# Identifiers

Each kind of identifier is a type of its own, so that one cannot stand for another. They are ordered
by their texts, that is by their UTF-8 bytes.
-/

namespace AgentMemory

/-- The identity of an event in its log. -/
structure EventId where
  text : String
  deriving DecidableEq, Hashable, Inhabited

/-- The identity of a tool call. -/
structure ToolCallId where
  text : String
  deriving DecidableEq, Hashable, Inhabited

/-- The identity of the model response that issued a group of events. -/
structure BatchId where
  text : String
  deriving DecidableEq, Hashable, Inhabited

/-- The identity of a conversation. -/
structure ConversationId where
  text : String
  deriving DecidableEq, Hashable, Inhabited

/-- An empty id asks for a fresh one. -/
def EventId.isEmpty (id : EventId) : Bool := id.text.isEmpty

/-- The id of the synthetic summary that a condensation shows as. -/
def EventId.summary (id : EventId) : EventId := ⟨id.text ++ "-summary"⟩

/-- Puts an id in order; an id already there stays single. -/
def ToolCallId.insert (id : ToolCallId) : List ToolCallId → List ToolCallId
  | [] => [id]
  | x :: xs =>
    if id.text < x.text then id :: x :: xs
    else if x.text < id.text then x :: ToolCallId.insert id xs
    else x :: xs

/-- Texts in order, each once. -/
def insertText (s : String) : List String → List String
  | [] => [s]
  | x :: xs =>
    if s < x then s :: x :: xs
    else if x < s then x :: insertText s xs
    else x :: xs

/-- The distinct texts of a list, in order. -/
def distinctTexts (l : List String) : List String := l.foldl (fun acc s => insertText s acc) []

end AgentMemory
