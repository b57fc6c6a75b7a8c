import AgentMemory.Cancel.Forest
import AgentMemory.Json.Record

/-!
# Execution

What the agent is doing, and the tokens by which it is told to cease. An interrupt cancels the model
call under way and nothing else; work of tools goes on, and its results are not accepted. A stop
cancels the root, and with it every token handed out.
-/

namespace AgentMemory

open Cancel (Forest Token)
open Json (Decoder Fields)

/-- What the agent is doing. -/
inductive ExecutionStatus where
  | idle
  | running
  | paused
  | interrupted
  | finished
  | error
  deriving DecidableEq, Inhabited

namespace ExecutionStatus

def name : ExecutionStatus → String
  | idle => "idle"
  | running => "running"
  | paused => "paused"
  | interrupted => "interrupted"
  | finished => "finished"
  | error => "error"

def title : ExecutionStatus → String
  | idle => "Idle"
  | running => "Running"
  | paused => "Paused"
  | interrupted => "Interrupted"
  | finished => "Finished"
  | error => "Error"

def decoder : Decoder ExecutionStatus :=
  Decoder.choice ([idle, running, paused, interrupted, finished, error].map fun s => (s.name, s))

/-- Whether results of tools are accepted. -/
def acceptsResults : ExecutionStatus → Bool
  | interrupted | finished => false
  | idle | running | paused | error => true

end ExecutionStatus

/-- The status and the tokens of an execution. -/
structure Execution where
  status : ExecutionStatus
  tokens : Forest
  /-- The token that all others are derived from. -/
  root : Token
  /-- The token of the model call under way. -/
  active : Option Token

namespace Execution

/-- An execution that has not begun. -/
def initial : Execution :=
  let (tokens, root) := ({} : Forest).fresh
  { status := .idle, tokens, root, active := none }

def setStatus (x : Execution) (status : ExecutionStatus) : Execution := { x with status }

/-- A token that a stop cancels. -/
def derive (x : Execution) : Execution × Token :=
  let (tokens, t) := x.tokens.child x.root
  ({ x with tokens }, t)

/-- A model call begins; it takes the place of one that is under way. -/
def beginCall (x : Execution) : Execution × Token :=
  let (x, t) := x.derive
  ({ x with status := .running, active := some t }, t)

def endCall (x : Execution) : Execution := { x with active := none }

/-- Cancels the model call under way, and tells whether there was one. -/
def interrupt (x : Execution) : Execution × Bool :=
  let x' := { x with status := .interrupted, active := none }
  match x.active with
  | none => (x', false)
  | some t => ({ x' with tokens := (x.tokens.cancel t).1 }, true)

/-- Cancels everything. -/
def stop (x : Execution) : Execution :=
  { x with tokens := (x.tokens.cancel x.root).1, active := none, status := .finished }

end Execution
end AgentMemory
