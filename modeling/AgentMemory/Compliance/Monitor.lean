import AgentMemory.Compliance.Violation
import AgentMemory.Ident
import AgentMemory.Settings.Basic
import AgentMemory.Text.Quoted
import AgentMemory.Warning

/-!
# The compliance monitor

The monitor follows the events of a log and reports where they depart from the protocol: a call is
answered once, and nothing else comes between the calls of a batch and their results. It only
reports. Every event moves it on, and when the order of results fails the event passes without a
violation.

An order of results says which call of a batch may be answered next, given the calls issued and the
calls answered so far. It may also fail to say.

A call is **pending** from its issue to its result, then **completed**; issued again it is pending
again.
-/

namespace AgentMemory.Compliance

/-! ## Orders of results -/

/-- An order in which the results of a batch may arrive. -/
structure Order where
  name : String
  /-- Whether a call may be answered, given the calls issued and those answered; nothing when the
  order fails. -/
  accepts : (issued resolved : List ToolCallId) → (call : ToolCallId) → Option Bool

namespace Order

def any : Order := ⟨"any", fun _ _ _ => some true⟩

/-- The first call issued and not answered. -/
def next? (issued resolved : List ToolCallId) : Option ToolCallId :=
  issued.find? (· ∉ resolved)

/-- Results must arrive in the order in which their calls were issued. -/
def issue : Order where
  name := "issue"
  accepts issued resolved call := some ((next? issued resolved).all (· = call))

/-- The order that a setting names. -/
def ofSetting : ResultOrder → Order
  | .any => any
  | .issue => issue

end Order

/-! ## The state of a monitor -/

/-- A call of a batch. -/
structure Issue where
  batch : BatchId
  call : ToolCallId
  deriving DecidableEq

/-- What is known of the calls so far. Sets of calls are in order, lists of issues and results have
the newest first. -/
structure Monitor where
  order : Order := .any
  pending : List ToolCallId := []
  completed : List ToolCallId := []
  /-- Every call issued or answered. -/
  seen : List ToolCallId := []
  issues : List Issue := []
  results : List Issue := []

/-- What a monitor makes of an event. -/
structure Verdict where
  monitor : Monitor
  violations : List Violation := []
  /-- Whether the order of results failed. -/
  failed : Bool := false

def Verdict.warnings (v : Verdict) : List Warning := if v.failed then [.monitorFailed] else []

namespace Monitor

/-! ## What is known of calls -/

/-- The batch that a call was last issued in. -/
def batchOf? (m : Monitor) (call : ToolCallId) : Option BatchId :=
  (m.issues.find? (·.call = call)).map (·.batch)

def callsOf (batch : BatchId) (issues : List Issue) : List ToolCallId :=
  ((issues.filter (·.batch = batch)).map (·.call)).reverse

/-- Whether a call of another batch is pending. -/
def pendingOutside (m : Monitor) (batch : BatchId) : Bool :=
  m.pending.any fun call => m.batchOf? call ≠ some batch

/-! ## One event -/

/-- A call is issued. -/
def issue (m : Monitor) (e : EventId) (batch : BatchId) (call : ToolCallId) : Verdict :=
  let interleaved :=
    if m.pendingOutside batch then [Violation.interleaved e "new batch issued" m.pending] else []
  if call ∈ m.pending then
    { monitor := m, violations := interleaved ++ [.reissued e call "still pending"] }
  else
    let again := if call ∈ m.completed then [Violation.reissued e call "already answered"] else []
    { monitor :=
        { m with
          pending := call.insert m.pending
          completed := m.completed.erase call
          seen := call.insert m.seen
          issues := ⟨batch, call⟩ :: m.issues }
      violations := interleaved ++ again }

/-- The result of a pending call, in whichever batch it is. -/
def resolve (m : Monitor) (e : EventId) (call : ToolCallId) : Verdict :=
  let opened := { m with pending := m.pending.erase call }
  let done := { opened with completed := call.insert m.completed }
  match m.batchOf? call with
  | none => { monitor := done }
  | some batch =>
    let closed := { done with results := ⟨batch, call⟩ :: m.results }
    match m.order.accepts (callsOf batch m.issues) (callsOf batch m.results) call with
    | none => { monitor := opened, failed := true }
    | some true => { monitor := closed }
    | some false => { monitor := closed, violations := [.outOfOrder e call m.order.name] }

/-- A result arrives. -/
def answer (m : Monitor) (e : EventId) (call : ToolCallId) : Verdict :=
  if call ∈ m.pending then m.resolve e call
  else
    let stray := if call ∈ m.completed then Violation.repeated e call else .unmatched e call
    { monitor := { m with seen := call.insert m.seen }, violations := [stray] }

/-- Something else arrives, which may come between calls and results only if `allowed`. -/
def interrupt (m : Monitor) (e : EventId) (what : String) (allowed : Bool) : Verdict :=
  { monitor := m
    violations :=
      if m.pending.isEmpty || allowed then [] else [.interleaved e what m.pending] }

/-- Whether a message belongs to the batch of every pending call. -/
def joins (m : Monitor) (message : Message) : Bool :=
  message.role = .agent && message.batch.any fun b => !m.pendingOutside b

/-- Moves on by one event. -/
def step (m : Monitor) (e : Event) : Verdict :=
  match e.body with
  | .action a => m.issue e.id a.batch a.call
  | .observation r => m.answer e.id r.call
  | .agentError r => m.answer e.id r.call
  | .message message => m.interrupt e.id "message" (m.joins message)
  | .systemPrompt _ => m.interrupt e.id "system prompt" false
  | .condensation _ | .condensationRequest _ | .condensationSummary _ => { monitor := m }

/-! ## Many events -/

def ofOrder (order : Order) : Monitor := { order }

def reset (m : Monitor) : Monitor := ofOrder m.order

/-- Moves on by events in turn. The violations and warnings of all come out in order. -/
def replay (m : Monitor) : List Event → Monitor × List Violation × List Warning
  | [] => (m, [], [])
  | e :: es =>
    let v := m.step e
    let (last, violations, warnings) := v.monitor.replay es
    (last, v.violations ++ violations, v.warnings ++ warnings)

/-! ## Description -/

def describe (m : Monitor) : String :=
  let calls := m.pending.map fun c => "ToolCallId(" ++ Text.quoted c.text ++ ")"
  "ComplianceMonitor \x7b pending: \x7b" ++ ", ".intercalate calls ++ "\x7d, completed: " ++
    toString m.completed.length ++ ", all: " ++ toString m.seen.length ++ ", policy: " ++
    Text.quoted m.order.name ++ ", .. \x7d"

end Monitor
end AgentMemory.Compliance
