/-!
# Warnings

What is reported beside a result without changing it. A warning is a cause; its text is fixed by
`Warning.message`.
-/

namespace AgentMemory

/-- How the value of an environment variable is read. -/
inductive VariableKind where
  | boolean
  /-- A number of tokens. -/
  | amount
  /-- A number of events. -/
  | count
  deriving DecidableEq

def VariableKind.name : VariableKind → String
  | boolean => "boolean"
  | amount => "u64"
  | count => "usize"

/-- Something worth reporting. -/
inductive Warning where
  /-- A file in an event directory whose name is almost that of an event file. -/
  | unrecognizedFileName (file : String)
  | complianceViolation
  | payloadRejected
  | noBaseState
  | summarizerTimedOut
  | summarizerCallFailed
  | monitorFailed
  /-- An environment variable with an unusable value. -/
  | ignoredVariable (kind : VariableKind) (key value : String)
  deriving DecidableEq

namespace Warning

def message : Warning → String
  | unrecognizedFileName _ => "skipping unrecognized event file name"
  | complianceViolation => "compliance violation"
  | payloadRejected => "action payload rejected"
  | noBaseState => "no base state found, starting history"
  | summarizerTimedOut => "summarizer timed out"
  | summarizerCallFailed => "summarizer call failed"
  | monitorFailed => "compliance monitor failed, treating as no violation"
  | ignoredVariable kind _ _ => "invalid " ++ kind.name ++ " env var, ignoring"

/-- The text of a warning with the file that it is about. -/
def report : Warning → String
  | w@(unrecognizedFileName file) => w.message ++ ": " ++ file
  | w => w.message

end Warning
end AgentMemory
