import AgentMemory.Event.Text
import AgentMemory.Text.Basic
import AgentMemory.Warning

/-!
# Summaries

A summarizer is given the events to be forgotten and the summary that they were so far summarized
in. The transcript has a line for each event, as long as the lines fit; a marker tells that some are
left out. A summarizer answers with a summary or fails; there is no summary to fall back on. The
model summarizer sends the prompt to a model and takes its reply without the blanks at the ends. It
gives up when the reply takes longer than the timeout, and an empty reply is no summary.
-/

namespace AgentMemory

/-! ## Requests -/

/-- A request for a summary. -/
structure SummaryRequest where
  previous : Option String
  forgotten : List Event

namespace SummaryRequest

/-- The most bytes of the text of one event. -/
def lineLimit : Nat := 2000

/-- The most bytes of all lines together. -/
def transcriptLimit : Nat := 150000

/-- What stands for the events left out. -/
def truncationMarker : String := "[... transcript truncated ...]\n"

def line (e : Event) : String := Text.shorten lineLimit e.text ++ "\n"

/-- The lines that fit into some room, and the marker if not all do. -/
def fitting (room : Nat) : List String → List String
  | [] => []
  | l :: ls =>
    if l.utf8ByteSize ≤ room then l :: fitting (room - l.utf8ByteSize) ls else [truncationMarker]

def transcript (r : SummaryRequest) : String :=
  String.join (fitting transcriptLimit (r.forgotten.map line))

/-- The instructions for the model. -/
def instructions : String :=
  "You are maintaining the running memory of an agent conversation. Merge the previous summary " ++
  "(if any) with the events below into one concise summary. Keep the user's goals, decisions " ++
  "made, files and commands touched, and any unfinished work. Reply with the summary text only."

/-- What stands for a previous summary when there is none. -/
def noPrevious : String := "(none)"

def prompt (r : SummaryRequest) : String :=
  instructions ++ "\n\n<previous_summary>\n" ++ r.previous.getD noPrevious ++
    "\n</previous_summary>\n\n<events>\n" ++ r.transcript ++ "</events>"

end SummaryRequest

/-! ## Summarizers -/

/-- Why there is no summary. -/
inductive SummarizerError where
  | timeout (milliseconds : Nat)
  | callFailed (message : String)
  | emptySummary
  deriving DecidableEq

def SummarizerError.kind : SummarizerError → String
  | timeout _ => "Timeout"
  | callFailed _ => "CallFailed"
  | emptySummary => "EmptySummary"

def SummarizerError.message : SummarizerError → String
  | timeout milliseconds => "summarizer timed out after " ++ toString milliseconds ++ "ms"
  | callFailed message => "summarizer call failed: " ++ message
  | emptySummary => "summarizer returned an empty summary"

/-- A summarizer. -/
abbrev Summarizer := SummaryRequest → Except SummarizerError String

/-- What a model answers to a prompt, and after how many milliseconds. -/
structure Completion where
  delay : Nat := 0
  reply : Except String String

/-- A summarizer that asks a model. -/
structure ModelSummarizer where
  /-- The longest time to wait, in milliseconds. -/
  timeout : Nat := 60000
  complete : String → Completion

namespace ModelSummarizer

/-- The summary in a reply. -/
def ofReply (reply : String) : Except SummarizerError String :=
  let summary := Text.trim reply
  if summary.isEmpty then .error .emptySummary else .ok summary

/-- The summary of a completion. -/
def ofCompletion (timeout : Nat) (c : Completion) : Except SummarizerError String :=
  if timeout < c.delay then .error (.timeout timeout)
  else match c.reply with
    | .error message => .error (.callFailed message)
    | .ok reply => ofReply reply

def summarize (s : ModelSummarizer) : Summarizer := fun r =>
  ofCompletion s.timeout (s.complete r.prompt)

/-- What is reported about an outcome: that the model did not answer. -/
def warnings : Except SummarizerError String → List Warning
  | .error (.timeout _) => [.summarizerTimedOut]
  | .error (.callFailed _) => [.summarizerCallFailed]
  | _ => []

end ModelSummarizer
end AgentMemory
