import AgentMemory.File
import AgentMemory.Json.Value
import AgentMemory.Settings.Basic
import AgentMemory.Text.Basic
import AgentMemory.Warning

/-!
# Loading settings

The defaults, with the settings file laid over them, and the environment over both. A file that is
not there changes nothing; one that is there must be readable. Each variable of the environment sets
one field. A variable whose value cannot be read, or is out of range, sets nothing and is reported.
-/

namespace AgentMemory

open Json (Fault)

/-! ## Values in text -/

/-- Reads a truth value in any case. No character outside ASCII has a lower-case form that occurs in
these words, so the case of ASCII letters is all that matters. -/
def parseFlag? (s : String) : Option Bool :=
  let word := s.map Char.toLower
  if word ∈ ["true", "1", "yes", "on"] then some true
  else if word ∈ ["false", "0", "no", "off"] then some false
  else none

/-- Reads an unsigned 64-bit number within a range. -/
def parseWithin? (min max : Nat) (s : String) : Option Nat :=
  (Text.unsigned? s).filter fun n => min ≤ n && n ≤ max

/-! ## Variables -/

/-- How a variable is read. -/
inductive VariableForm where
  | number (kind : VariableKind) (min max : Nat)
  | flag
  /-- Any text but the empty one. -/
  | text

/-- A variable of the environment. -/
structure Variable where
  name : String
  form : VariableForm

namespace Variable

def maxSize : Variable := ⟨"CHRONICLE_MAX_SIZE", .number .count 1 1000000⟩
def keepFirst : Variable := ⟨"CHRONICLE_KEEP_FIRST", .number .count 0 1000000⟩
def maxTokens : Variable := ⟨"CHRONICLE_MAX_TOKENS", .number .amount 1 (Nat.pow 2 64 - 1)⟩
def persistenceDir : Variable := ⟨"CHRONICLE_PERSISTENCE_DIR", .text⟩
def logLevel : Variable := ⟨"CHRONICLE_LOG_LEVEL", .text⟩
def logJson : Variable := ⟨"CHRONICLE_LOG_JSON", .flag⟩
def strictResultOrder : Variable := ⟨"CHRONICLE_STRICT_RESULT_ORDER", .flag⟩

/-- All variables, in the order in which they are read. -/
def all : List Variable :=
  [maxSize, keepFirst, maxTokens, persistenceDir, logLevel, logJson, strictResultOrder]

/-- The values of the environment. -/
abbrev Lookup := String → Option String

/-- The number that a variable sets. -/
def number? (lookup : Lookup) (v : Variable) : Option Nat :=
  match v.form with
  | .number _ min max => (lookup v.name).bind (parseWithin? min max)
  | _ => none

def flag? (lookup : Lookup) (v : Variable) : Option Bool :=
  match v.form with
  | .flag => (lookup v.name).bind parseFlag?
  | _ => none

def text? (lookup : Lookup) (v : Variable) : Option String :=
  match v.form with
  | .text => (lookup v.name).filter (!·.isEmpty)
  | _ => none

/-- The report of a variable whose value cannot be used. -/
def complaint? (lookup : Lookup) (v : Variable) : Option Warning := do
  let value ← lookup v.name
  match v.form with
  | .number kind min max =>
    if (parseWithin? min max value).isNone then some (.ignoredVariable kind v.name value) else none
  | .flag =>
    if (parseFlag? value).isNone then some (.ignoredVariable .boolean v.name value) else none
  | .text => none

end Variable

/-- The order of results that strictness asks for. -/
def ResultOrder.ofStrict (strict : Bool) : ResultOrder := if strict then .issue else .any

open Variable (Lookup) in
/-- The settings with what the environment sets put in. -/
def Settings.withEnvironment (s : Settings) (lookup : Lookup) : Settings where
  condenser :=
    { maxSize := (Variable.maxSize.number? lookup).getD s.condenser.maxSize
      keepFirst := (Variable.keepFirst.number? lookup).getD s.condenser.keepFirst
      maxTokens := Variable.maxTokens.number? lookup <|> s.condenser.maxTokens }
  persistence := { dir := Variable.persistenceDir.text? lookup <|> s.persistence.dir }
  logging :=
    { level := (Variable.logLevel.text? lookup).getD s.logging.level
      json := (Variable.logJson.flag? lookup).getD s.logging.json }
  compliance :=
    { resultOrder :=
        ((Variable.strictResultOrder.flag? lookup).map ResultOrder.ofStrict).getD
          s.compliance.resultOrder }

def environmentWarnings (lookup : Variable.Lookup) : List Warning :=
  Variable.all.filterMap (Variable.complaint? lookup)


/-! ## Loading -/

/-- Why settings cannot be loaded. -/
inductive SettingsError where
  | file (fault : FileFault)
  | json (fault : Fault)
  deriving DecidableEq

def SettingsError.message : SettingsError → String
  | file fault => "failed to read settings file: " ++ fault.name
  | json fault => "failed to parse settings JSON: " ++ fault.details

namespace Settings

/-- The settings of a JSON value laid over the defaults. -/
def ofJson (user : Json) : Except Fault Settings :=
  Json.Decoder.ofJson decoder ((({} : Settings).toJson.canonical).overlay user)

/-- The settings of a file, if there is one. -/
def ofFile (file : Option File) : Except SettingsError Settings := do
  match file with
  | none => return {}
  | some file =>
    let content ← file.read.mapError .file
    let user ← (Json.Decoder.ofText .json content).mapError .json
    (ofJson user).mapError .json

/-- The settings of a file and the environment. -/
def load (file : Option File) (lookup : Variable.Lookup) : Except SettingsError Settings :=
  (ofFile file).map (·.withEnvironment lookup)

/-- The home directory when none is known. -/
def fallbackHome : String := "/tmp"

/-- Where the settings file of a home directory is. -/
def path (home : Option String) : String :=
  joinPath (joinPath (home.getD fallbackHome) ".chronicle") "settings.json"

end Settings
end AgentMemory
