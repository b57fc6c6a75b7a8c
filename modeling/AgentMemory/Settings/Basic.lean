import AgentMemory.Json.Record

/-!
# Settings

What can be set, with the value that each field has when nothing sets it. In JSON every field may be
absent and then has its default, in an array also every field from some position on.
-/

namespace AgentMemory

open Json (Decoder Fields member?)

/-- When to condense, and how much to keep. -/
structure CondenserSettings where
  /-- The most events a view holds before it is condensed. -/
  maxSize : Nat := 120
  /-- The number of events at the front that are always kept. -/
  keepFirst : Nat := 4
  /-- The most tokens a view may take. -/
  maxTokens : Option Nat := none
  deriving DecidableEq

/-- Where conversations are stored; in memory when no directory is given. -/
structure PersistenceSettings where
  dir : Option String := none
  deriving DecidableEq

/-- What is logged, and in which form. -/
structure LoggingSettings where
  level : String := "warn"
  json : Bool := false
  deriving DecidableEq

/-- In which order the results of a batch may arrive. -/
inductive ResultOrder where
  | any
  | issue
  deriving DecidableEq

/-- What the compliance monitor insists on. -/
structure ComplianceSettings where
  resultOrder : ResultOrder := .any
  deriving DecidableEq

/-- All settings. -/
structure Settings where
  condenser : CondenserSettings := {}
  persistence : PersistenceSettings := {}
  logging : LoggingSettings := {}
  compliance : ComplianceSettings := {}
  deriving DecidableEq


/-! ## Settings as JSON -/

namespace CondenserSettings
def toJson (s : CondenserSettings) : Json :=
  .object ([("maxSize", .nat s.maxSize), ("keepFirst", .nat s.keepFirst)] ++
    member? "maxTokens" (s.maxTokens.map .nat))
def decoder : Decoder CondenserSettings :=
  let base : CondenserSettings := {}
  (Fields.defaulted "maxSize" .nat base.maxSize <| .defaulted "keepFirst" .nat base.keepFirst <|
    .omittable "maxTokens" .nat .nil).record
    fun (maxSize, keepFirst, maxTokens, ()) => { maxSize, keepFirst, maxTokens }
end CondenserSettings

namespace PersistenceSettings
def toJson (s : PersistenceSettings) : Json := .object (member? "dir" (s.dir.map .string))
def decoder : Decoder PersistenceSettings :=
  (Fields.omittable "dir" .string .nil).record fun (dir, ()) => { dir }
end PersistenceSettings

namespace LoggingSettings
def toJson (s : LoggingSettings) : Json :=
  .object [("level", .string s.level), ("json", .bool s.json)]
def decoder : Decoder LoggingSettings :=
  let base : LoggingSettings := {}
  (Fields.defaulted "level" .string base.level <| .defaulted "json" .bool base.json .nil).record
    fun (level, json, ()) => { level, json }
end LoggingSettings

namespace ResultOrder
def name : ResultOrder → String
  | any => "any"
  | issue => "issue"
def decoder : Decoder ResultOrder := Decoder.choice [("any", any), ("issue", issue)]
end ResultOrder

namespace ComplianceSettings
def toJson (s : ComplianceSettings) : Json :=
  .object [("resultOrder", .string s.resultOrder.name)]
def decoder : Decoder ComplianceSettings :=
  (Fields.defaulted "resultOrder" ResultOrder.decoder .any .nil).record
    fun (resultOrder, ()) => { resultOrder }
end ComplianceSettings

namespace Settings
def toJson (s : Settings) : Json :=
  .object [("condenser", s.condenser.toJson), ("persistence", s.persistence.toJson),
    ("logging", s.logging.toJson), ("compliance", s.compliance.toJson)]
def decoder : Decoder Settings :=
  (Fields.defaulted "condenser" CondenserSettings.decoder {} <|
    .defaulted "persistence" PersistenceSettings.decoder {} <|
    .defaulted "logging" LoggingSettings.decoder {} <|
    .defaulted "compliance" ComplianceSettings.decoder {} .nil).record
    fun (condenser, persistence, logging, compliance, ()) =>
      { condenser, persistence, logging, compliance }
end Settings

end AgentMemory
