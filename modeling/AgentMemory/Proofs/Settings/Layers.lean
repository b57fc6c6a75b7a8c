import AgentMemory.Proofs.Json.Overlay
import AgentMemory.Proofs.Settings.Environment
import AgentMemory.Settings.Load

/-!
# Layers of settings

Settings are read from a document that is laid over the written defaults, and what the environment
sets is put in. A document that is read as settings by itself is read as the same settings over the
defaults; a null stands for what is absent; and each field has the value that its variable sets,
else the one in the document, else its default.
-/

namespace AgentMemory

open Json (OverlaidOrDefault Decoder Fields GivenOrDefault dropNulls given? onMembers)

/-! ## Defaults below -/

namespace CondenserSettings

def fields : Fields [Nat, Nat, Option Nat] :=
  .defaulted "maxSize" .nat 120 <| .defaulted "keepFirst" .nat 4 <|
    .omittable "maxTokens" .nat .nil

theorem base : fields.Base ({} : CondenserSettings).toJson.canonical where
  keys := by decide
  object := ⟨_, rfl, Json.ascending_ordered _⟩
  defaults :=
    ⟨.of_some (v := .nat 120) rfl nofun rfl nofun, .of_some (v := .nat 4) rfl nofun rfl nofun,
      .of_none rfl, trivial⟩

theorem givenOrDefault {given : Option Json} {c : CondenserSettings} (hkeyed : ∀ x ∈ given, x.Keyed)
    (hc : OverlaidOrDefault (some ({} : CondenserSettings).toJson.canonical) decoder
      (some {}) given c) :
    GivenOrDefault .nat 120 (given.bind (given? 0 "maxSize")) c.maxSize ∧
      GivenOrDefault .nat 4 (given.bind (given? 1 "keepFirst")) c.keepFirst ∧
      GivenOrDefault (Decoder.option .nat) none (given.bind (given? 2 "maxTokens"))
        c.maxTokens := by
  obtain ⟨t, rfl, hmaxSize, hkeepFirst, hmaxTokens, -⟩ :=
    base.overlaidOrDefault_within rfl hkeyed hc
  exact ⟨hmaxSize.of_single (.of_some (v := .nat 120) rfl nofun),
    hkeepFirst.of_single (.of_some (v := .nat 4) rfl nofun), hmaxTokens.of_single (.of_none rfl)⟩

end CondenserSettings

namespace PersistenceSettings

def fields : Fields [Option String] := .omittable "dir" .string .nil

theorem base : fields.Base ({} : PersistenceSettings).toJson.canonical where
  keys := by decide
  object := ⟨_, rfl, Json.ascending_ordered _⟩
  defaults := ⟨.of_none rfl, trivial⟩

theorem givenOrDefault {given : Option Json} {c : PersistenceSettings}
    (hkeyed : ∀ x ∈ given, x.Keyed)
    (hc : OverlaidOrDefault (some ({} : PersistenceSettings).toJson.canonical) decoder
      (some {}) given c) :
    GivenOrDefault (Decoder.option .string) none (given.bind (given? 0 "dir")) c.dir := by
  obtain ⟨t, rfl, hdir, -⟩ := base.overlaidOrDefault_within rfl hkeyed hc
  exact hdir.of_single (.of_none rfl)

end PersistenceSettings

namespace LoggingSettings

def fields : Fields [String, Bool] :=
  .defaulted "level" .string "warn" <| .defaulted "json" .bool false .nil

theorem base : fields.Base ({} : LoggingSettings).toJson.canonical where
  keys := by decide
  object := ⟨_, rfl, Json.ascending_ordered _⟩
  defaults :=
    ⟨.of_some (v := .string "warn") rfl nofun rfl nofun,
      .of_some (v := .bool false) rfl nofun rfl nofun, trivial⟩

theorem givenOrDefault {given : Option Json} {c : LoggingSettings} (hkeyed : ∀ x ∈ given, x.Keyed)
    (hc : OverlaidOrDefault (some ({} : LoggingSettings).toJson.canonical) decoder
      (some {}) given c) :
    GivenOrDefault .string "warn" (given.bind (given? 0 "level")) c.level ∧
      GivenOrDefault .bool false (given.bind (given? 1 "json")) c.json := by
  obtain ⟨t, rfl, hlevel, hjson, -⟩ := base.overlaidOrDefault_within rfl hkeyed hc
  exact ⟨hlevel.of_single (.of_some (v := .string "warn") rfl nofun),
    hjson.of_single (.of_some (v := .bool false) rfl nofun)⟩

end LoggingSettings

namespace ComplianceSettings

def fields : Fields [ResultOrder] := .defaulted "resultOrder" ResultOrder.decoder .any .nil

theorem base : fields.Base ({} : ComplianceSettings).toJson.canonical where
  keys := by decide
  object := ⟨_, rfl, Json.ascending_ordered _⟩
  defaults := ⟨.of_some (v := .string "any") rfl nofun rfl nofun, trivial⟩

theorem givenOrDefault {given : Option Json} {c : ComplianceSettings}
    (hkeyed : ∀ x ∈ given, x.Keyed)
    (hc : OverlaidOrDefault (some ({} : ComplianceSettings).toJson.canonical) decoder
      (some {}) given c) :
    GivenOrDefault ResultOrder.decoder .any (given.bind (given? 0 "resultOrder"))
      c.resultOrder := by
  obtain ⟨t, rfl, hresultOrder, -⟩ := base.overlaidOrDefault_within rfl hkeyed hc
  exact hresultOrder.of_single (.of_some (v := .string "any") rfl nofun)

end ComplianceSettings

namespace Settings

def fields :
    Fields [CondenserSettings, PersistenceSettings, LoggingSettings, ComplianceSettings] :=
  .defaulted "condenser" CondenserSettings.decoder {} <|
    .defaulted "persistence" PersistenceSettings.decoder {} <|
    .defaulted "logging" LoggingSettings.decoder {} <|
    .defaulted "compliance" ComplianceSettings.decoder {} .nil

theorem base : fields.Base ({} : Settings).toJson.canonical where
  keys := by decide
  object := ⟨_, rfl, Json.ascending_ordered _⟩
  defaults :=
    ⟨CondenserSettings.base.defaultBelow rfl rfl, PersistenceSettings.base.defaultBelow rfl rfl,
      LoggingSettings.base.defaultBelow rfl rfl, ComplianceSettings.base.defaultBelow rfl rfl,
      trivial⟩

/-! ## GivenOrDefault the document to the fields -/

namespace Field

/-- The position and the key of the section that a field belongs to. -/
def part : Field → Nat × String
  | maxSize | keepFirst | maxTokens => (0, "condenser")
  | dir => (1, "persistence")
  | level | json => (2, "logging")
  | resultOrder => (3, "compliance")

/-- The position and the key of a field within its section. -/
def place : Field → Nat × String
  | maxSize => (0, "maxSize")
  | keepFirst => (1, "keepFirst")
  | maxTokens => (2, "maxTokens")
  | dir => (0, "dir")
  | level => (0, "level")
  | json => (1, "json")
  | resultOrder => (0, "resultOrder")

def decoder : (f : Field) → Decoder f.Value
  | maxSize | keepFirst => .nat
  | maxTokens => Decoder.option .nat
  | dir => Decoder.option .string
  | level => .string
  | json => .bool
  | resultOrder => ResultOrder.decoder

/-- What a document has for a field, unless the field or its section is null. -/
def inDocument? (u : Json) (f : Field) : Option Json :=
  (given? f.part.1 f.part.2 u).bind (given? f.place.1 f.place.2)

end Field

/-- A document without the sections that are null, and the sections without the fields that are. -/
def withoutNulls (u : Json) : Json := (onMembers dropNulls u).dropNulls

variable {s : Settings}

theorem ofJson_of_decodes {u : Json} (h : decoder.ofJson u = .ok s) : ofJson u = .ok s := by
  rw [Decoder.ofJson_eq_ok_iff] at h
  exact Decoder.ofJson_eq_ok_iff.mpr (base.decodes_overlay h)

theorem ofJson_withoutNulls {u : Json} (hkeyed : u.Keyed) :
    ofJson (withoutNulls u) = ofJson u := by
  have hrecords : ∀ key ∈ fields.keys,
      ∃ below, ({} : Settings).toJson.canonical.get? key = some (.object below) := by
    simp only [fields, Fields.defaulted, Fields.keys, List.forall_mem_cons]
    exact ⟨⟨_, rfl⟩, ⟨_, rfl⟩, ⟨_, rfl⟩, ⟨_, rfl⟩, nofun⟩
  refine Decoder.ofJson_congr fun s => ?_
  rw [withoutNulls, base.overlay_dropNulls]
  exact base.decodes_onMembers hrecords hkeyed

theorem get_givenOrDefault (j : Json) (h : ofJson j.canonical = .ok s) (f : Field) :
    GivenOrDefault f.decoder (f.get {}) (f.inDocument? j.canonical) (f.get s) := by
  have hkeyed : ∀ p key, ∀ x ∈ given? p key j.canonical, x.Keyed := by
    intro p key x hx
    obtain ⟨i, rfl⟩ := Json.exists_canonical_of_given? hx
    exact Json.keyed_canonical i
  obtain ⟨t, rfl, hcondenser, hpersistence, hlogging, hcompliance, -⟩ :=
    base.overlaidOrDefault (Json.keyed_canonical j) (.inr (Decoder.ofJson_eq_ok_iff.mp h))
  cases f with
  | maxSize => exact (CondenserSettings.givenOrDefault (hkeyed 0 "condenser") hcondenser).1
  | keepFirst => exact (CondenserSettings.givenOrDefault (hkeyed 0 "condenser") hcondenser).2.1
  | maxTokens => exact (CondenserSettings.givenOrDefault (hkeyed 0 "condenser") hcondenser).2.2
  | dir => exact PersistenceSettings.givenOrDefault (hkeyed 1 "persistence") hpersistence
  | level => exact (LoggingSettings.givenOrDefault (hkeyed 2 "logging") hlogging).1
  | json => exact (LoggingSettings.givenOrDefault (hkeyed 2 "logging") hlogging).2
  | resultOrder => exact ComplianceSettings.givenOrDefault (hkeyed 3 "compliance") hcompliance

/-! ## Layers -/

/-- The value of a field, once the environment is put over settings that were read from a document:
the one that its variable sets, else the one in the document, else its default. -/
structure Field.Layered (f : Field) (lookup : Variable.Lookup) (u : Json) (value : f.Value) :
    Prop where
  set : ∀ text v, lookup f.variableName = some text → SetBy text f v → value = v
  unset : (∀ text v, lookup f.variableName = some text → ¬ SetBy text f v) →
    GivenOrDefault f.decoder (f.get {}) (f.inDocument? u) value

/-- **Settings are layered**, whatever the document and the environment. A document that is read as
settings by itself is read as the same settings over the defaults. A section that is null, or a
field that is null in a section, is as good as absent. The environment overrides the fields that its
variables set and no others. So each field of the outcome has the value that its variable sets, else
the one in the document, else its default. -/
theorem layered (j : Json) (lookup : Variable.Lookup) :
    (∀ s, decoder.ofJson j = .ok s → ofJson j = .ok s) ∧
      ofJson (withoutNulls j.canonical) = ofJson j.canonical ∧
      (∀ s : Settings, s.Overrides lookup) ∧
      ∀ s, ofJson j.canonical = .ok s →
        ∀ f : Field, f.Layered lookup j.canonical (f.get (s.withEnvironment lookup)) := by
  refine ⟨fun s => ofJson_of_decodes, ofJson_withoutNulls (Json.keyed_canonical j),
    overrides lookup, fun s hs f => ?_⟩
  have henvironment := overrides lookup s
  exact
    { set := fun text v => henvironment.set f text v
      unset := fun hunset => by
        rw [henvironment.unset f hunset]
        exact get_givenOrDefault j hs f }

/-- A section may be an array of its first fields, or null. -/
example : ofJson (.object [("condenser", .array [.nat 7]), ("logging", .null)]) =
    .ok { condenser := { maxSize := 7 } } := by rfl

end Settings
end AgentMemory
