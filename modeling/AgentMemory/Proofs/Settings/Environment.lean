import AgentMemory.Proofs.Text
import AgentMemory.Settings.Load

/-!
# What the environment sets

Each field of the settings has its own variable. It is set by a text that can be read as a value of
the field and is within its range; any other text, and a variable that is not there, leave it as it
is.
-/

namespace AgentMemory

/-! ## Numbers and truth values in text -/

/-- A text is a decimal numeral of a number, perhaps after a plus sign. -/
def Numeral (s : String) (n : Nat) : Prop :=
  ∃ ds : List Char, ds ≠ [] ∧ (∀ c ∈ ds, c.isDigit = true) ∧
    (s.toList = ds ∨ s.toList = '+' :: ds) ∧ Nat.ofDigitChars 10 ds 0 = n

/-- A text spells a truth value, in whatever case. -/
def Spells (s : String) (b : Bool) : Prop :=
  s.map Char.toLower ∈
    if b then ["true", "1", "yes", "on"] else ["false", "0", "no", "off"]

namespace Text

theorem isDigit_of_foldl_digit {cs : List Char} {start : Option Nat} {n : Nat}
    (h : cs.foldl (fun acc c => acc.bind fun n =>
      if c.isDigit then some (10 * n + (c.toNat - 48)) else none) start = some n) :
    start.isSome = true ∧ ∀ c ∈ cs, c.isDigit = true := by
  induction cs generalizing start with
  | nil => exact ⟨Option.isSome_iff_exists.mpr ⟨n, h⟩, nofun⟩
  | cons c cs ih =>
    obtain ⟨hnext, hcs⟩ := ih h
    obtain ⟨m, hm⟩ := Option.isSome_iff_exists.mp hnext
    obtain ⟨k, rfl, hk⟩ := Option.bind_eq_some_iff.mp hm
    refine ⟨rfl, List.forall_mem_cons.mpr ⟨?_, hcs⟩⟩
    by_contra hc
    rw [if_neg hc] at hk
    cases hk

theorem digits?_eq_some_iff {cs : List Char} {n : Nat} :
    digits? cs = some n ↔
      cs ≠ [] ∧ (∀ c ∈ cs, c.isDigit = true) ∧ Nat.ofDigitChars 10 cs 0 = n := by
  constructor
  · intro h
    have hne : cs ≠ [] := by
      rintro rfl
      cases h
    have hcs : ∀ c ∈ cs, c.isDigit = true := by
      rw [digits?, if_neg (by simpa using hne)] at h
      exact (isDigit_of_foldl_digit h).2
    rw [digits?_eq hne hcs] at h
    exact ⟨hne, hcs, Option.some.inj h⟩
  · rintro ⟨hne, hcs, rfl⟩
    exact digits?_eq hne hcs

theorem digits?_dropPlus_eq_some_iff {s : String} {n : Nat} :
    digits? (dropPlus s.toList) = some n ↔ Numeral s n := by
  rw [digits?_eq_some_iff]
  constructor
  · rintro ⟨hne, hcs, hn⟩
    refine ⟨_, hne, hcs, ?_, hn⟩
    unfold dropPlus
    split
    · next heq => exact .inr heq
    · exact .inl rfl
  · rintro ⟨ds, hne, hds, hs | hs, hn⟩
    · rw [hs, dropPlus_of_isDigit hds]
      exact ⟨hne, hds, hn⟩
    · rw [hs]
      exact ⟨hne, hds, hn⟩

end Text

theorem parseWithin?_eq_some_iff {min max n : Nat} {s : String} :
    parseWithin? min max s = some n ↔
      Numeral s n ∧ n < Text.wordSize ∧ min ≤ n ∧ n ≤ max := by
  rw [parseWithin?, Text.unsigned?, Option.filter_eq_some_iff, Option.filter_eq_some_iff,
    Text.digits?_dropPlus_eq_some_iff, and_assoc]
  simp

theorem parseFlag?_eq_some_iff {s : String} {b : Bool} : parseFlag? s = some b ↔ Spells s b := by
  have hapart : ∀ w ∈ ["true", "1", "yes", "on"], w ∉ ["false", "0", "no", "off"] := by decide
  simp only [parseFlag?]
  by_cases htrue : s.map Char.toLower ∈ ["true", "1", "yes", "on"]
  · rw [if_pos htrue]
    cases b with
    | true => exact iff_of_true rfl htrue
    | false => exact iff_of_false nofun (hapart _ htrue)
  · rw [if_neg htrue]
    cases b with
    | true =>
      refine iff_of_false ?_ htrue
      split <;> nofun
    | false =>
      split
      · next hfalse => exact iff_of_true rfl hfalse
      · next hfalse => exact iff_of_false nofun hfalse

/-! ## Forms of variables -/

namespace Variable

variable {lookup : Lookup} {name : String}

theorem number?_eq_some_iff {kind : VariableKind} {min max : Nat} (hmax : max < Text.wordSize)
    (n : Nat) : number? lookup ⟨name, .number kind min max⟩ = some n ↔
      ∃ text, lookup name = some text ∧ Numeral text n ∧ min ≤ n ∧ n ≤ max := by
  show (lookup name).bind (parseWithin? min max) = some n ↔ _
  rw [Option.bind_eq_some_iff]
  refine exists_congr fun text => and_congr_right fun _ => ?_
  rw [parseWithin?_eq_some_iff]
  exact and_congr_right fun _ => and_iff_right_of_imp fun h => Nat.lt_of_le_of_lt h.2 hmax

theorem flag?_eq_some_iff (b : Bool) :
    flag? lookup ⟨name, .flag⟩ = some b ↔ ∃ text, lookup name = some text ∧ Spells text b := by
  show (lookup name).bind parseFlag? = some b ↔ _
  simp only [Option.bind_eq_some_iff, parseFlag?_eq_some_iff]

theorem text?_eq_some_iff (value : String) : text? lookup ⟨name, .text⟩ = some value ↔
    ∃ text, lookup name = some text ∧ text ≠ "" ∧ value = text := by
  show (lookup name).filter (!·.isEmpty) = some value ↔ _
  rw [Option.filter_eq_some_iff]
  constructor
  · rintro ⟨hlookup, hne⟩
    exact ⟨value, hlookup, by simpa using hne, rfl⟩
  · rintro ⟨text, hlookup, hne, rfl⟩
    exact ⟨hlookup, by simpa using hne⟩

theorem map_eq_some_iff {α β : Type} {o : Option α} {SetBy : String → α → Prop} {f : α → β}
    (h : ∀ a, o = some a ↔ ∃ text, lookup name = some text ∧ SetBy text a) (b : β) :
    o.map f = some b ↔ ∃ text, lookup name = some text ∧ ∃ a, b = f a ∧ SetBy text a := by
  simp only [Option.map_eq_some_iff, h]
  constructor
  · rintro ⟨a, ⟨text, hlookup, ha⟩, rfl⟩
    exact ⟨text, hlookup, a, rfl, ha⟩
  · rintro ⟨text, hlookup, a, rfl, ha⟩
    exact ⟨a, ⟨text, hlookup, ha⟩, rfl⟩

end Variable

/-! ## Fields and their variables -/

namespace Settings

/-- A field of the settings. -/
inductive Field where
  | maxSize
  | keepFirst
  | maxTokens
  | dir
  | level
  | json
  | resultOrder
  deriving DecidableEq

namespace Field

/-- The type of the values of a field. -/
abbrev Value : Field → Type
  | maxSize | keepFirst => Nat
  | maxTokens => Option Nat
  | dir => Option String
  | level => String
  | json => Bool
  | resultOrder => ResultOrder

def get (s : Settings) : (f : Field) → f.Value
  | maxSize => s.condenser.maxSize
  | keepFirst => s.condenser.keepFirst
  | maxTokens => s.condenser.maxTokens
  | dir => s.persistence.dir
  | level => s.logging.level
  | json => s.logging.json
  | resultOrder => s.compliance.resultOrder

def variableName : Field → String
  | maxSize => "CHRONICLE_MAX_SIZE"
  | keepFirst => "CHRONICLE_KEEP_FIRST"
  | maxTokens => "CHRONICLE_MAX_TOKENS"
  | dir => "CHRONICLE_PERSISTENCE_DIR"
  | level => "CHRONICLE_LOG_LEVEL"
  | json => "CHRONICLE_LOG_JSON"
  | resultOrder => "CHRONICLE_STRICT_RESULT_ORDER"

/-- A text sets a field to a value. -/
def SetBy (text : String) : (f : Field) → f.Value → Prop
  | maxSize, n => Numeral text n ∧ 1 ≤ n ∧ n ≤ 1000000
  | keepFirst, n => Numeral text n ∧ n ≤ 1000000
  | maxTokens, value => ∃ n, value = some n ∧ Numeral text n ∧ 1 ≤ n ∧ n < Text.wordSize
  | dir, value => text ≠ "" ∧ value = some text
  | level, value => text ≠ "" ∧ value = text
  | json, b => Spells text b
  | resultOrder, order => ∃ strict, order = ResultOrder.ofStrict strict ∧ Spells text strict

def set? (lookup : Variable.Lookup) : (f : Field) → Option f.Value
  | maxSize => Variable.maxSize.number? lookup
  | keepFirst => Variable.keepFirst.number? lookup
  | maxTokens => (Variable.maxTokens.number? lookup).map some
  | dir => (Variable.persistenceDir.text? lookup).map some
  | level => Variable.logLevel.text? lookup
  | json => Variable.logJson.flag? lookup
  | resultOrder => (Variable.strictResultOrder.flag? lookup).map ResultOrder.ofStrict

variable {lookup : Variable.Lookup}

theorem set?_eq_some_iff (f : Field) (value : f.Value) :
    f.set? lookup = some value ↔
      ∃ text, lookup f.variableName = some text ∧ SetBy text f value := by
  cases f with
  | maxSize => exact Variable.number?_eq_some_iff (by decide) value
  | keepFirst =>
    refine (Variable.number?_eq_some_iff (by decide) value).trans ?_
    simp only [Nat.zero_le, true_and]
    rfl
  | maxTokens =>
    refine (Variable.map_eq_some_iff (Variable.number?_eq_some_iff (by decide)) value).trans ?_
    simp only [SetBy, Text.wordSize, Nat.lt_iff_le_pred (Nat.two_pow_pos 64)]
    rfl
  | dir =>
    refine (Variable.map_eq_some_iff Variable.text?_eq_some_iff value).trans ?_
    refine exists_congr fun text => and_congr_right fun _ => ⟨?_, ?_⟩
    · rintro ⟨_, rfl, hne, rfl⟩
      exact ⟨hne, rfl⟩
    · rintro ⟨hne, rfl⟩
      exact ⟨text, rfl, hne, rfl⟩
  | level => exact Variable.text?_eq_some_iff value
  | json => exact Variable.flag?_eq_some_iff value
  | resultOrder => exact Variable.map_eq_some_iff Variable.flag?_eq_some_iff value

theorem orElse_eq_getD {α : Type} (a b : Option α) : (a <|> b) = (a.map some).getD b := by
  cases a <;> rfl

theorem get_withEnvironment (s : Settings) (f : Field) :
    f.get (s.withEnvironment lookup) = (f.set? lookup).getD (f.get s) := by
  cases f with
  | maxTokens | dir => exact orElse_eq_getD _ _
  | maxSize | keepFirst | level | json | resultOrder => rfl

theorem set?_congr {other : Variable.Lookup} {f : Field}
    (h : other f.variableName = lookup f.variableName) : f.set? other = f.set? lookup :=
  Option.ext fun value => by rw [set?_eq_some_iff, set?_eq_some_iff, h]

theorem variableName_injective : Function.Injective variableName := by
  intro f g h
  cases f <;> cases g <;> first | rfl | exact absurd h (by decide)

end Field

/-- What the environment makes of settings. -/
structure Overrides (lookup : Variable.Lookup) (s : Settings) : Prop where
  /-- A field takes the value that its variable sets it to. -/
  set : ∀ (f : Field) text value, lookup f.variableName = some text → f.SetBy text value →
    f.get (s.withEnvironment lookup) = value
  /-- A field that its variable does not set stays as it is. -/
  unset : ∀ f : Field, (∀ text value, lookup f.variableName = some text → ¬ f.SetBy text value) →
    f.get (s.withEnvironment lookup) = f.get s
  /-- Another text of a variable, or none, makes a difference to its own field alone. -/
  apart : ∀ (f : Field) other, (∀ name ≠ f.variableName, other name = lookup name) →
    ∀ g ≠ f, g.get (s.withEnvironment other) = g.get (s.withEnvironment lookup)

theorem overrides (lookup : Variable.Lookup) (s : Settings) : s.Overrides lookup where
  set f text value hlookup hset := by
    rw [f.get_withEnvironment, (f.set?_eq_some_iff value).mpr ⟨text, hlookup, hset⟩,
      Option.getD_some]
  unset f hunset := by
    have hnone : f.set? lookup = none := by
      refine Option.eq_none_iff_forall_ne_some.mpr fun value hvalue => ?_
      obtain ⟨text, hlookup, hset⟩ := (f.set?_eq_some_iff value).mp hvalue
      exact hunset text value hlookup hset
    rw [f.get_withEnvironment, hnone, Option.getD_none]
  apart f other hother g hg := by
    have hname : g.variableName ≠ f.variableName := fun h => hg (Field.variableName_injective h)
    rw [g.get_withEnvironment, g.get_withEnvironment, Field.set?_congr (hother _ hname)]

end Settings
end AgentMemory
