import AgentMemory.Text.Basic

/-!
# Timestamps

An instant of the proleptic Gregorian calendar in UTC, with nanoseconds; second 60 is a leap second.
`parse` reads the text form of RFC 3339, generously: blanks may stand before each number and around
the separators, the date may be followed by `T`, `t` or a blank, and the offset may be `Z`, `UTC` or
hours and minutes. The offset is required, and the instant is converted to UTC. `text` writes the
form with `T` and `Z` and the fewest of 0, 3, 6 or 9 fraction digits that lose nothing.
-/

namespace AgentMemory

/-- An instant in UTC. -/
structure Timestamp where
  year : Int
  month : Nat
  day : Nat
  hour : Nat
  minute : Nat
  second : Nat
  nanos : Nat
  deriving DecidableEq, Inhabited

namespace Timestamp

/-! ## The calendar -/

def isLeap (year : Int) : Bool := year % 4 == 0 && (year % 100 != 0 || year % 400 == 0)

def daysInMonth (year : Int) (month : Nat) : Nat :=
  if month = 2 then if isLeap year then 29 else 28
  else if month = 4 ∨ month = 6 ∨ month = 9 ∨ month = 11 then 30
  else 31

/-- The years that can be represented. -/
def yearInRange (year : Int) : Bool := -262143 ≤ year && year ≤ 262142

/-- Whether the fields name an instant. -/
def isValid (t : Timestamp) : Bool :=
  yearInRange t.year && 1 ≤ t.month && t.month ≤ 12 && 1 ≤ t.day &&
    t.day ≤ daysInMonth t.year t.month && t.hour < 24 && t.minute < 60 && t.second ≤ 60 &&
    t.nanos < 1000000000

def previousDay (t : Timestamp) : Timestamp :=
  if 1 < t.day then { t with day := t.day - 1 }
  else if 1 < t.month then
    { t with month := t.month - 1, day := daysInMonth t.year (t.month - 1) }
  else { t with year := t.year - 1, month := 12, day := 31 }

def nextDay (t : Timestamp) : Timestamp :=
  if t.day < daysInMonth t.year t.month then { t with day := t.day + 1 }
  else if t.month < 12 then { t with month := t.month + 1, day := 1 }
  else { t with year := t.year + 1, month := 1, day := 1 }

def dayMinutes : Int := 1440

/-- The instant whose local time, `offset` minutes ahead of UTC, is the given one. The offset is
less than a day. -/
def toUTC (offset : Int) (t : Timestamp) : Timestamp :=
  let m : Int := 60 * t.hour + t.minute - offset
  let atMinute (t : Timestamp) (m : Int) : Timestamp :=
    { t with hour := m.toNat / 60, minute := m.toNat % 60 }
  if m < 0 then atMinute t.previousDay (m + dayMinutes)
  else if dayMinutes ≤ m then atMinute t.nextDay (m - dayMinutes)
  else atMinute t m

/-! ## Reading -/

/-- Reads a number of at most `width` digits. -/
def scanDigits (width : Nat) (cs : List Char) : Option (Nat × List Char) :=
  let ds := (cs.take width).takeWhile Char.isDigit
  (Text.digits? ds).map fun n => (n, cs.drop ds.length)

/-- Reads a number of at most `width` digits after blanks. -/
def scanField (width : Nat) (cs : List Char) : Option (Nat × List Char) :=
  scanDigits width (Text.trimStart cs)

/-- Reads a year: four digits at most, or any number of them after a sign. -/
def scanYear (cs : List Char) : Option (Int × List Char) :=
  match Text.trimStart cs with
  | '-' :: cs => (scanDigits cs.length cs).map fun (n, cs) => (-(n : Int), cs)
  | '+' :: cs => (scanDigits cs.length cs).map fun (n, cs) => ((n : Int), cs)
  | cs => (scanDigits 4 cs).map fun (n, cs) => ((n : Int), cs)

/-- Reads a separator after blanks. -/
def scanSeparator (c : Char) (cs : List Char) : Option (List Char) :=
  match Text.trimStart cs with
  | d :: cs => if d = c then some cs else none
  | [] => none

/-- Reads a fraction of a second, if there is one: nine digits count, further ones are dropped. -/
def scanNanos : List Char → Option (Nat × List Char)
  | '.' :: cs =>
    let ds := cs.takeWhile Char.isDigit
    let counted := ds.take 9
    (Text.digits? counted).map fun n => (n * Nat.pow 10 (9 - counted.length), cs.drop ds.length)
  | cs => some (0, cs)

def digit? (c : Char) : Option Nat := if c.isDigit then some (c.toNat - 48) else none

/-- Reads hours and minutes of an offset, as minutes. -/
def scanOffsetTime : List Char → Option (Nat × List Char)
  | h1 :: h2 :: cs => do
    let h1 ← digit? h1
    let h2 ← digit? h2
    match cs.dropWhile fun c => c == ':' || Text.isBlank c with
    | m1 :: m2 :: rest =>
      let m1 ← digit? m1
      let m2 ← digit? m2
      if m1 < 6 then return (60 * (10 * h1 + h2) + (10 * m1 + m2), rest) else none
    | _ => none
  | _ => none

/-- Whether the text starts with `UTC`, in any case. -/
def startsUTC (cs : List Char) : Bool := (cs.take 3).map Char.toUpper == ['U', 'T', 'C']

/-- Reads an offset, as minutes ahead of UTC. -/
def scanOffset (cs : List Char) : Option (Int × List Char) :=
  if startsUTC cs then some (0, cs.drop 3)
  else match cs with
    | c :: rest =>
      if c = 'Z' ∨ c = 'z' then some (0, rest)
      else if c = '+' then (scanOffsetTime rest).map fun (n, cs) => ((n : Int), cs)
      else if c = '-' ∨ c = '−' then (scanOffsetTime rest).map fun (n, cs) => (-(n : Int), cs)
      else none
    | [] => none

/-- Reads the mark between date and time. -/
def scanDateEnd : List Char → Option (List Char)
  | c :: cs => if c = 'T' ∨ c = 't' ∨ c = ' ' then some cs else none
  | [] => none

def parse (s : String) : Option Timestamp := do
  let (year, cs) ← scanYear s.toList
  let (month, cs) ← scanField 2 (← scanSeparator '-' cs)
  let (day, cs) ← scanField 2 (← scanSeparator '-' cs)
  let (hour, cs) ← scanField 2 (← scanDateEnd cs)
  let (minute, cs) ← scanField 2 (← scanSeparator ':' cs)
  let (second, cs) ← scanField 2 (← scanSeparator ':' cs)
  let (nanos, cs) ← scanNanos cs
  let (offset, cs) ← scanOffset (Text.trimStart cs)
  let t : Timestamp := { year, month, day, hour, minute, second, nanos }
  if (Text.trimStart cs).isEmpty && t.isValid && offset.natAbs < dayMinutes.toNat then
    let utc := t.toUTC offset
    if yearInRange utc.year then some utc else none
  else none

/-! ## Writing -/

/-- A year: four digits, with a sign if it has not just four. -/
def yearText (year : Int) : String :=
  if 0 ≤ year ∧ year ≤ 9999 then Text.padded 4 year.toNat
  else (if year < 0 then "-" else "+") ++ Text.padded 4 year.natAbs

/-- A fraction of a second, with the fewest of 0, 3, 6 or 9 digits. -/
def nanosText (nanos : Nat) : String :=
  if nanos = 0 then ""
  else if nanos % 1000000 = 0 then "." ++ Text.padded 3 (nanos / 1000000)
  else if nanos % 1000 = 0 then "." ++ Text.padded 6 (nanos / 1000)
  else "." ++ Text.padded 9 nanos

def text (t : Timestamp) : String :=
  yearText t.year ++ "-" ++ Text.padded 2 t.month ++ "-" ++ Text.padded 2 t.day ++ "T" ++
    Text.padded 2 t.hour ++ ":" ++ Text.padded 2 t.minute ++ ":" ++ Text.padded 2 t.second ++
    nanosText t.nanos ++ "Z"

end Timestamp
end AgentMemory
