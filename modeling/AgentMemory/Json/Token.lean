import AgentMemory.Json.Value
import AgentMemory.Number.Decimal
import AgentMemory.Text.Basic

/-!
# Tokens of a JSON text

The scanners take the rest of a text and return one token and what is left. A faulty token tells how
the fault is reported: a text that ends too early is *truncated*, any other offence is *malformed*.
Two readings of one text can differ in what they accept: skipping a value checks neither the range
of a number nor the pairing of escaped surrogates, so those two faults are kept inside the token.
-/

namespace AgentMemory.Json

/-- Why a text is no value of the wanted kind. -/
inductive Fault where
  /-- The text breaks the grammar. -/
  | malformed
  /-- The text ends inside a value. -/
  | truncated
  /-- The text is well formed, but its value has the wrong shape. -/
  | mismatch
  deriving DecidableEq

def Fault.category : Fault → String
  | malformed => "syntax"
  | truncated => "eof"
  | mismatch => "data"

/-- What stands for the details of a fault in a message; where in the text it is, is not told. -/
def Fault.details (_ : Fault) : String := "<json>"

/-! ## Strings -/

/-- A piece of a quoted text: a character, or one half of an escaped surrogate pair. -/
inductive Piece where
  | char (c : Char)
  | surrogate (unit : Nat)
  deriving DecidableEq

/-- How a quoted text ends: at its closing quote, or at a fault. -/
inductive QuoteEnd where
  | closed (rest : List Char)
  | cut (fault : Fault)

def hexValue? (c : Char) : Option Nat :=
  if '0' ≤ c ∧ c ≤ '9' then some (c.toNat - 48)
  else if 'a' ≤ c ∧ c ≤ 'f' then some (c.toNat - 87)
  else if 'A' ≤ c ∧ c ≤ 'F' then some (c.toNat - 55)
  else none

def hexUnit? (a b c d : Char) : Option Nat := do
  let a ← hexValue? a
  let b ← hexValue? b
  let c ← hexValue? c
  let d ← hexValue? d
  return ((a * 16 + b) * 16 + c) * 16 + d

def Piece.ofUnit (n : Nat) : Piece :=
  if 0xd800 ≤ n ∧ n < 0xe000 then .surrogate n else .char (Char.ofNat n)

/-- The character of a one-letter escape. -/
def shortEscape? (c : Char) : Option Char :=
  if c = '"' ∨ c = '\\' ∨ c = '/' then some c
  else if c = 'b' then some '\x08'
  else if c = 'f' then some '\x0c'
  else if c = 'n' then some '\n'
  else if c = 'r' then some '\r'
  else if c = 't' then some '\t'
  else none

/-- Scans what follows an opening quote. The pieces read so far come in reverse. -/
def scanQuoted (acc : List Piece) : List Char → List Piece × QuoteEnd
  | [] => (acc.reverse, .cut .truncated)
  | '"' :: rest => (acc.reverse, .closed rest)
  | '\\' :: 'u' :: a :: b :: c :: d :: rest =>
    match hexUnit? a b c d with
    | some n => scanQuoted (.ofUnit n :: acc) rest
    | none => (acc.reverse, .cut .malformed)
  | '\\' :: 'u' :: rest =>
    (acc.reverse, .cut (if Text.byteSize rest < 4 then .truncated else .malformed))
  | ['\\'] => (acc.reverse, .cut .truncated)
  | '\\' :: c :: rest =>
    match shortEscape? c with
    | some c' => scanQuoted (.char c' :: acc) rest
    | none => (acc.reverse, .cut .malformed)
  | c :: rest =>
    if c.toNat < 0x20 then (acc.reverse, .cut .malformed) else scanQuoted (.char c :: acc) rest

theorem scanQuoted_closed_lt {acc ps : List Piece} {cs rest : List Char}
    (h : scanQuoted acc cs = (ps, .closed rest)) : rest.length < cs.length := by
  fun_induction scanQuoted acc cs with
  | case1 => simp at h
  | case2 => simp at h; simp [h]
  | case3 acc a b c d r n hn ih => have := ih h; simp only [List.length_cons]; omega
  | case4 => simp at h
  | case5 => simp at h
  | case6 => simp at h
  | case7 acc c r _ _ c' _ ih => have := ih h; simp only [List.length_cons]; omega
  | case8 => simp at h
  | case9 => simp at h
  | case10 acc c r _ _ _ _ _ _ ih => have := ih h; simp only [List.length_cons]; omega

/-- Joins the pieces of a quoted text; nothing when a surrogate stands alone. -/
def joinPieces (acc : List Char) : List Piece → Option (List Char)
  | [] => some acc.reverse
  | .char c :: ps => joinPieces (c :: acc) ps
  | .surrogate hi :: .surrogate lo :: ps =>
    if hi < 0xdc00 ∧ 0xdc00 ≤ lo then
      joinPieces (Char.ofNat (0x10000 + (hi - 0xd800) * 0x400 + (lo - 0xdc00)) :: acc) ps
    else none
  | .surrogate _ :: _ => none

/-- Whether a lone surrogate is met before the end of the pieces. A leading one that comes last is
still waiting for its partner. -/
def hasLone : List Piece → Bool
  | [] => false
  | .char _ :: ps => hasLone ps
  | .surrogate hi :: .surrogate lo :: ps => !(hi < 0xdc00 && 0xdc00 ≤ lo) || hasLone ps
  | [.surrogate hi] => 0xdc00 ≤ hi
  | .surrogate _ :: _ => true

/-! ## Numbers -/

/-- A number as it is written: sign, whole digits, digits after a point, and an exponent with its
sign. -/
structure Numeral where
  negative : Bool
  whole : List Char
  fraction : Option (List Char)
  exponent : Option (Bool × List Char)

def digitValue (c : Char) : Nat := c.toNat - 48

/-- The whole digits as a 64-bit significand and the number of digits that no longer fit. -/
def wholeDigits (ds : List Char) : Nat × Nat :=
  ds.foldl (fun (sig, dropped) c =>
    let next := 10 * sig + digitValue c
    if dropped = 0 ∧ next < Nat.pow 2 64 then (next, 0) else (sig, dropped + 1)) (0, 0)

/-- Appends the digits after the point as long as they fit; counts those appended. -/
def fractionDigits (sig : Nat) (ds : List Char) : Nat × Nat :=
  let (sig, shift, _) := ds.foldl (fun (sig, shift, full) c =>
    let next := 10 * sig + digitValue c
    if !full && next < Nat.pow 2 64 then (next, shift + 1, false) else (sig, shift, true))
    (sig, 0, false)
  (sig, shift)

def exponentValue : Option (Bool × List Char) → Int
  | none => 0
  | some (negative, ds) =>
    let n := ds.foldl (fun n c => 10 * n + digitValue c) 0
    if negative then -(n : Int) else n

/-- The value of a numeral; nothing when it is too large. A numeral without point and exponent is
whole if it fits 64 bits, unsigned or signed; negative zero is a floating-point number. -/
def Numeral.value? (l : Numeral) : Option Number :=
  let (sig, dropped) := wholeDigits l.whole
  if l.fraction.isNone && l.exponent.isNone && dropped == 0 then
    if !l.negative then some (.int sig)
    else if 0 < sig ∧ sig ≤ Nat.pow 2 63 then some (.int (-(sig : Int)))
    else (Binary64.ofNat sig).map fun x => .float (x.withSign true)
  else
    let (sig, shift) := fractionDigits sig (l.fraction.getD [])
    let e : Int := (dropped : Int) - shift + exponentValue l.exponent
    (Binary64.ofDecimal sig e).map fun x => .float (x.withSign l.negative)

/-- Splits off the digits at the front. -/
def spanDigits (cs : List Char) : List Char × List Char :=
  (cs.takeWhile Char.isDigit, cs.dropWhile Char.isDigit)

/-- The fault of a missing digit: the end of the text, or something else. -/
def missingDigit (rest : List Char) : Fault := if rest.isEmpty then .truncated else .malformed

/-- Scans the whole part: a single zero, or digits that do not start with one. -/
def scanWhole : List Char → Except Fault (List Char × List Char)
  | '0' :: rest =>
    match rest with
    | c :: _ => if c.isDigit then .error .malformed else .ok (['0'], rest)
    | [] => .ok (['0'], [])
  | cs =>
    let (ds, rest) := spanDigits cs
    if ds.isEmpty then .error (missingDigit rest) else .ok (ds, rest)

/-- Scans a point and the digits after it, if there is one. -/
def scanFraction : List Char → Except Fault (Option (List Char) × List Char)
  | '.' :: cs =>
    let (ds, rest) := spanDigits cs
    if ds.isEmpty then .error (missingDigit rest) else .ok (some ds, rest)
  | cs => .ok (none, cs)

/-- Drops the sign of an exponent; tells whether it is negative. -/
def scanSign : List Char → Bool × List Char
  | '-' :: cs => (true, cs)
  | '+' :: cs => (false, cs)
  | cs => (false, cs)

/-- Scans an exponent, if there is one. -/
def scanExponent : List Char → Except Fault (Option (Bool × List Char) × List Char)
  | c :: cs =>
    if c = 'e' ∨ c = 'E' then
      let (negative, cs) := scanSign cs
      let (ds, rest) := spanDigits cs
      if ds.isEmpty then .error (missingDigit rest) else .ok (some (negative, ds), rest)
    else .ok (none, c :: cs)
  | [] => .ok (none, [])

/-- Scans a number after its sign. -/
def scanNumeral (negative : Bool) (cs : List Char) : Except Fault (Numeral × List Char) := do
  let (whole, cs) ← scanWhole cs
  let (fraction, cs) ← scanFraction cs
  let (exponent, cs) ← scanExponent cs
  return ({ negative, whole, fraction, exponent }, cs)

/-! ## Tokens -/

/-- How a broken value is reported: where a value is read, where it is skipped, and where the name
of a choice is read. -/
structure Breakage where
  asValue : Fault
  asSkipped : Fault
  asName : Fault

/-- The same fault however it is met. -/
def Breakage.plain (f : Fault) : Breakage := ⟨f, f, f⟩

/-- A token. A number out of range and a text with a lone surrogate have no value. -/
inductive Token where
  | openArray
  | closeArray
  | openObject
  | closeObject
  | comma
  | colon
  | null
  | bool (b : Bool)
  | number (n : Option Number)
  | text (s : Option String)
  /-- A broken quoted text. -/
  | badText (b : Breakage)
  /-- Anything else that is broken. -/
  | bad (b : Breakage)

def scanWord : List Char → List Char → Except Fault (List Char)
  | [], cs => .ok cs
  | _ :: _, [] => .error .truncated
  | w :: ws, c :: cs => if w = c then scanWord ws cs else .error .malformed

def wordToken (t : Token) (word cs : List Char) : Token × List Char :=
  match scanWord word cs with
  | .ok rest => (t, rest)
  | .error f => (.bad ⟨f, f, .malformed⟩, [])

def numberToken (negative : Bool) (cs : List Char) : Token × List Char :=
  match scanNumeral negative cs with
  | .ok (l, rest) => (.number l.value?, rest)
  | .error f => (.bad ⟨f, .malformed, .malformed⟩, [])

def textToken (cs : List Char) : Token × List Char :=
  match scanQuoted [] cs with
  | (ps, .closed rest) => (.text ((joinPieces [] ps).map String.ofList), rest)
  | (ps, .cut f) =>
    let strict := if hasLone ps then .malformed else f
    (.badText ⟨strict, f, strict⟩, [])

def mark? (c : Char) : Option Token :=
  if c = '[' then some .openArray
  else if c = ']' then some .closeArray
  else if c = '{' then some .openObject
  else if c = '}' then some .closeObject
  else if c = ',' then some .comma
  else if c = ':' then some .colon
  else none

/-- The fixed word that starts with a character: its token and the rest of its letters. -/
def word? (c : Char) : Option (Token × List Char) :=
  if c = 'n' then some (.null, ['u', 'l', 'l'])
  else if c = 't' then some (.bool true, ['r', 'u', 'e'])
  else if c = 'f' then some (.bool false, ['a', 'l', 's', 'e'])
  else none

/-- The token that starts with the given character. -/
def tokenAt (c : Char) (rest : List Char) : Token × List Char :=
  match mark? c with
  | some t => (t, rest)
  | none =>
    if c = '"' then textToken rest
    else if c = '-' then numberToken true rest
    else if c.isDigit then numberToken false (c :: rest)
    else match word? c with
      | some (t, word) => wordToken t word rest
      | none => (.bad (.plain .malformed), [])

def isBlank (c : Char) : Bool := c = ' ' || c = '\n' || c = '\t' || c = '\r'

def skipBlanks : List Char → List Char
  | [] => []
  | c :: cs => if isBlank c then skipBlanks cs else c :: cs

/-! ## Scanners only move forward -/

theorem length_skipBlanks_le (cs : List Char) : (skipBlanks cs).length ≤ cs.length := by
  induction cs with
  | nil => simp [skipBlanks]
  | cons c cs ih =>
    unfold skipBlanks
    split
    · simp only [List.length_cons]; omega
    · simp

theorem length_scanWord {ws cs rest : List Char} (h : scanWord ws cs = .ok rest) :
    rest.length ≤ cs.length := by
  fun_induction scanWord ws cs with
  | case1 => cases h; simp
  | case2 => cases h
  | case3 _ _ _ ih => have := ih h; simp only [List.length_cons]; omega
  | case4 => cases h

theorem length_spanDigits (cs : List Char) :
    (spanDigits cs).1.length + (spanDigits cs).2.length = cs.length := by
  simp only [spanDigits]
  rw [← List.length_append, List.takeWhile_append_dropWhile]

theorem length_scanWhole {cs ds rest : List Char} (h : scanWhole cs = .ok (ds, rest)) :
    rest.length < cs.length := by
  unfold scanWhole at h
  split at h
  · split at h
    · split at h
      · cases h
      · cases h; simp
    · cases h; simp
  · have hl := length_spanDigits cs
    simp only at h
    split at h
    · cases h
    · next hne =>
      cases h
      have : 0 < (spanDigits cs).1.length := List.length_pos_iff.mpr (by simpa using hne)
      omega

theorem length_scanFraction {cs rest : List Char} {d : Option (List Char)}
    (h : scanFraction cs = .ok (d, rest)) : rest.length ≤ cs.length := by
  unfold scanFraction at h
  split at h
  · next cs =>
    have hl := length_spanDigits cs
    simp only at h
    split at h
    · cases h
    · cases h; simp only [List.length_cons]; omega
  · cases h; simp

theorem length_scanSign (cs : List Char) : (scanSign cs).2.length ≤ cs.length := by
  unfold scanSign
  split <;> simp

theorem length_scanExponent {cs rest : List Char} {d : Option (Bool × List Char)}
    (h : scanExponent cs = .ok (d, rest)) : rest.length ≤ cs.length := by
  unfold scanExponent at h
  split at h
  · next c cs =>
    split at h
    · have hs := length_scanSign cs
      have hl := length_spanDigits (scanSign cs).2
      simp only at h
      split at h
      · cases h
      · cases h; simp only [List.length_cons]; omega
    · cases h; simp
  · cases h; simp

theorem length_scanNumeral {negative : Bool} {cs rest : List Char} {l : Numeral}
    (h : scanNumeral negative cs = .ok (l, rest)) : rest.length < cs.length := by
  unfold scanNumeral at h
  cases hw : scanWhole cs with
  | error e => rw [hw] at h; cases h
  | ok w =>
    obtain ⟨ds, c1⟩ := w
    rw [hw] at h
    cases hf : scanFraction c1 with
    | error e => simp only [bind, Except.bind, hf] at h; cases h
    | ok w =>
      obtain ⟨fr, c2⟩ := w
      cases he : scanExponent c2 with
      | error e => simp only [bind, Except.bind, hf, he] at h; cases h
      | ok w =>
        obtain ⟨ex, c3⟩ := w
        simp only [bind, Except.bind, hf, he, pure, Except.pure, Except.ok.injEq,
          Prod.mk.injEq] at h
        obtain ⟨-, rfl⟩ := h
        have h1 := length_scanWhole hw
        have h2 := length_scanFraction hf
        have h3 := length_scanExponent he
        omega

theorem length_wordToken (t : Token) (w cs : List Char) :
    (wordToken t w cs).2.length ≤ cs.length := by
  unfold wordToken
  split
  · next r h => exact length_scanWord h
  · simp

theorem length_numberToken (negative : Bool) {cs : List Char} (hcs : cs ≠ []) :
    (numberToken negative cs).2.length < cs.length := by
  unfold numberToken
  split
  · next l r h => exact length_scanNumeral h
  · exact List.length_pos_iff.mpr hcs

theorem length_numberToken_le (negative : Bool) (cs : List Char) :
    (numberToken negative cs).2.length ≤ cs.length := by
  unfold numberToken
  split
  · next l r h => exact Nat.le_of_lt (length_scanNumeral h)
  · simp

theorem length_textToken (cs : List Char) : (textToken cs).2.length ≤ cs.length := by
  unfold textToken
  split
  · next ps r h => exact Nat.le_of_lt (scanQuoted_closed_lt h)
  · simp

theorem length_tokenAt (c : Char) (rest : List Char) :
    (tokenAt c rest).2.length < (c :: rest).length := by
  unfold tokenAt
  split
  · simp
  · split
    · exact Nat.lt_succ_of_le (length_textToken rest)
    · split
      · exact Nat.lt_succ_of_le (length_numberToken_le true rest)
      · split
        · exact length_numberToken false (by simp)
        · split
          · exact Nat.lt_succ_of_le (length_wordToken _ _ rest)
          · simp

/-- The first token of a text and what follows it; nothing when only blanks are left. -/
def nextToken (cs : List Char) : Option (Token × { rest : List Char // rest.length < cs.length }) :=
  match h : skipBlanks cs with
  | [] => none
  | c :: rest => some ((tokenAt c rest).1, ⟨(tokenAt c rest).2, by
      have h1 := length_skipBlanks_le cs
      rw [h] at h1
      exact Nat.lt_of_lt_of_le (length_tokenAt c rest) h1⟩)

end AgentMemory.Json
