import AgentMemory.Number.Binary64

/-!
# Decimal text of binary numbers

`shortest` finds the fewest significant digits that still lie in the interval of reals rounding to a
value, and of those the nearest to it. `write` lays them out: positional for decimal exponents from
`-5` to `15`, always with a point, and scientific with a signed exponent outside that range.

`ofDecimal` is the reading of `significand * 10 ^ exponent`: the significand and the power are each
rounded, and so is their product or quotient. It is therefore exact only for short literals.
-/

namespace AgentMemory.Binary64

/-! ## Reading -/

/-- The largest exponent whose power of ten is finite. -/
def maxPower : Nat := 308

/-- A power of ten, rounded. -/
def powerOfTen (k : Nat) : Option Binary64 := ofNat (Nat.pow 10 k)

/-- Divides by `10 ^ k`, in steps of the largest finite power. -/
def divideByPower (x : Binary64) (k : Nat) : Option Binary64 :=
  if k ≤ maxPower then (powerOfTen k).bind x.div
  else if x.isZero then some x
  else ((powerOfTen maxPower).bind x.div).bind (divideByPower · (k - maxPower))
termination_by k
decreasing_by simp only [maxPower] at *; omega

/-- The value read from `significand * 10 ^ exponent`; nothing when it is not finite. -/
def ofDecimal (significand : Nat) (exponent : Int) : Option Binary64 :=
  (ofNat significand).bind fun x =>
    if 0 ≤ exponent then
      if exponent ≤ maxPower then (powerOfTen exponent.toNat).bind x.mul
      else if x.isZero then some x else none
    else divideByPower x (-exponent).toNat

/-! ## Writing -/

/-- The interval of reals that round to a value, as numerators over a common denominator: its ends,
the value itself, and whether the ends belong to it. -/
structure Interval where
  low : Nat
  value : Nat
  high : Nat
  den : Nat
  closed : Bool

/-- The rounding interval of a positive value. Below a power of two the gap is half as wide. -/
def interval (x : Binary64) : Interval :=
  let narrow := x.significand == Nat.pow 2 (precision - 1) && minExponent < x.exponent
  let (unit, den) := scaled 1 4 x.exponent
  { low := (4 * x.significand - if narrow then 1 else 2) * unit
    value := 4 * x.significand * unit
    high := (4 * x.significand + 2) * unit
    den
    closed := x.significand % 2 == 0 }

def Interval.holds (i : Interval) (num den : Nat) : Bool :=
  let (a, b, c) := (i.low * den, num * i.den, i.high * den)
  if i.closed then a ≤ b && b ≤ c else a < b && b < c

/-- The largest `e` with `10 ^ e ≤ num / den`, for a positive ratio. -/
def floorLog10 (num den : Nat) : Int :=
  if den ≤ num then (Nat.toDigits 10 (num / den)).length - 1
  else
    let k := (Nat.toDigits 10 (den / num)).length
    if den ≤ num * Nat.pow 10 (k - 1) then -((k - 1 : Nat) : Int) else -(k : Int)

/-- `num / den / 10 ^ e` as a ratio. -/
def unscaled (num den : Nat) (e : Int) : Nat × Nat :=
  if 0 ≤ e then (num, den * Nat.pow 10 e.toNat) else (num * Nat.pow 10 (-e).toNat, den)

/-- `d * 10 ^ e` as a ratio. -/
def gridPoint (d : Nat) (e : Int) : Nat × Nat :=
  if 0 ≤ e then (d * Nat.pow 10 e.toNat, 1) else (d, Nat.pow 10 (-e).toNat)

/-- The point of the grid `10 ^ e` that lies in the interval and is nearest to its value. -/
def nearestOn (i : Interval) (e : Int) : Option Nat :=
  let (n, d) := unscaled i.value i.den e
  let below := n / d
  let rest := n % d
  let fits (p : Nat) : Bool := let (a, b) := gridPoint p e; i.holds a b
  match fits below, fits (below + 1) with
  | true, false => some below
  | false, true => some (below + 1)
  | false, false => none
  | true, true =>
    if 2 * rest < d then some below
    else if d < 2 * rest then some (below + 1)
    else some (below + below % 2)

/-- Digits and exponent of the first grid that meets the interval, trying the given numbers of
digits. -/
def firstGrid (i : Interval) (top : Int) : List Nat → Option (Nat × Int)
  | [] => none
  | n :: ns =>
    let e := top - n
    match nearestOn i e with
    | some d => if d = 0 then firstGrid i top ns else some (d, e)
    | none => firstGrid i top ns

/-- The fewest significant digits that read back, as a whole number and a power of ten. Seventeen
digits always suffice. -/
def shortest (x : Binary64) : Nat × Int :=
  let i := x.interval
  let top := floorLog10 i.value i.den
  (firstGrid i top (List.range 17)).getD (0, 0)

/-- The digits without the zeros at their end, and the exponent of the first digit. -/
def significant (d : Nat) (e : Int) : List Char × Int :=
  let ds := Nat.toDigits 10 d
  ((ds.reverse.dropWhile (· == '0')).reverse, e + ds.length - 1)

/-- Lays out digits whose first one has the decimal exponent `e`. -/
def layout (ds : List Char) (e : Int) : List Char :=
  if 0 ≤ e ∧ e < 16 then
    let whole := e.toNat + 1
    if ds.length ≤ whole then ds ++ List.replicate (whole - ds.length) '0' ++ ['.', '0']
    else ds.take whole ++ '.' :: ds.drop whole
  else if -5 ≤ e ∧ e < 0 then '0' :: '.' :: List.replicate ((-e).toNat - 1) '0' ++ ds
  else
    let mantissa := match ds with
      | d :: d' :: rest => d :: '.' :: d' :: rest
      | ds => ds
    let sign := if e < 0 then '-' else '+'
    mantissa ++ 'e' :: sign :: Nat.toDigits 10 e.natAbs

/-- The text of a value. -/
def write (x : Binary64) : List Char :=
  let body :=
    if x.isZero then ['0', '.', '0']
    else
      let (d, e) := x.shortest
      let (ds, e) := significant d e
      layout ds e
  if x.negative then '-' :: body else body

end AgentMemory.Binary64
