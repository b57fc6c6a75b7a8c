/-!
# Finite binary floating-point numbers

A value is a sign, a whole significand and a power of two, in the format with 53 significant bits
and least exponent `-1074`. `ofRatio` rounds a positive ratio to the nearest value, a tie to the
even significand; products and quotients are the exact results rounded once.
-/

namespace AgentMemory

/-- A finite number `± significand * 2 ^ exponent`. -/
structure Binary64 where
  negative : Bool
  significand : Nat
  exponent : Int
  deriving DecidableEq, Inhabited

namespace Binary64

/-- Bits of a full significand. -/
def precision : Nat := 53

/-- The exponent of the smallest values. -/
def minExponent : Int := -1074

/-- The exponent of the largest values. -/
def maxExponent : Int := 971

def zero (negative : Bool) : Binary64 := ⟨negative, 0, minExponent⟩

def isZero (x : Binary64) : Bool := x.significand == 0

def withSign (negative : Bool) (x : Binary64) : Binary64 := { x with negative }

/-- Equality of values: the two zeros are equal. -/
def same (x y : Binary64) : Bool := x == y || (x.isZero && y.isZero)

/-- `num / den` rounded to a whole number, a tie to the even one. -/
def roundDiv (num den : Nat) : Nat :=
  let q := num / den
  let r := num % den
  if 2 * r < den then q else if den < 2 * r then q + 1 else q + q % 2

/-- `num / den * 2 ^ k` as a ratio of whole numbers. -/
def scaled (num den : Nat) (k : Int) : Nat × Nat :=
  if 0 ≤ k then (num * Nat.pow 2 k.toNat, den) else (num, den * Nat.pow 2 (-k).toNat)

/-- The largest `k` with `2 ^ k ≤ num / den`, for a positive ratio. -/
def floorLog2 (num den : Nat) : Int :=
  let k : Int := num.log2 - den.log2
  let (n, d) := scaled num den (-k)
  if n < d then k - 1 else k

/-- The value nearest to `num / den`; nothing when it is too large to be finite. -/
def ofRatio (num den : Nat) : Option Binary64 :=
  if num = 0 then some (zero false)
  else
    let e := max minExponent (floorLog2 num den - (precision - 1))
    let (n, d) := scaled num den (-e)
    let m := roundDiv n d
    let (m, e) :=
      if m = Nat.pow 2 precision then (Nat.pow 2 (precision - 1), e + 1) else (m, e)
    if maxExponent < e then none else some ⟨false, m, e⟩

/-- The value nearest to a whole number. -/
def ofNat (n : Nat) : Option Binary64 := ofRatio n 1

/-- The magnitude of `x * y`, rounded. -/
def mul (x y : Binary64) : Option Binary64 :=
  let (n, d) := scaled (x.significand * y.significand) 1 (x.exponent + y.exponent)
  ofRatio n d

/-- The magnitude of `x / y`, rounded; the divisor is not zero. -/
def div (x y : Binary64) : Option Binary64 :=
  let (n, d) := scaled x.significand y.significand (x.exponent - y.exponent)
  ofRatio n d

end Binary64
end AgentMemory
