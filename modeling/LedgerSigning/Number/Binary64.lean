/-! Binary64 numbers without runtime floats. A magnitude is a code: the finite
magnitudes are numbered in increasing order from zero, the next code is infinity,
and the codes above it are not numbers. A finite code stands for `units code` times
2^-1074, the least positive magnitude, so every operation is exact arithmetic on
naturals followed by one rounding to the nearest code. -/
namespace LedgerSigning

/-- A sign and a magnitude code, which together fill 64 bits. -/
structure Binary64 where
  negative : Bool
  code : Nat
  code_lt : code < 0x8000000000000000
deriving DecidableEq

namespace Binary64

/-- How many fractions there are for each exponent: 2^52. -/
def fractions : Nat := 0x10000000000000

/-- The code after the last finite magnitude. -/
def infinityCode : Nat := 2047 * fractions

/-- How many units of 2^-1074 make one. -/
def unitsPerOne : Nat := Nat.pow 2 1074

/-- The magnitude of a finite code in units of 2^-1074. The low 52 bits of a code are the
fraction; the bits above them are the exponent, and exponent zero has no leading one. -/
def units (code : Nat) : Nat :=
  if code < fractions then code
  else (fractions + code % fractions) * Nat.pow 2 (code / fractions - 1)

/-- The number with these 64 bits, the sign being the highest. -/
def ofBits (bits : Nat) : Binary64 where
  negative := bits / 0x8000000000000000 % 2 == 1
  code := bits % 0x8000000000000000
  code_lt := Nat.mod_lt _ (by decide)

def toBits (x : Binary64) : Nat := (if x.negative then 0x8000000000000000 else 0) + x.code

def isFinite (x : Binary64) : Bool := x.code < infinityCode

def isNaN (x : Binary64) : Bool := infinityCode < x.code

def zero (negative : Bool) : Binary64 := ⟨negative, 0, by decide⟩

def infinity (negative : Bool) : Binary64 := ⟨negative, infinityCode, by decide⟩

/-- The quiet number that is not one. -/
def nan : Binary64 := ⟨false, infinityCode + 0x8000000000000, by decide⟩

def finite? (x : Binary64) : Option Binary64 := if x.isFinite then some x else none

/-- Below zero; neither zero nor a NaN is. -/
def isBelowZero (x : Binary64) : Bool := x.negative && x.code != 0 && !x.isNaN

/-- The quotient rounded to a natural, a half going to the even neighbour. -/
def roundDiv (num den : Nat) : Nat :=
  let quotient := num / den
  let rest := num % den
  if 2 * rest < den ∨ (2 * rest = den ∧ quotient % 2 = 0) then quotient else quotient + 1

/-- The code nearest to `num / den` units, ties going to the even code. With 53 significant
bits or fewer a count of units is its own code; above that each doubling of the spacing adds
2^52 codes, and a significand that rounds up to 2^53 carries into the next spacing by itself. -/
def nearestCode (num den : Nat) : Nat :=
  let shift := Nat.log2 (num / den) - 52
  min (shift * fractions + roundDiv num (den * Nat.pow 2 shift)) infinityCode

theorem nearestCode_le (num den : Nat) : nearestCode num den ≤ infinityCode :=
  Nat.min_le_right _ _

/-- The number nearest to `num / den` units. -/
def nearest (negative : Bool) (num den : Nat) : Binary64 where
  negative := negative
  code := nearestCode num den
  code_lt := Nat.lt_of_le_of_lt (nearestCode_le num den) (by decide)

/-- The number nearest to an integer; zero is positive. -/
def ofInt (n : Int) : Binary64 := nearest (n < 0) (n.natAbs * unitsPerOne) 1

/-- The rounded product. Infinity times zero is not a number. -/
def mul (x y : Binary64) : Binary64 :=
  let sign := x.negative != y.negative
  if x.isFinite && y.isFinite then
    nearest sign (units x.code * units y.code) unitsPerOne
  else if x.isNaN || y.isNaN || x.code == 0 || y.code == 0 then nan
  else infinity sign

/-- The greatest integer not above a finite number. -/
def floor? (x : Binary64) : Option Int :=
  if x.isFinite then
    if x.negative then some (-(((units x.code + (unitsPerOne - 1)) / unitsPerOne : Nat) : Int))
    else some ((units x.code / unitsPerOne : Nat) : Int)
  else none

/-- The number nearest to `digits` times ten to the `exponent`. Decimals of 310 places before
the point are infinite and those with 330 zeros after it vanish, so the power is computed
only in between. -/
def ofDecimal (negative : Bool) (digits : Nat) (exponent : Int) : Binary64 :=
  let places := ((Nat.toDigits 10 digits).length : Int) + exponent
  if digits = 0 ∨ places < -330 then zero negative
  else if 310 < places then infinity negative
  else match exponent with
    | .ofNat e => nearest negative (digits * Nat.pow 10 e * unitsPerOne) 1
    | .negSucc e => nearest negative (digits * unitsPerOne) (Nat.pow 10 (e + 1))

end Binary64

end LedgerSigning
