import LedgerSigning.Number.Binary64

/-! The fewest decimal digits that read back to a given binary64 magnitude. For each number
of digits the two neighbours of the magnitude on that decimal grid are read back; the first
grid on which one of them does so gives the digits, the nearer of the two winning. -/
namespace LedgerSigning

/-- `significand` times ten to the `exponent`. -/
structure Decimal where
  significand : Nat
  exponent : Int
deriving DecidableEq

/-- Where two candidates are equally near, which of them is written. -/
inductive TieRule where
  | even
  | up
deriving DecidableEq

namespace Decimal

/-- The code of the binary64 magnitude nearest to a decimal. -/
def nearestCode (d : Decimal) : Nat := (Binary64.ofDecimal false d.significand d.exponent).code

/-- The number of digits before the point of `count` units; zero or less counts the zeros
after the point. The scaling by 10^400 brings every positive magnitude above one. -/
def placesOf (count : Nat) : Int :=
  ((Nat.toDigits 10 (count * Nat.pow 10 400 / Binary64.unitsPerOne)).length : Int) - 400

/-- `count` units over ten to the `exponent`, as numerator and denominator. -/
def scaled (count : Nat) : Int → Nat × Nat
  | .ofNat e => (count, Binary64.unitsPerOne * Nat.pow 10 e)
  | .negSucc e => (count * Nat.pow 10 (e + 1), Binary64.unitsPerOne)

/-- The multiple of ten to the `exponent` that reads back to `code`, if there is one. -/
def onGrid? (ties : TieRule) (code : Nat) (exponent : Int) : Option Decimal :=
  let (num, den) := scaled (Binary64.units code) exponent
  let below : Decimal := ⟨num / den, exponent⟩
  let above : Decimal := ⟨num / den + 1, exponent⟩
  let rest := num % den
  match below.nearestCode == code, above.nearestCode == code with
  | true, true =>
    if 2 * rest < den then some below
    else if den < 2 * rest then some above
    else match ties with
      | .even => some (if num / den % 2 = 0 then below else above)
      | .up => some above
  | true, false => some below
  | false, true => some above
  | false, false => none

/-- The magnitude itself, written out in full: 2^-1074 is 5^1074 over ten to the 1074. -/
def exact (code : Nat) : Decimal := ⟨Binary64.units code * Nat.pow 5 1074, -1074⟩

/-- The decimal with fewest digits that reads back to a finite `code`. Seventeen digits always
suffice. -/
def shortest (ties : TieRule) (code : Nat) : Decimal :=
  let places := placesOf (Binary64.units code)
  ((List.range 17).findSome? fun i => onGrid? ties code (places - (i + 1 : Nat))).getD (exact code)

end Decimal

end LedgerSigning
