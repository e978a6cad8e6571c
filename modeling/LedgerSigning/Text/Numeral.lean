/-! Decimal numerals. Leading zeros are allowed, and an optional plus sign; a minus sign only
where the number may be negative. -/
namespace LedgerSigning

namespace Numeral

/-- The value of a nonempty row of ASCII digits. -/
def digits? (text : List Char) : Option Nat :=
  if !text.isEmpty && text.all Char.isDigit then some (Nat.ofDigitChars 10 text 0) else none

def natural? : List Char → Option Nat
  | '+' :: rest => digits? rest
  | text => digits? text

def integer? : List Char → Option Int
  | '-' :: rest => (digits? rest).map fun n => -(n : Int)
  | text => (natural? text).map Int.ofNat

/-- How many words of 64 bits there are. -/
def words : Nat := 0x10000000000000000

/-- A natural number below `bound`. -/
def below? (bound : Nat) (text : List Char) : Option Nat := (natural? text).filter (· < bound)

def unsigned64? (text : List Char) : Option UInt64 := (below? words text).map Nat.toUInt64

def ofNat (n : Nat) : List Char := Nat.toDigits 10 n

def ofInt (n : Int) : List Char := if n < 0 then '-' :: ofNat n.natAbs else ofNat n.natAbs

/-- Lower-case hexadecimal without leading zeros. -/
def hex (n : Nat) : List Char := Nat.toDigits 16 n

end Numeral

end LedgerSigning
