import LedgerSigning.Text.Utf8

/-! Texts framed for hashing: a marker, an optional flag, one more than the number of
characters, and the octets. -/
namespace LedgerSigning

namespace Framing

def marker : UInt8 := 0x03

def flag : UInt8 := 0x01

/-- Groups of seven bits from the lowest on; a set highest bit says that more follow. Each
group makes the number smaller, so the number bounds the steps. -/
def groups : Nat → Nat → List UInt8
  | 0, n => [n.toUInt8]
  | steps + 1, n =>
    if n < 128 then [n.toUInt8] else (n % 128 + 128).toUInt8 :: groups steps (n / 128)

/-- The first byte holds six bits below a set highest bit; the bit between says that groups
follow. -/
def length (n : Nat) : List UInt8 :=
  if n < 64 then [(n + 128).toUInt8]
  else (n % 64 + 192).toUInt8 :: groups (n / 64) (n / 64)

def frame (flagged : Bool) (text : List Char) : List UInt8 :=
  marker :: (if flagged then [flag] else []) ++ length (text.length + 1) ++ Utf8.encode text

end Framing

end LedgerSigning
