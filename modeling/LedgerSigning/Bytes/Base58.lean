import LedgerSigning.Bytes.BigEndian

/-! Base58 text of bytes. Each leading zero byte is written as the zero symbol, and the rest
as the digits of a big-endian number. -/
namespace LedgerSigning

namespace Base58

/-- The symbols in order of value; the zero and the letters that look alike are left out. -/
def alphabet : List Char := "123456789ABCDEFGHJKLMNPQRSTUVWXYZabcdefghijkmnopqrstuvwxyz".toList

def symbol (n : Nat) : Char := alphabet.getD n '1'

/-- Prepends the digits of `n` in base 58, at most `steps` of them. -/
def digitsOnto : Nat → Nat → List Nat → List Nat
  | 0, _, acc => acc
  | steps + 1, n, acc => if n = 0 then acc else digitsOnto steps (n / 58) (n % 58 :: acc)

/-- The digits of a number, none for zero. A number has no more digits than its value. -/
def digits (n : Nat) : List Nat := digitsOnto n n []

def encode (bytes : List UInt8) : List Char :=
  let zeros := bytes.takeWhile (· = 0)
  zeros.map (fun _ => symbol 0) ++ (digits (BigEndian.toNat bytes)).map symbol

end Base58

end LedgerSigning
