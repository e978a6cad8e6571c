/-! Hexadecimal text of bytes: two digits a byte, the high half first. Main operations:
`encode` writes lower case, `decode` reads either case from UTF-8 octets and names the
first fault. -/
namespace LedgerSigning

inductive HexError where
  | oddLength
  | badDigit (byte : UInt8) (index : Nat)
deriving DecidableEq

namespace Hex

def digit (n : Nat) : Char := Nat.digitChar n

def digit? (b : UInt8) : Option Nat :=
  if 48 ≤ b ∧ b ≤ 57 then some (b.toNat - 48)
  else if 97 ≤ b ∧ b ≤ 102 then some (b.toNat - 87)
  else if 65 ≤ b ∧ b ≤ 70 then some (b.toNat - 55)
  else none

/-- A hexadecimal digit of either case. -/
def isDigit (c : Char) : Bool :=
  c.isDigit || ('a' ≤ c && c ≤ 'f') || ('A' ≤ c && c ≤ 'F')

def encode (bytes : List UInt8) : List Char :=
  bytes.flatMap fun b => [digit (b.toNat / 16), digit (b.toNat % 16)]

def read (index : Nat) (b : UInt8) : Except HexError Nat :=
  match digit? b with
  | some n => .ok n
  | none => .error (.badDigit b index)

/-- Reads pairs of digits; a lone last octet counts as an odd length. -/
def decodeFrom (index : Nat) (acc : List UInt8) : List UInt8 → Except HexError (List UInt8)
  | [] => .ok acc.reverse
  | [_] => .error .oddLength
  | a :: b :: rest => do
    let high ← read index a
    let low ← read (index + 1) b
    decodeFrom (index + 2) ((high * 16 + low).toUInt8 :: acc) rest

/-- The length is looked at before the digits. -/
def decode (octets : List UInt8) : Except HexError (List UInt8) :=
  if octets.length % 2 = 1 then .error .oddLength else decodeFrom 0 [] octets

end Hex

/-- A byte as a quoted character: with an escape where the character of that code is not
printable, or is the quote or the backslash. -/
def quotedByte (b : UInt8) : List Char :=
  let inner : List Char :=
    if b = 0 then ['\\', '0']
    else if b = 9 then ['\\', 't']
    else if b = 10 then ['\\', 'n']
    else if b = 13 then ['\\', 'r']
    else if b = 39 then ['\\', '\'']
    else if b = 92 then ['\\', '\\']
    else if b < 32 ∨ (127 ≤ b ∧ b ≤ 160) ∨ b = 173 then
      ['\\', 'u', '\x7b'] ++ Nat.toDigits 16 b.toNat ++ ['\x7d']
    else [Char.ofNat b.toNat]
  '\'' :: inner ++ ['\'']

def HexError.message : HexError → String
  | .oddLength => "Odd number of digits"
  | .badDigit byte index =>
    "Invalid character " ++ String.ofList (quotedByte byte) ++ s!" at position {index}"

end LedgerSigning
