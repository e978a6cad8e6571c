/-! Base64 with the standard alphabet and canonical padding. Main operations: `encode`, and
`decode`, which accepts exactly what `encode` writes and otherwise names the first fault. -/
namespace LedgerSigning

inductive Base64Error where
  | symbol (byte : UInt8) (offset : Nat)
  | length (count : Nat)
  | padding
  | lastSymbol (byte : UInt8) (offset : Nat)
deriving DecidableEq

namespace Base64Error

def message : Base64Error → String
  | symbol byte offset => s!"Invalid symbol {byte.toNat}, offset {offset}."
  | length count => s!"Invalid input length: {count}"
  | padding => "Invalid padding"
  | lastSymbol byte offset => s!"Invalid last symbol {byte.toNat}, offset {offset}."

end Base64Error

namespace Base64

def pad : UInt8 := 61

/-- The octet of a value below 64. -/
def symbol (n : Nat) : UInt8 :=
  if n < 26 then (65 + n).toUInt8
  else if n < 52 then (71 + n).toUInt8
  else if n < 62 then (n - 4).toUInt8
  else if n = 62 then 43
  else 47

def value? (b : UInt8) : Option Nat :=
  if 65 ≤ b ∧ b ≤ 90 then some (b.toNat - 65)
  else if 97 ≤ b ∧ b ≤ 122 then some (b.toNat - 71)
  else if 48 ≤ b ∧ b ≤ 57 then some (b.toNat + 4)
  else if b = 43 then some 62
  else if b = 47 then some 63
  else none

/-- Three bytes as four symbols. -/
def group (a b c : UInt8) : List UInt8 :=
  [symbol (a.toNat / 4), symbol (a.toNat % 4 * 16 + b.toNat / 16),
   symbol (b.toNat % 16 * 4 + c.toNat / 64), symbol (c.toNat % 64)]

def encodeOnto (acc : List UInt8) : List UInt8 → List UInt8
  | [] => acc.reverse
  | [a] => acc.reverse ++ [symbol (a.toNat / 4), symbol (a.toNat % 4 * 16), pad, pad]
  | [a, b] => acc.reverse ++ [symbol (a.toNat / 4), symbol (a.toNat % 4 * 16 + b.toNat / 16),
      symbol (b.toNat % 16 * 4), pad]
  | a :: b :: c :: rest => encodeOnto ((group a b c).reverse ++ acc) rest

def encode (bytes : List UInt8) : List UInt8 := encodeOnto [] bytes

def read (offset : Nat) (b : UInt8) : Except Base64Error Nat :=
  match value? b with
  | some n => .ok n
  | none => .error (.symbol b offset)

/-- The values of the last group, which may end in padding. `seen` counts the values before;
a fault after padding is reported at the first padding octet. -/
def lastValues (offset : Nat) (seen : Nat) : List UInt8 → Except Base64Error (List Nat)
  | [] => .ok []
  | b :: rest =>
    if b = pad then
      if seen < 2 ∨ rest.any (· ≠ pad) then .error (.symbol pad (offset + seen)) else .ok []
    else do
      let n ← read (offset + seen) b
      let more ← lastValues offset (seen + 1) rest
      .ok (n :: more)

/-- The bytes of the last group. Bits that no byte uses must be zero. -/
def lastGroup (offset : Nat) (octets : List UInt8) : Except Base64Error (List UInt8) := do
  let values ← lastValues offset 0 octets
  let unused := .error (.lastSymbol (octets.getD (values.length - 1) 0) (offset + values.length - 1))
  if values.length < 2 then .error (.length (offset + values.length))
  else if octets.length ≠ 4 then .error .padding
  else match values with
    | [a, b] =>
      if b % 16 ≠ 0 then unused else .ok [(a * 4 + b / 16).toUInt8]
    | [a, b, c] =>
      if c % 4 ≠ 0 then unused else .ok [(a * 4 + b / 16).toUInt8, (b % 16 * 16 + c / 4).toUInt8]
    | [a, b, c, d] =>
      .ok [(a * 4 + b / 16).toUInt8, (b % 16 * 16 + c / 4).toUInt8, (c % 4 * 64 + d).toUInt8]
    | _ => .error .padding

/-- Groups of four values that another octet follows are full. -/
def decodeFrom (offset : Nat) (acc : List UInt8) : List UInt8 → Except Base64Error (List UInt8)
  | [] => .ok acc.reverse
  | a :: b :: c :: d :: e :: rest => do
    let p ← read offset a
    let q ← read (offset + 1) b
    let r ← read (offset + 2) c
    let s ← read (offset + 3) d
    decodeFrom (offset + 4)
      ((r % 4 * 64 + s).toUInt8 :: (q % 16 * 16 + r / 4).toUInt8 :: (p * 4 + q / 16).toUInt8 :: acc)
      (e :: rest)
  | last => do
    let bytes ← lastGroup offset last
    .ok (acc.reverse ++ bytes)

/-- A single octet over whole groups that is no symbol at all is reported first. -/
def decode (octets : List UInt8) : Except Base64Error (List UInt8) :=
  match octets.getLast? with
  | none => .ok []
  | some last =>
    if octets.length % 4 = 1 ∧ last ≠ pad ∧ value? last = none then
      .error (.symbol last (octets.length - 1))
    else decodeFrom 0 [] octets

end Base64

end LedgerSigning
