import LedgerSigning.Bytes.BigEndian
import LedgerSigning.Curve.Signature

/-! Signatures as bytes by the distinguished encoding rules: a sequence of two integers, each
with the fewest bytes. Main operations: `encode`, and `decode?`, which accepts no other form. -/
namespace LedgerSigning

namespace Der

/-- The fewest bytes of a number below 2^256 whose highest bit is clear. -/
def integerBody (n : Nat) : List UInt8 :=
  match (BigEndian.ofNat 32 n).dropWhile (· = 0) with
  | [] => [0]
  | b :: rest => if b < 0x80 then b :: rest else 0 :: b :: rest

/-- A tag, the length and the body, which is shorter than 128 bytes. -/
def field (tag : UInt8) (body : List UInt8) : List UInt8 :=
  tag :: body.length.toUInt8 :: body

def encode (sig : Signature) : List UInt8 :=
  field 0x30 (field 0x02 (integerBody sig.r) ++ field 0x02 (integerBody sig.s))

/-- The body of a field with a tag, and the bytes after it. Long lengths are refused. -/
def field? (tag : UInt8) : List UInt8 → Option (List UInt8 × List UInt8)
  | t :: length :: rest =>
    if t = tag ∧ length < 0x80 ∧ length.toNat ≤ rest.length then
      some (rest.take length.toNat, rest.drop length.toNat)
    else none
  | _ => none

/-- Not negative, and no leading zero but before a set highest bit. -/
def isMinimal : List UInt8 → Bool
  | [] => false
  | [b] => b < 0x80
  | b :: c :: _ => if b = 0 then 0x80 ≤ c else b < 0x80

def integer? (bytes : List UInt8) : Option (Nat × List UInt8) := do
  let (body, rest) ← field? 0x02 bytes
  if isMinimal body then some (BigEndian.toNat body, rest) else none

/-- The signature of its bytes; both values must be in range. -/
def decode? (bytes : List UInt8) : Option Signature := do
  let (body, rest) ← field? 0x30 bytes
  let (r, body) ← integer? body
  let (s, body) ← integer? body
  let sig : Signature := ⟨r, s⟩
  if rest.isEmpty && body.isEmpty && sig.inRange then some sig else none

end Der

end LedgerSigning
