import LedgerSigning.Number.Binary64

/-! JSON documents as values. The members of an object are listed in the order in which they
are written. -/
namespace LedgerSigning

/-- A JSON number: an integer of 64 bits, signed or not, or a finite binary64 number. -/
inductive Number where
  | integer (n : Int) (range : -0x8000000000000000 ≤ n ∧ n < 0x10000000000000000)
  | float (x : Binary64) (finite : x.isFinite = true)
deriving DecidableEq

inductive Json where
  | null
  | bool (b : Bool)
  | number (n : Number)
  | string (s : String)
  | array (items : List Json)
  | object (members : List (String × Json))

namespace Number

/-- An integer of 64 bits, signed or not. -/
def ofInt? (n : Int) : Option Number :=
  if range : -0x8000000000000000 ≤ n ∧ n < 0x10000000000000000 then some (.integer n range) else none

def ofBinary64? (x : Binary64) : Option Number :=
  if finite : x.isFinite = true then some (.float x finite) else none

/-- The number of an integer token. Minus zero and integers beyond 64 bits are floats. -/
def ofInteger? (negative : Bool) (magnitude : Nat) : Option Number :=
  let n : Int := if negative then -magnitude else magnitude
  if negative ∧ magnitude = 0 then ofBinary64? (.zero true)
  else ofInt? n <|> ofBinary64? (.ofDecimal negative magnitude 0)

/-- The number of a token with a point or an exponent; none if it rounds to infinity. -/
def ofDecimal? (negative : Bool) (significand : Nat) (exponent : Int) : Option Number :=
  ofBinary64? (.ofDecimal negative significand exponent)

end Number

namespace Json

def ofUInt64 (n : UInt64) : Json :=
  .number (.integer n.toNat ⟨by omega, by have hLess := n.toNat_lt; omega⟩)

/-- Infinities and NaN are written as null. -/
def ofBinary64 (x : Binary64) : Json :=
  match Number.ofBinary64? x with
  | some n => .number n
  | none => .null

end Json

end LedgerSigning
