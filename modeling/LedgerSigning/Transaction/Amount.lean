import LedgerSigning.Error

/-! Token amounts and integer units, 10^8 of which make one token. -/
namespace LedgerSigning

namespace Amount

def unitsPerToken : Binary64 := .ofInt 100000000

/-- The size of one unit in tokens. -/
def tokensPerUnit : Binary64 := .ofDecimal false 1 (-8)

def minUnits : Int := -0x8000000000000000

def maxUnits : Int := 0x7FFFFFFFFFFFFFFF

/-- Tokens as units, rounded down and brought into 64 bits. NaN counts as zero. -/
def toUnits (tokens : Binary64) : Int :=
  let product := tokens.mul unitsPerToken
  match product.floor? with
  | some units => max minUnits (min units maxUnits)
  | none => if product.isNaN then 0 else if product.negative then minUnits else maxUnits

/-- Units as tokens. The product with the size of a unit can differ from the quotient in the
last bit. -/
def ofUnits (units : Int) : Binary64 := (Binary64.ofInt units).mul tokensPerUnit

/-- Tokens as units where they fit 64 bits. -/
def checked (quantity : Quantity) (tokens : Binary64) : Except ArgumentError Int :=
  if !tokens.isFinite then .error (.notFinite quantity)
  else match (tokens.mul unitsPerToken).floor? with
    | none => .error (.tooLarge quantity tokens)
    | some units =>
      if units < minUnits ∨ maxUnits < units then .error (.tooLarge quantity tokens)
      else .ok units

end Amount

end LedgerSigning
