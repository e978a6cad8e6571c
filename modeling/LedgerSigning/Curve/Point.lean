import LedgerSigning.Curve.Field

/-! Points of y² = x³ + 7 over the integers modulo `p`. Sums are taken on projective
coordinates by formulas without exceptions. -/
namespace LedgerSigning

namespace Curve

/-- Coordinates up to a common factor; the point at infinity has `z` zero. -/
structure Projective where
  x : Nat
  y : Nat
  z : Nat
deriving DecidableEq

/-- A finite point by its coordinates. -/
structure Affine where
  x : Nat
  y : Nat
deriving DecidableEq

def Affine.isOnCurve (a : Affine) : Bool :=
  a.x < p && a.y < p && a.y * a.y % p == (a.x * a.x % p * a.x + 7) % p

def Affine.toProjective (a : Affine) : Projective := ⟨a.x, a.y, 1⟩

namespace Projective

def infinity : Projective := ⟨0, 1, 0⟩

/-- The complete sum for a curve without points of order two. -/
def add (a b : Projective) : Projective :=
  let xx := a.x * b.x % p
  let yy := a.y * b.y % p
  let zz := 21 * (a.z * b.z) % p
  let xy := (a.x * b.y + b.x * a.y) % p
  let yz := (a.y * b.z + b.y * a.z) % p
  let xz := (a.x * b.z + b.x * a.z) % p
  let plus := (yy + zz) % p
  let minus := subMod p yy zz
  ⟨subMod p (xy * minus) (21 * (yz * xz)), (plus * minus + 63 * (xx * xz)) % p,
   (yz * plus + 3 * (xx * xy)) % p⟩

/-- The multiple by a scalar of 256 bits. -/
def mul (scalar : Nat) (a : Projective) : Projective := ladder add infinity a scalar

def toAffine? (a : Projective) : Option Affine :=
  if a.z % p = 0 then none
  else
    let inverse := invMod p a.z
    some ⟨a.x * inverse % p, a.y * inverse % p⟩

end Projective

def generator : Affine :=
  ⟨0x79BE667EF9DCBBAC55A06295CE870B07029BFCDB2DCE28D959F2815B16F81798,
   0x483ADA7726A3C4655DA4FBFC0E1108A8FD17B448A68554199C47D08FFB10D4B8⟩

end Curve

end LedgerSigning
