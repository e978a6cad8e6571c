import LedgerSigning.Curve.Nonce
import LedgerSigning.Curve.Point

/-! ECDSA signatures over digests of 32 bytes. -/
namespace LedgerSigning

structure Signature where
  r : Nat
  s : Nat
deriving DecidableEq

namespace Signature

open Curve

/-- The signature with the lower of the two values of `s` that verify alike. -/
def lowS (sig : Signature) : Signature := ⟨sig.r, if n / 2 < sig.s then n - sig.s else sig.s⟩

/-- Both values are scalars other than zero. -/
def inRange (sig : Signature) : Bool := 0 < sig.r && sig.r < n && 0 < sig.s && sig.s < n

/-- The digest as a scalar. -/
def scalarOf (digest : List UInt8) : Nat := BigEndian.toNat digest % n

/-- The signature by a private scalar with a given nonce. -/
def withNonce? (scalar k : Nat) (digest : List UInt8) : Option Signature := do
  let point ← (generator.toProjective.mul k).toAffine?
  let r := point.x % n
  let s := invMod n k * (scalarOf digest + r * scalar) % n
  if r = 0 ∨ s = 0 then none else some (lowS ⟨r, s⟩)

/-- The signature by a private scalar, always the same for the same digest. -/
def sign? (scalar : Nat) (digest : List UInt8) : Option Signature := do
  let k ← Nonce.of? scalar digest
  withNonce? scalar k digest

/-- The equation of a signature: the point made from the digest, the signature and the public
point has `r` for its first coordinate modulo `n`. -/
def satisfies (sig : Signature) (point : Affine) (digest : List UInt8) : Bool :=
  let w := invMod n sig.s
  let u := scalarOf digest * w % n
  let v := sig.r * w % n
  match ((generator.toProjective.mul u).add (point.toProjective.mul v)).toAffine? with
  | some sum => sum.x % n == sig.r
  | none => false

end Signature

end LedgerSigning
