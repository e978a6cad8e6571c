import LedgerSigning.Curve.Field
import LedgerSigning.Bytes.BigEndian
import LedgerSigning.Hash.Hmac

/-! The deterministic nonce of a signature: a keyed generator seeded with the private key and
the digest, of which the first output that is a scalar is taken. -/
namespace LedgerSigning

namespace Nonce

/-- The state of the generator: a key and a chaining value. -/
structure Generator where
  key : List UInt8
  value : List UInt8

/-- Mixes input in, after the chaining value and one separating byte. -/
def Generator.mix (g : Generator) (separator : UInt8) (input : List UInt8) : Generator :=
  let key := hmac g.key (g.value ++ separator :: input)
  ⟨key, hmac key g.value⟩

/-- The seed is the private key followed by the digest, neither reduced. -/
def seeded (scalar : Nat) (digest : List UInt8) : Generator :=
  let seed := BigEndian.ofNat 32 scalar ++ digest
  let start : Generator := ⟨List.replicate 32 0, List.replicate 32 1⟩
  (start.mix 0 seed).mix 1 seed

/-- Draws until an output lies between zero and `n`. -/
def draw? : Nat → Generator → Option Nat
  | 0, _ => none
  | tries + 1, g =>
    let value := hmac g.key g.value
    let k := BigEndian.toNat value
    if 0 < k ∧ k < Curve.n then some k else draw? tries ((⟨g.key, value⟩ : Generator).mix 0 [])

/-- An output is out of range with a probability below 2^-127, so few tries are enough. -/
def of? (scalar : Nat) (digest : List UInt8) : Option Nat := draw? 16 (seeded scalar digest)

end Nonce

end LedgerSigning
