/-! Arithmetic modulo the two primes of secp256k1: `p` of the coordinates and `n` of the
scalars, which is the number of points. -/
namespace LedgerSigning

namespace Curve

def p : Nat := 0xFFFFFFFFFFFFFFFFFFFFFFFFFFFFFFFFFFFFFFFFFFFFFFFFFFFFFFFEFFFFFC2F

def n : Nat := 0xFFFFFFFFFFFFFFFFFFFFFFFFFFFFFFFEBAAEDCE6AF48A03BBFD25E8CD0364141

/-- Combines the copies of `base` that a scalar of 256 bits asks for, doubling as it goes from
the lowest bit up. -/
@[specialize] def ladder {α : Type} (combine : α → α → α) (unit base : α) (scalar : Nat) : α :=
  ((List.range 256).foldl
    (fun (acc, power) i =>
      (if scalar.testBit i then combine acc power else acc, combine power power))
    (unit, base)).1

def powMod (modulus base exponent : Nat) : Nat :=
  ladder (fun a b => a * b % modulus) 1 (base % modulus) exponent

/-- The inverse modulo a prime; zero has the inverse zero. -/
def invMod (prime a : Nat) : Nat := powMod prime a (prime - 2)

def subMod (modulus a b : Nat) : Nat := (a + (modulus - b % modulus)) % modulus

end Curve

end LedgerSigning
