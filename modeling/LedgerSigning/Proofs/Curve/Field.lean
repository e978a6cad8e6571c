import LedgerSigning.Curve.Field
import Mathlib.FieldTheory.Finite.Basic
import Mathlib.Tactic.NormNum.Prime

/-! Arithmetic modulo the primes of secp256k1. The ladder computes multiples in any commutative
monoid, and with it powers and inverses. That `p` and `n` are prime follows from certificates: a
number is prime if enough of what is below it by one is a product of known primes. -/
namespace LedgerSigning

namespace Curve

section Ladder

variable {α M : Type} [AddCommMonoid M] {R : α → M → Prop} {combine : α → α → α} {unit base : α}
  {x : M}

/-- After the lowest bits, the first part stands for the multiple by them and the second for the
multiple by the next power of two. -/
theorem ladder_steps (hUnit : R unit 0) (hBase : R base x)
    (hCombine : ∀ a b y z, R a y → R b z → R (combine a b) (y + z)) (scalar count : Nat) :
    let state := (List.range count).foldl
      (fun (acc, power) i =>
        (if scalar.testBit i then combine acc power else acc, combine power power)) (unit, base)
    R state.1 ((scalar % 2 ^ count) • x) ∧ R state.2 (2 ^ count • x) := by
  induction count with
  | zero => simpa [Nat.mod_one] using ⟨hUnit, hBase⟩
  | succ count ih =>
      obtain ⟨hAcc, hPower⟩ := ih
      have hDouble : 2 ^ (count + 1) • x = 2 ^ count • x + 2 ^ count • x := by
        rw [pow_succ, mul_two, add_smul]
      rw [List.range_succ, List.foldl_append]
      refine ⟨?_, ?_⟩
      · rw [Nat.mod_pow_succ, add_smul]
        cases hBit : scalar.testBit count with
        | false =>
            have hDigit : scalar / 2 ^ count % 2 = 0 := by
              rw [Nat.testBit_eq_decide_div_mod_eq, decide_eq_false_iff_not] at hBit
              omega
            simpa [hBit, hDigit] using hAcc
        | true =>
            have hDigit : scalar / 2 ^ count % 2 = 1 := by
              rwa [Nat.testBit_eq_decide_div_mod_eq, decide_eq_true_iff] at hBit
            simpa [hBit, hDigit] using hCombine _ _ _ _ hAcc hPower
      · rw [hDouble]
        exact hCombine _ _ _ _ hPower hPower

/-- The ladder computes the multiple by a scalar of 256 bits, if combining computes sums. -/
theorem ladder_spec (hUnit : R unit 0) (hBase : R base x)
    (hCombine : ∀ a b y z, R a y → R b z → R (combine a b) (y + z)) {scalar : Nat}
    (hScalar : scalar < 2 ^ 256) : R (ladder combine unit base scalar) (scalar • x) := by
  have hSteps := (ladder_steps hUnit hBase hCombine scalar 256).1
  rwa [Nat.mod_eq_of_lt hScalar] at hSteps

end Ladder

/-- Powers are multiples of an exponent. -/
theorem powMod_modEq {modulus base exponent : Nat} (hExponent : exponent < 2 ^ 256) :
    powMod modulus base exponent ≡ base ^ exponent [MOD modulus] := by
  have hPower : powMod modulus base exponent ≡ base ^ (exponent • 1) [MOD modulus] := by
    refine ladder_spec (R := fun a e => a ≡ base ^ e [MOD modulus]) ?_ ?_ ?_ hExponent
    · rfl
    · simpa using Nat.mod_modEq base modulus
    · intro a b y z ha hb
      rw [pow_add]
      exact (Nat.mod_modEq _ _).trans (ha.mul hb)
  simpa using hPower

/-- Why a number is prime: the order of a base is divisible by known primes, modulo every prime
divisor of the number, so that each of these is large. -/
structure Certificate where
  number : Nat
  base : Nat
  factors : List Nat

namespace Certificate

/-- The power of the base by the number less one is one; without a factor in the exponent, it is
one modulo no divisor of the number. -/
def check (known : List Nat) (c : Certificate) : Bool :=
  1 < c.number && c.number < 2 ^ 256 && c.number < (c.factors.prod + 1) ^ 2 &&
    powMod c.number c.base (c.number - 1) == 1 && c.factors.Nodup &&
    c.factors.all fun q => known.contains q && (c.number - 1) % q == 0 &&
      (powMod c.number c.base ((c.number - 1) / q) + (c.number - 1)).gcd c.number == 1

/-- Checks certificates one after the other, each by the numbers before it. -/
def checkAll (known : List Nat) : List Certificate → Bool
  | [] => true
  | c :: rest => c.check known && checkAll (c.number :: known) rest

/-- A factor of a certificate divides the order of the units modulo every prime divisor. -/
theorem factor_dvd {number base q d : Nat} (hNumber : 1 < number) (hq : q.Prime)
    (hFactor : q ∣ number - 1) (hd : d.Prime) (hDivisor : d ∣ number)
    (hOne : base ^ (number - 1) ≡ 1 [MOD number])
    (hCoprime : (base ^ ((number - 1) / q) + (number - 1)).Coprime number) : q ∣ d - 1 := by
  have := Fact.mk hd
  have hPow : (base : ZMod d) ^ (number - 1) = 1 := by
    exact_mod_cast (ZMod.natCast_eq_natCast_iff _ _ _).mpr (hOne.of_dvd hDivisor)
  have hOrder := orderOf_dvd_of_pow_eq_one hPow
  have hBase : (base : ZMod d) ≠ 0 := by
    intro hZero
    rw [hZero, zero_pow (by omega)] at hPow
    exact zero_ne_one hPow
  refine dvd_trans ?_ (ZMod.orderOf_dvd_card_sub_one hBase)
  rcases Nat.coprime_or_dvd_of_prime hq (orderOf (base : ZMod d)) with hApart | hDvd
  · rw [← Nat.mul_div_cancel' hFactor] at hOrder
    have hRest := orderOf_dvd_iff_pow_eq_one.mp (hApart.symm.dvd_of_dvd_mul_left hOrder)
    have hSum : ((base ^ ((number - 1) / q) + (number - 1) : Nat) : ZMod d) = 0 := by
      have hCast : ((number : Nat) : ZMod d) = 0 := (ZMod.natCast_eq_zero_iff _ _).mpr hDivisor
      push_cast [Nat.cast_sub hNumber.le, hCast, hRest]
      ring
    have hUnit := Nat.dvd_gcd ((ZMod.natCast_eq_zero_iff _ _).mp hSum) hDivisor
    rw [hCoprime] at hUnit
    exact absurd (Nat.dvd_one.mp hUnit) hd.ne_one
  · exact hDvd

theorem prime_of_check {known : List Nat} (hKnown : ∀ q ∈ known, q.Prime) {c : Certificate}
    (h : c.check known = true) : c.number.Prime := by
  simp only [check, Bool.and_eq_true, decide_eq_true_eq, beq_iff_eq, List.all_eq_true,
    List.contains_iff_mem] at h
  obtain ⟨⟨⟨⟨⟨hNumber, hBound⟩, hLarge⟩, hOne⟩, hNodup⟩, hFactors⟩ := h
  have hPower {e : Nat} (he : e ≤ c.number - 1) :
      powMod c.number c.base e ≡ c.base ^ e [MOD c.number] := powMod_modEq (by omega)
  have hd := Nat.minFac_prime hNumber.ne'
  have hDivides : ∀ q ∈ c.factors, q ∣ c.number.minFac - 1 := by
    intro q hq
    obtain ⟨⟨hPrime, hRemainder⟩, hCoprime⟩ := hFactors q hq
    refine factor_dvd hNumber (hKnown q hPrime) (Nat.dvd_of_mod_eq_zero hRemainder) hd
      (Nat.minFac_dvd _) ((hOne ▸ hPower le_rfl).symm) ?_
    have hSame := ((hPower (Nat.div_le_self _ q)).add_right (c.number - 1)).gcd_eq
    rwa [Nat.Coprime, ← hSame]
  have hProd : c.factors.prod ∣ c.number.minFac - 1 := by
    have hPrime : ∀ q ∈ c.factors.toFinset, Prime q := fun q hq =>
      (hKnown q (hFactors q (List.mem_toFinset.mp hq)).1.1).prime
    have hDvd := Finset.prod_primes_dvd _ hPrime fun q hq => hDivides q (List.mem_toFinset.mp hq)
    rwa [List.prod_toFinset _ hNodup, List.map_id'] at hDvd
  by_contra hComposite
  have hSquare := Nat.minFac_sq_le_self (by omega) hComposite
  have hLe := Nat.le_of_dvd (by have := hd.two_le; omega) hProd
  have hRoot : (c.factors.prod + 1) ^ 2 ≤ c.number.minFac ^ 2 :=
    Nat.pow_le_pow_left (by have := hd.two_le; omega) 2
  omega

theorem prime_of_checkAll (known : List Nat) (hKnown : ∀ q ∈ known, q.Prime)
    {certificates : List Certificate} (h : checkAll known certificates = true) :
    ∀ q ∈ certificates.map Certificate.number, q.Prime := by
  induction certificates generalizing known with
  | nil => simp
  | cons c rest ih =>
      obtain ⟨hFirst, hRest⟩ := Bool.and_eq_true_iff.mp h
      have hPrime := prime_of_check hKnown hFirst
      intro q hq
      rcases List.mem_cons.mp hq with rfl | hq
      · exact hPrime
      · refine ih _ (fun q hq => ?_) hRest q hq
        rcases List.mem_cons.mp hq with rfl | hq
        · exact hPrime
        · exact hKnown q hq

end Certificate

/-- The known primes are below 30000. -/
def certificates : List Certificate :=
  [⟨107590001, 2, [53, 29, 7]⟩,
    ⟨1206781, 2, [20113]⟩,
    ⟨7240687, 2, [1206781]⟩,
    ⟨96557, 2, [239, 101]⟩,
    ⟨255515944373312847190720520512484175977, 2, [107590001, 7240687, 96557]⟩,
    ⟨205115282021455665897114700593932402728804164701536103180137503955397371, 2,
      [255515944373312847190720520512484175977]⟩,
    ⟨p, 2, [205115282021455665897114700593932402728804164701536103180137503955397371]⟩,
    ⟨1627771, 2, [1871]⟩,
    ⟨297159362677, 2, [1627771]⟩,
    ⟨545358713, 2, [28181]⟩,
    ⟨29047611873442575647497758179, 2, [297159362677, 545358713]⟩,
    ⟨341948486974166000522343609283189, 2, [29047611873442575647497758179]⟩,
    ⟨44706919, 2, [9349]⟩,
    ⟨120233, 2, [113, 19]⟩,
    ⟨174723607534414371449, 2, [44706919, 120233]⟩,
    ⟨n, 2, [341948486974166000522343609283189, 174723607534414371449]⟩]

theorem prime_of_certificates : ∀ q ∈ certificates.map Certificate.number, q.Prime := by
  apply Certificate.prime_of_checkAll [7, 19, 29, 53, 101, 113, 239, 1871, 9349, 20113, 28181]
  · norm_num
  · decide +kernel

theorem prime_p : p.Prime := prime_of_certificates p (by simp [certificates])

theorem prime_n : n.Prime := prime_of_certificates n (by simp [certificates])

instance : Fact p.Prime := ⟨prime_p⟩

instance : Fact n.Prime := ⟨prime_n⟩

section Residues

variable {m : Nat}

@[simp] theorem cast_subMod [NeZero m] (a b : Nat) : ((subMod m a b : Nat) : ZMod m) = a - b := by
  have hb : b % m ≤ m := (Nat.mod_lt b (Nat.pos_of_neZero m)).le
  rw [subMod, ZMod.natCast_mod, Nat.cast_add, Nat.cast_sub hb, ZMod.natCast_self, ZMod.natCast_mod]
  ring

theorem cast_powMod (base : Nat) {exponent : Nat} (hExponent : exponent < 2 ^ 256) :
    ((powMod m base exponent : Nat) : ZMod m) = (base : ZMod m) ^ exponent := by
  rw [← Nat.cast_pow, ZMod.natCast_eq_natCast_iff]
  exact powMod_modEq hExponent

/-- The inverse is computed as a power, by Fermat's little theorem. -/
theorem cast_invMod [Fact m.Prime] (hOdd : 2 < m) (hm : m < 2 ^ 256) (a : Nat) :
    ((invMod m a : Nat) : ZMod m) = (a : ZMod m)⁻¹ := by
  rw [invMod, cast_powMod a (by omega)]
  rcases eq_or_ne (a : ZMod m) 0 with hZero | hUnit
  · rw [hZero, inv_zero, zero_pow (by omega)]
  · apply eq_inv_of_mul_eq_one_left
    rw [← pow_succ, show m - 2 + 1 = m - 1 by omega]
    exact ZMod.pow_card_sub_one_eq_one hUnit

end Residues

end Curve

end LedgerSigning
