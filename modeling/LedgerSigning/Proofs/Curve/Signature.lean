import LedgerSigning.Curve.Signature
import LedgerSigning.Proofs.Curve.Point

/-! Signatures verify under the point of the scalar that made them. The point made from a signature
is the point of the nonce or its opposite, and the two have the same first coordinate. Any signature
verifies exactly where its equation holds in the group of the curve. -/
namespace LedgerSigning

namespace Nonce

deriving instance DecidableEq for Generator

/-- The state of two rows of 32 bytes that spell these numbers. -/
def Generator.ofNats (key value : Nat) : Generator :=
  ⟨BigEndian.ofNat 32 key, BigEndian.ofNat 32 value⟩

theorem draw?_range {tries : Nat} {g : Generator} {k : Nat} (h : draw? tries g = some k) :
    0 < k ∧ k < Curve.n := by
  induction tries generalizing g with
  | zero => cases h
  | succ tries ih =>
      simp only [draw?] at h
      split_ifs at h with hRange
      · cases h
        exact hRange
      · exact ih h

end Nonce

namespace Curve

theorem smul_generatorPoint_ne_zero {k : Nat} (hPos : 0 < k) (hLess : k < n) :
    k • generatorPoint ≠ 0 := by
  intro hZero
  have hDvd := addOrderOf_dvd_iff_nsmul_eq_zero.mpr hZero
  rw [addOrderOf_generatorPoint] at hDvd
  exact absurd (Nat.le_of_dvd hPos hDvd) (not_le.mpr hLess)

/-- Scalars that are equal or opposite modulo `n` have multiples with the same first coordinate. -/
theorem coordinates?_smul {k m : Nat} (h : (m : ZMod n) = k ∨ (m : ZMod n) = -k) :
    (coordinates? (m • generatorPoint)).map Affine.x =
      (coordinates? (k • generatorPoint)).map Affine.x := by
  rcases h with hSame | hOpposite
  · have hMod : m ≡ k [MOD addOrderOf generatorPoint] := by
      rw [addOrderOf_generatorPoint]
      exact (ZMod.natCast_eq_natCast_iff _ _ _).mp hSame
    rw [nsmul_eq_nsmul_iff_modEq.mpr hMod]
  · have hDvd : addOrderOf generatorPoint ∣ m + k := by
      rw [addOrderOf_generatorPoint, ← ZMod.natCast_eq_zero_iff, Nat.cast_add, hOpposite,
        neg_add_cancel]
    have hSum := addOrderOf_dvd_iff_nsmul_eq_zero.mp hDvd
    rw [add_nsmul] at hSum
    rw [eq_neg_of_add_eq_zero_left hSum, coordinates?_neg]

/-- A scalar in range has a public point. -/
theorem exists_toAffine? {scalar : Nat} (hRange : 0 < scalar ∧ scalar < n) :
    ∃ point, (generator.toProjective.mul scalar).toAffine? = some point ∧
      point.isOnCurve = true ∧ point.toProjective.Represents (scalar • generatorPoint) := by
  have hBits : scalar < 2 ^ 256 := hRange.2.trans (by decide)
  obtain ⟨point, hPoint⟩ :=
    exists_coordinates (smul_generatorPoint_ne_zero hRange.1 hRange.2)
  exact ⟨point, (represents_generator.mul scalar hBits).toAffine?.trans hPoint,
    represents_of_coordinates hPoint⟩

end Curve

namespace Signature

open Curve

theorem cast_inverse (a : Nat) : ((invMod n a : Nat) : ZMod n) = (a : ZMod n)⁻¹ :=
  cast_invMod (by decide) (by decide) a

theorem inRange_iff {sig : Signature} :
    sig.inRange = true ↔ 0 < sig.r ∧ sig.r < n ∧ 0 < sig.s ∧ sig.s < n := by
  simp only [inRange, Bool.and_eq_true, decide_eq_true_eq, and_assoc]

@[simp] theorem lowS_r (sig : Signature) : sig.lowS.r = sig.r := rfl

theorem lowS_s (sig : Signature) :
    sig.lowS.s = if n / 2 < sig.s then n - sig.s else sig.s := rfl

theorem lowS_inRange {sig : Signature} (h : sig.inRange = true) : sig.lowS.inRange = true := by
  rw [inRange_iff] at h ⊢
  rw [lowS_r, lowS_s]
  split_ifs with hHigh <;> omega

theorem lowS_lowS {sig : Signature} : sig.lowS.lowS = sig.lowS := by
  have hOdd : n % 2 = 1 := by decide
  have hLow : ¬n / 2 < sig.lowS.s := by
    rw [lowS_s]
    split_ifs with hHigh <;> omega
  conv_lhs => rw [lowS, if_neg hLow]

theorem cast_lowS {sig : Signature} (h : sig.inRange = true) :
    (sig.lowS.s : ZMod n) = sig.s ∨ (sig.lowS.s : ZMod n) = -sig.s := by
  rw [lowS_s]
  split_ifs with hHigh
  · right
    rw [Nat.cast_sub (inRange_iff.mp h).2.2.2.le, ZMod.natCast_self, zero_sub]
  · left
    rfl

/-- The signature with the nonce that is drawn, by way of the two states of the generator before. -/
theorem sign?_of_states {scalar k : Nat} {digest : List UInt8} {first second : Nonce.Generator}
    (hFirst : Nonce.Generator.mix ⟨List.replicate 32 0, List.replicate 32 1⟩ 0
      (BigEndian.ofNat 32 scalar ++ digest) = first)
    (hSecond : first.mix 1 (BigEndian.ofNat 32 scalar ++ digest) = second)
    (hDraw : Nonce.draw? 16 second = some k) :
    sign? scalar digest = withNonce? scalar k digest := by
  rw [sign?, Nonce.of?, Nonce.seeded, hFirst, hSecond, hDraw, Option.bind_eq_bind,
    Option.bind_some]

/-- What a signature with a nonce consists of. -/
theorem withNonce?_eq_some {scalar k : Nat} {digest : List UInt8} {sig : Signature}
    (h : withNonce? scalar k digest = some sig) : ∃ point raw : _,
      (generator.toProjective.mul k).toAffine? = some point ∧ sig = lowS raw ∧
      raw.inRange = true ∧ raw.r = point.x % n ∧
      (raw.s : ZMod n) = (k : ZMod n)⁻¹ * (scalarOf digest + raw.r * scalar) := by
  simp only [withNonce?, Option.bind_eq_bind, Option.bind_eq_some_iff] at h
  obtain ⟨point, hPoint, hSig⟩ := h
  split_ifs at hSig with hZero
  refine ⟨point, _, hPoint, (Option.some.inj hSig).symm, inRange_iff.mpr ?_, rfl, ?_⟩
  · rw [not_or] at hZero
    exact ⟨Nat.pos_of_ne_zero hZero.1, Nat.mod_lt _ prime_n.pos, Nat.pos_of_ne_zero hZero.2,
      Nat.mod_lt _ prime_n.pos⟩
  · rw [ZMod.natCast_mod, Nat.cast_mul, cast_inverse]
    push_cast
    rfl

/-- A nonce in range gives a signature unless one of the two values is zero. -/
theorem withNonce?_eq_none_iff {scalar k : Nat} {digest : List UInt8} (hRange : 0 < k ∧ k < n) :
    withNonce? scalar k digest = none ↔ ∃ point, coordinates? (k • generatorPoint) = some point ∧
      (n ∣ point.x ∨ n ∣ scalarOf digest + point.x * scalar) := by
  have hInverse : ¬n ∣ invMod n k := by
    rw [← ZMod.natCast_eq_zero_iff, cast_inverse, inv_eq_zero, ZMod.natCast_eq_zero_iff]
    exact Nat.not_dvd_of_pos_of_lt hRange.1 hRange.2
  have hSum (x : Nat) :
      n ∣ scalarOf digest + x % n * scalar ↔ n ∣ scalarOf digest + x * scalar := by
    rw [← ZMod.natCast_eq_zero_iff, ← ZMod.natCast_eq_zero_iff]
    push_cast [ZMod.natCast_mod]
    rfl
  obtain ⟨point, hPoint⟩ := exists_coordinates (smul_generatorPoint_ne_zero hRange.1 hRange.2)
  have hAffine :=
    (represents_generator.mul k (hRange.2.trans (by decide))).toAffine?.trans hPoint
  simp only [withNonce?, hAffine, hPoint, Option.bind_eq_bind, Option.bind_some, ite_eq_left_iff,
    reduceCtorEq, imp_false, not_not, Option.some.injEq, exists_eq_left', ← Nat.dvd_iff_mod_eq_zero,
    prime_n.dvd_mul, hInverse, false_or, hSum]

/-- For a digest the signer finds no signature: no nonce in few tries, or a value that is zero. -/
def Missed (scalar : Nat) (digest : List UInt8) : Prop :=
  Nonce.of? scalar digest = none ∨ ∃ k point, Nonce.of? scalar digest = some k ∧
    coordinates? (k • generatorPoint) = some point ∧
    (n ∣ point.x ∨ n ∣ scalarOf digest + point.x * scalar)

theorem sign?_eq_none_iff {scalar : Nat} {digest : List UInt8} :
    sign? scalar digest = none ↔ Missed scalar digest := by
  rw [sign?, Option.bind_eq_bind, Option.bind_eq_none_iff, Missed]
  cases hNonce : Nonce.of? scalar digest with
  | none => simp
  | some k =>
      have hRange := Nonce.draw?_range hNonce
      simp [withNonce?_eq_none_iff hRange]

theorem exists_sign?_iff {scalar : Nat} {digest : List UInt8} :
    (∃ sig, sign? scalar digest = some sig) ↔ ¬Missed scalar digest := by
  rw [← sign?_eq_none_iff, ← ne_eq, Option.ne_none_iff_exists']

/-- A signature verifies if the scalar made from it is that of the first coordinate or its
opposite. -/
theorem satisfies_of_cast {sig : Signature} {scalar k : Nat} {digest : List UInt8}
    {point nonce : Affine} (hBits : k < 2 ^ 256)
    (hPoint : point.toProjective.Represents (scalar • generatorPoint))
    (hNonce : (generator.toProjective.mul k).toAffine? = some nonce) (hR : sig.r = nonce.x % n)
    (hScalar : (sig.s : ZMod n)⁻¹ * (scalarOf digest + sig.r * scalar) = k ∨
      (sig.s : ZMod n)⁻¹ * (scalarOf digest + sig.r * scalar) = -k) :
    sig.satisfies point digest = true := by
  have hResidue (a : Nat) : a % n < 2 ^ 256 := (Nat.mod_lt _ prime_n.pos).trans (by decide)
  have hSum := (represents_generator.mul (scalarOf digest * invMod n sig.s % n) (hResidue _)).add
    (hPoint.mul (sig.r * invMod n sig.s % n) (hResidue _))
  rw [← mul_nsmul, ← add_nsmul] at hSum
  have hCast : ((scalarOf digest * invMod n sig.s % n + scalar * (sig.r * invMod n sig.s % n) :
      Nat) : ZMod n) = (sig.s : ZMod n)⁻¹ * (scalarOf digest + sig.r * scalar) := by
    push_cast [ZMod.natCast_mod, cast_inverse]
    ring
  rw [← hCast] at hScalar
  have hFirst := coordinates?_smul hScalar
  rw [← hSum.toAffine?, ← (represents_generator.mul k hBits).toAffine?, hNonce] at hFirst
  obtain ⟨sum, hSumEq, hSumX⟩ := Option.map_eq_some_iff.mp hFirst
  unfold satisfies
  simp [hSumEq, hSumX, ← hR]

/-- A signature by a scalar is in range, and it verifies under the scalar's point. -/
theorem sign?_spec {scalar : Nat} {digest : List UInt8} {sig : Signature} {point : Affine}
    (hSign : sign? scalar digest = some sig)
    (hPoint : point.toProjective.Represents (scalar • generatorPoint)) :
    sig.inRange = true ∧ sig.lowS.satisfies point digest = true := by
  obtain ⟨k, hk, hSig⟩ := Option.bind_eq_some_iff.mp hSign
  have hRange := Nonce.draw?_range hk
  obtain ⟨nonce, raw, hNonce, rfl, hRaw, hR, hS⟩ := withNonce?_eq_some hSig
  refine ⟨lowS_inRange hRaw, ?_⟩
  rw [lowS_lowS]
  have hScalar : (raw.s : ZMod n)⁻¹ * (scalarOf digest + raw.r * scalar) = k := by
    have hNe : (raw.s : ZMod n) ≠ 0 := by
      obtain ⟨-, -, hPos, hLess⟩ := inRange_iff.mp hRaw
      rw [Ne, ZMod.natCast_eq_zero_iff]
      exact Nat.not_dvd_of_pos_of_lt hPos hLess
    rw [hS] at hNe ⊢
    rw [mul_inv, inv_inv, mul_assoc, inv_mul_cancel₀ (right_ne_zero_of_mul hNe), mul_one]
  refine satisfies_of_cast (hRange.2.trans (by decide)) hPoint hNonce hR ?_
  rw [lowS_r]
  rcases cast_lowS hRaw with hSame | hOpposite
  · left
    rw [hSame, hScalar]
  · right
    rw [hOpposite, inv_neg, neg_mul, hScalar]

/-- The equation of a signature in the group of the curve: the point made from the digest, the two
values and the public point has the first value for its first coordinate modulo `n`. -/
def Equation (r s : Nat) (digest : List UInt8) (Q : curve.Point) : Prop :=
  ∃ sum, coordinates? (((BigEndian.toNat digest : ZMod n) * (s : ZMod n)⁻¹).val • generatorPoint +
    ((r : ZMod n) * (s : ZMod n)⁻¹).val • Q) = some sum ∧ sum.x % n = r

theorem satisfies_iff {sig : Signature} {digest : List UInt8} {point : Affine} {Q : curve.Point}
    (hPoint : point.toProjective.Represents Q) :
    sig.satisfies point digest = true ↔ Equation sig.r sig.s digest Q := by
  have hResidue (a : Nat) : a % n < 2 ^ 256 := (Nat.mod_lt _ prime_n.pos).trans (by decide)
  have hSum := (represents_generator.mul (scalarOf digest * invMod n sig.s % n) (hResidue _)).add
    (hPoint.mul (sig.r * invMod n sig.s % n) (hResidue _))
  have hFirst : scalarOf digest * invMod n sig.s % n =
      ((BigEndian.toNat digest : ZMod n) * (sig.s : ZMod n)⁻¹).val := by
    rw [← cast_inverse, ← ZMod.natCast_mod, ← scalarOf, ← Nat.cast_mul, ZMod.val_natCast]
  have hSecond : sig.r * invMod n sig.s % n = ((sig.r : ZMod n) * (sig.s : ZMod n)⁻¹).val := by
    rw [← cast_inverse, ← Nat.cast_mul, ZMod.val_natCast]
  unfold satisfies Equation
  dsimp only
  rw [hSum.toAffine?, hFirst, hSecond]
  generalize coordinates? _ = outcome
  cases outcome <;> simp

theorem lowS_s_eq_min {sig : Signature} (h : sig.s < n) : sig.lowS.s = min sig.s (n - sig.s) := by
  have hOdd : n % 2 = 1 := by decide
  rw [lowS_s]
  split_ifs <;> omega

/-- With the lower of its second values a signature in range satisfies the equation in the group. -/
theorem lowS_satisfies_iff {sig : Signature} {digest : List UInt8} {point : Affine}
    {Q : curve.Point} (hRange : sig.inRange = true) (hPoint : coordinates? Q = some point) :
    sig.lowS.satisfies point digest = true ↔ Equation sig.r (min sig.s (n - sig.s)) digest Q := by
  rw [satisfies_iff (represents_of_coordinates hPoint).2, lowS_r,
    lowS_s_eq_min (inRange_iff.mp hRange).2.2.2]

/-- The signature with the opposite of the second value. -/
def opposite (sig : Signature) : Signature := ⟨sig.r, n - sig.s⟩

theorem opposite_inRange {sig : Signature} (h : sig.inRange = true) :
    sig.opposite.inRange = true := by
  rw [inRange_iff] at h ⊢
  simp only [opposite]
  omega

/-- A signature and its opposite have one form with the lower value. -/
theorem lowS_opposite {sig : Signature} (h : sig.inRange = true) :
    sig.opposite.lowS = sig.lowS := by
  have hs : sig.s < n := (inRange_iff.mp h).2.2.2
  have hLow : sig.opposite.lowS.s = sig.lowS.s := by
    rw [lowS_s_eq_min hs, lowS_s_eq_min (inRange_iff.mp (opposite_inRange h)).2.2.2]
    simp only [opposite]
    omega
  exact congrArg (Signature.mk sig.r) hLow

end Signature

end LedgerSigning
