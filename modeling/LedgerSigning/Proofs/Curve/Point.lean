import LedgerSigning.Curve.Point
import LedgerSigning.Proofs.Curve.Field
import Mathlib.AlgebraicGeometry.EllipticCurve.Affine.Point

/-! Projective sums compute the group law of the curve. The formulas have no exceptions because no
point of the curve has order two. -/
namespace LedgerSigning

namespace Curve

open WeierstrassCurve.Affine (Point)

section Formulas

variable {K : Type} [Field K] {x y u v : K}

/-- The coordinates of the projective sum of the points `(x, y)` and `(u, v)`. -/
def sumX (x y u v : K) : K := (x * v + u * y) * (y * v - 21) - 21 * ((y + v) * (x + u))

def sumY (x y u v : K) : K := (y * v + 21) * (y * v - 21) + 63 * (x * u * (x + u))

def sumZ (x y u v : K) : K := (y + v) * (y * v + 21) + 3 * (x * u * (x * v + u * y))

/-- The line through two points, or the tangent at one, with its slope as a fraction. -/
structure Line (x y u v rise run : K) : Prop where
  run_ne_zero : run ≠ 0
  x_eq : sumX x y u v * run ^ 2 = sumZ x y u v * (rise ^ 2 - (x + u) * run ^ 2)
  y_eq : sumY x y u v * run ^ 3 =
    -sumZ x y u v * (rise * (rise ^ 2 - (2 * x + u) * run ^ 2) + y * run ^ 3)

theorem chord (h : y ^ 2 = x ^ 3 + 7) (h' : v ^ 2 = u ^ 3 + 7) (hApart : x ≠ u) :
    Line x y u v (y - v) (x - u) where
  run_ne_zero := sub_ne_zero.mpr hApart
  x_eq := by
    unfold sumX sumZ
    grind
  y_eq := by
    unfold sumY sumZ
    grind

theorem tangent (h : y ^ 2 = x ^ 3 + 7) (hDouble : 2 * y ≠ 0) :
    Line x y x y (3 * x ^ 2) (2 * y) where
  run_ne_zero := hDouble
  x_eq := by
    unfold sumX sumZ
    grind
  y_eq := by
    unfold sumY sumZ
    grind

/-- The third coordinate of a sum is made from the second coordinate of the difference. -/
theorem sumZ_chord (h : y ^ 2 = x ^ 3 + 7) (h' : v ^ 2 = u ^ 3 + 7) : sumZ x y u v =
    (y + v) * ((y + v) ^ 2 - (2 * x + u) * (x - u) ^ 2) + y * (x - u) ^ 3 := by
  unfold sumZ
  grind

theorem sumZ_tangent (h : y ^ 2 = x ^ 3 + 7) : sumZ x y x y = (2 * y) ^ 3 := by
  unfold sumZ
  grind

/-- The coordinates of the third point on a line, reflected, are those of the projective sum. -/
theorem Line.sum_eq {rise run : K} (h : Line x y u v rise run) :
    sumX x y u v = ((rise / run) ^ 2 - x - u) * sumZ x y u v ∧
    sumY x y u v =
      -(rise / run * ((rise / run) ^ 2 - x - u - x) + y) * sumZ x y u v := by
  have hRun := h.run_ne_zero
  constructor
  · field_simp
    linear_combination h.x_eq
  · field_simp
    linear_combination h.y_eq

end Formulas

/-- The curve y² = x³ + 7. -/
def curve : WeierstrassCurve.Affine (ZMod p) where
  a₁ := 0
  a₂ := 0
  a₃ := 0
  a₄ := 0
  a₆ := 7

theorem two_ne_zero : (2 : ZMod p) ≠ 0 := by
  intro hZero
  have hDvd : p ∣ 2 := (ZMod.natCast_eq_zero_iff 2 p).mp (by exact_mod_cast hZero)
  exact absurd hDvd (by decide)

/-- Minus seven is no cube modulo `p`. -/
theorem cube_add_seven_ne_zero (x : ZMod p) : x ^ 3 + 7 ≠ 0 := by
  intro hZero
  have hCube : x ^ 3 = ((p - 7 : Nat) : ZMod p) := by
    rw [Nat.cast_sub (by decide), ZMod.natCast_self, zero_sub]
    exact eq_neg_of_add_eq_zero_left hZero
  have hUnit : x ≠ 0 := by
    rintro rfl
    rw [zero_pow (by decide), eq_comm, ZMod.natCast_eq_zero_iff] at hCube
    exact absurd hCube (by decide)
  have hOne : ((powMod p (p - 7) ((p - 1) / 3) : Nat) : ZMod p) = (1 : Nat) := by
    rw [cast_powMod _ (by decide), ← hCube, ← pow_mul, Nat.cast_one,
      show 3 * ((p - 1) / 3) = p - 1 by decide]
    exact ZMod.pow_card_sub_one_eq_one hUnit
  rw [ZMod.natCast_eq_natCast_iff'] at hOne
  exact absurd hOne (by decide +kernel)

theorem equation_iff {x y : ZMod p} : curve.Equation x y ↔ y ^ 2 = x ^ 3 + 7 := by
  simp [WeierstrassCurve.Affine.equation_iff, curve]

/-- No point of the curve has order two. -/
theorem y_ne_zero {x y : ZMod p} (h : curve.Equation x y) : y ≠ 0 := by
  rintro rfl
  rw [equation_iff, zero_pow (by decide)] at h
  exact cube_add_seven_ne_zero x h.symm

theorem nonsingular_of_equation {x y : ZMod p} (h : curve.Equation x y) :
    curve.Nonsingular x y := by
  refine (curve.nonsingular_iff' x y).mpr ⟨h, .inr ?_⟩
  simpa [curve] using mul_ne_zero two_ne_zero (y_ne_zero h)

theorem negY_eq (x y : ZMod p) : curve.negY x y = -y := by simp [curve]

theorem addX_eq (x u slope : ZMod p) : curve.addX x u slope = slope ^ 2 - x - u := by
  simp [WeierstrassCurve.Affine.addX, curve]

theorem addY_eq (x u y slope : ZMod p) :
    curve.addY x u y slope = -(slope * (slope ^ 2 - x - u - x) + y) := by
  rw [WeierstrassCurve.Affine.addY, negY_eq, WeierstrassCurve.Affine.negAddY, addX_eq]

/-- The sum of two points that are not opposite is finite. -/
theorem sumZ_ne_zero {x y u v : ZMod p} (h : curve.Nonsingular x y) (h' : curve.Nonsingular u v)
    (hOpposite : ¬(x = u ∧ y = curve.negY u v)) : sumZ x y u v ≠ 0 := by
  have hxy := equation_iff.mp h.left
  have huv := equation_iff.mp h'.left
  rcases eq_or_ne x u with rfl | hApart
  · obtain rfl : y = v :=
      WeierstrassCurve.Affine.Y_eq_of_Y_ne h.left h'.left rfl fun hNeg => hOpposite ⟨rfl, hNeg⟩
    rw [sumZ_tangent hxy]
    exact pow_ne_zero 3 (mul_ne_zero two_ne_zero (y_ne_zero h.left))
  · have hNeg := (WeierstrassCurve.Affine.nonsingular_neg u v).mpr h'
    have hDifference := y_ne_zero
      (WeierstrassCurve.Affine.equation_add h.left hNeg.left fun hEq => hApart hEq.1)
    have hRun : x - u ≠ 0 := sub_ne_zero.mpr hApart
    rw [sumZ_chord hxy huv]
    intro hZero
    apply hDifference
    rw [WeierstrassCurve.Affine.slope_of_X_ne hApart, negY_eq, addY_eq]
    field_simp
    linear_combination -hZero

theorem ne_negY {x y : ZMod p} (h : curve.Nonsingular x y) : y ≠ curve.negY x y := by
  intro hEq
  rw [negY_eq, eq_neg_iff_add_eq_zero, ← two_mul] at hEq
  exact mul_ne_zero two_ne_zero (y_ne_zero h.left) hEq

/-- The sum of two points that are not opposite has the coordinates of the projective sum. -/
theorem some_add_some {x y u v : ZMod p} (h : curve.Nonsingular x y) (h' : curve.Nonsingular u v)
    (hOpposite : ¬(x = u ∧ y = curve.negY u v)) :
    ∃ x' y' hSum, Point.some x y h + .some u v h' = .some x' y' hSum ∧
      sumX x y u v = x' * sumZ x y u v ∧ sumY x y u v = y' * sumZ x y u v := by
  refine ⟨_, _, _, Point.add_some hOpposite, ?_⟩
  obtain ⟨rise, run, hSlope, hLine⟩ :
      ∃ rise run, curve.slope x u y v = rise / run ∧ Line x y u v rise run := by
    rcases eq_or_ne x u with rfl | hApart
    · have hNeg : y ≠ curve.negY x v := fun hEq => hOpposite ⟨rfl, hEq⟩
      obtain rfl := WeierstrassCurve.Affine.Y_eq_of_Y_ne h.left h'.left rfl hNeg
      refine ⟨_, _, ?_, tangent (equation_iff.mp h.left)
        (mul_ne_zero two_ne_zero (y_ne_zero h.left))⟩
      rw [WeierstrassCurve.Affine.slope_of_Y_ne rfl hNeg, negY_eq]
      simp [curve, two_mul]
    · exact ⟨_, _, WeierstrassCurve.Affine.slope_of_X_ne hApart,
        chord (equation_iff.mp h.left) (equation_iff.mp h'.left) hApart⟩
  obtain ⟨hX, hY⟩ := hLine.sum_eq
  constructor
  · rw [hX, hSlope, addX_eq]
  · rw [hY, hSlope, addY_eq]

/-- The sum of opposite points has the coordinates of infinity. -/
theorem sum_opposite {x y : ZMod p} (h : curve.Nonsingular x y) :
    sumX x y x (-y) = 0 ∧ sumY x y x (-y) ≠ 0 ∧ sumZ x y x (-y) = 0 := by
  refine ⟨?_, ?_, ?_⟩
  · rw [sumX]; ring
  · -- The second coordinate is that of twice the point, which is finite.
    have hOpposite : ¬(x = x ∧ y = curve.negY x y) := fun hEq => ne_negY h hEq.2
    obtain ⟨x', y', hSum, -, -, hY⟩ := some_add_some h h hOpposite
    have hEven : sumY x y x (-y) = sumY x y x y := by
      rw [sumY, sumY]; ring
    rw [hEven, hY]
    exact mul_ne_zero (y_ne_zero hSum.left) (sumZ_ne_zero h h hOpposite)
  · rw [sumZ]; ring

namespace Projective

/-- Coordinates that stand for a point: those of infinity up to a factor in the second, or a
multiple of the coordinates of a finite point. -/
inductive Represents : Projective → curve.Point → Prop
  | infinity {a : Projective} (hx : (a.x : ZMod p) = 0) (hy : (a.y : ZMod p) ≠ 0)
      (hz : (a.z : ZMod p) = 0) : Represents a 0
  | finite {a : Projective} {x y : ZMod p} {h : curve.Nonsingular x y}
      (hx : (a.x : ZMod p) = x * a.z) (hy : (a.y : ZMod p) = y * a.z)
      (hz : (a.z : ZMod p) ≠ 0) : Represents a (.some x y h)

theorem cast_add_x (a b : Projective) : ((a.add b).x : ZMod p) =
    (a.x * b.y + b.x * a.y) * (a.y * b.y - 21 * (a.z * b.z)) -
      21 * ((a.y * b.z + b.y * a.z) * (a.x * b.z + b.x * a.z)) := by
  simp [add]

theorem cast_add_y (a b : Projective) : ((a.add b).y : ZMod p) =
    (a.y * b.y + 21 * (a.z * b.z)) * (a.y * b.y - 21 * (a.z * b.z)) +
      63 * (a.x * b.x * (a.x * b.z + b.x * a.z)) := by
  simp [add]

theorem cast_add_z (a b : Projective) : ((a.add b).z : ZMod p) =
    (a.y * b.z + b.y * a.z) * (a.y * b.y + 21 * (a.z * b.z)) +
      3 * (a.x * b.x * (a.x * b.y + b.x * a.y)) := by
  simp [add]

/-- The sum of two finite points, with the factors of both taken out. -/
theorem cast_add {a b : Projective} {x y u v : ZMod p} (hx : (a.x : ZMod p) = x * a.z)
    (hy : (a.y : ZMod p) = y * a.z) (hu : (b.x : ZMod p) = u * b.z)
    (hv : (b.y : ZMod p) = v * b.z) :
    ((a.add b).x : ZMod p) = sumX x y u v * (a.z * b.z) ^ 2 ∧
    ((a.add b).y : ZMod p) = sumY x y u v * (a.z * b.z) ^ 2 ∧
    ((a.add b).z : ZMod p) = sumZ x y u v * (a.z * b.z) ^ 2 := by
  rw [cast_add_x, cast_add_y, cast_add_z, hx, hy, hu, hv]
  refine ⟨?_, ?_, ?_⟩
  · rw [sumX]; ring
  · rw [sumY]; ring
  · rw [sumZ]; ring

theorem add_comm (a b : Projective) : a.add b = b.add a := by
  simp only [add, Nat.mul_comm, Nat.add_comm]

theorem Represents.infinity_add {a b : Projective} {Q : curve.Point} (ha : a.Represents 0)
    (hb : b.Represents Q) : (a.add b).Represents Q := by
  cases ha with
  | infinity hx hy hz =>
      cases hb with
      | infinity hu hv hw =>
          refine .infinity ?_ ?_ ?_
          · simp [cast_add_x, hx, hz, hu, hw]
          · simpa [cast_add_y, hx, hz, hu, hw] using ⟨hy, hv⟩
          · simp [cast_add_z, hx, hz, hu, hw]
      | @finite _ v h hu hv hw =>
          have hZ : ((a.add b).z : ZMod p) = v * (a.y * b.z) ^ 2 := by
            rw [cast_add_z, hx, hz, hu, hv]
            ring
          refine .finite ?_ ?_ ?_
          · rw [hZ, cast_add_x, hx, hz, hu, hv]
            ring
          · rw [hZ, cast_add_y, hx, hz, hu, hv]
            ring
          · rw [hZ]
            exact mul_ne_zero (y_ne_zero h.left) (pow_ne_zero 2 (mul_ne_zero hy hw))

theorem Represents.finite_add {a b : Projective} {x y u v : ZMod p} {h : curve.Nonsingular x y}
    {h' : curve.Nonsingular u v} (ha : a.Represents (.some x y h))
    (hb : b.Represents (.some u v h')) :
    (a.add b).Represents (.some x y h + .some u v h') := by
  cases ha with
  | finite hx hy hz =>
      cases hb with
      | finite hu hv hw =>
          obtain ⟨hX, hY, hZ⟩ := cast_add hx hy hu hv
          have hFactor : ((a.z : ZMod p) * b.z) ^ 2 ≠ 0 := pow_ne_zero 2 (mul_ne_zero hz hw)
          by_cases hOpposite : x = u ∧ y = curve.negY u v
          · rw [Point.add_of_Y_eq hOpposite.1 hOpposite.2]
            obtain ⟨rfl, hNeg⟩ := hOpposite
            have hOther : v = -y := by rw [hNeg, negY_eq, neg_neg]
            obtain ⟨hX', hY', hZ'⟩ := sum_opposite h
            rw [hOther] at hX hY hZ
            refine .infinity ?_ ?_ ?_
            · rw [hX, hX', zero_mul]
            · rw [hY]
              exact mul_ne_zero hY' hFactor
            · rw [hZ, hZ', zero_mul]
          · obtain ⟨x', y', hSum, hEq, hX', hY'⟩ := some_add_some h h' hOpposite
            rw [hEq]
            refine .finite ?_ ?_ ?_
            · rw [hX, hZ, hX', mul_assoc]
            · rw [hY, hZ, hY', mul_assoc]
            · rw [hZ]
              exact mul_ne_zero (sumZ_ne_zero h h' hOpposite) hFactor

/-- The projective sum stands for the sum in the group of the curve. -/
theorem Represents.add {a b : Projective} {P Q : curve.Point} (ha : a.Represents P)
    (hb : b.Represents Q) : (a.add b).Represents (P + Q) := by
  cases P with
  | zero =>
      rw [← Point.zero_def] at ha ⊢
      rw [zero_add]
      exact ha.infinity_add hb
  | some x y h =>
      cases Q with
      | zero =>
          rw [← Point.zero_def] at hb ⊢
          rw [add_zero, add_comm]
          exact hb.infinity_add ha
      | some u v h' => exact ha.finite_add hb

theorem represents_infinity : infinity.Represents 0 :=
  .infinity (by simp [Projective.infinity]) (by simp [Projective.infinity])
    (by simp [Projective.infinity])

theorem Represents.mul {a : Projective} {P : curve.Point} (ha : a.Represents P) (scalar : Nat)
    (hScalar : scalar < 2 ^ 256) : (mul scalar a).Represents (scalar • P) :=
  ladder_spec represents_infinity ha (fun _ _ _ _ hb hc => hb.add hc) hScalar

end Projective

/-- The coordinates of a finite point as residues. -/
def coordinates? : curve.Point → Option Affine
  | 0 => none
  | .some x y _ => some ⟨x.val, y.val⟩

@[simp] theorem coordinates?_zero : coordinates? 0 = none := rfl

theorem coordinates?_neg (P : curve.Point) :
    (coordinates? (-P)).map Affine.x = (coordinates? P).map Affine.x := by
  cases P <;> rfl

theorem exists_coordinates {P : curve.Point} (hP : P ≠ 0) : ∃ a, coordinates? P = some a := by
  cases P with
  | zero => exact absurd rfl hP
  | some x y h => exact ⟨_, rfl⟩

theorem Projective.Represents.toAffine? {a : Projective} {P : curve.Point}
    (h : a.Represents P) : a.toAffine? = coordinates? P := by
  cases h with
  | infinity hx hy hz =>
      rw [Projective.toAffine?, if_pos]
      · rfl
      · exact Nat.mod_eq_zero_of_dvd ((ZMod.natCast_eq_zero_iff _ _).mp hz)
  | @finite x y h hx hy hz =>
      have hInverse : ((invMod p a.z : Nat) : ZMod p) = (a.z : ZMod p)⁻¹ :=
        cast_invMod (by decide) (by decide) a.z
      have hX : ((a.x * invMod p a.z : Nat) : ZMod p) = x := by
        rw [Nat.cast_mul, hInverse, hx, mul_inv_cancel_right₀ hz]
      have hY : ((a.y * invMod p a.z : Nat) : ZMod p) = y := by
        rw [Nat.cast_mul, hInverse, hy, mul_inv_cancel_right₀ hz]
      rw [Projective.toAffine?, if_neg]
      · simp only [coordinates?, ← hX, ← hY, ZMod.val_natCast]
      · intro hZero
        exact hz ((ZMod.natCast_eq_zero_iff _ _).mpr (Nat.dvd_of_mod_eq_zero hZero))

theorem Affine.isOnCurve_iff {a : Affine} :
    a.isOnCurve = true ↔ a.x < p ∧ a.y < p ∧ curve.Equation a.x a.y := by
  have hEquation : a.y * a.y % p = (a.x * a.x % p * a.x + 7) % p ↔ curve.Equation a.x a.y := by
    rw [← ZMod.natCast_eq_natCast_iff', equation_iff]
    push_cast [ZMod.natCast_mod]
    rw [pow_two, pow_succ, pow_two]
  simp [Affine.isOnCurve, hEquation, and_assoc]

/-- Affine coordinates on the curve stand for the point that has them. -/
theorem Affine.represents {a : Affine} (h : curve.Nonsingular a.x a.y) :
    a.toProjective.Represents (.some a.x a.y h) :=
  .finite (by simp [Affine.toProjective]) (by simp [Affine.toProjective])
    (by simp [Affine.toProjective])

theorem represents_of_coordinates {P : curve.Point} {a : Affine} (h : coordinates? P = some a) :
    a.isOnCurve = true ∧ a.toProjective.Represents P := by
  cases P with
  | zero => cases h
  | some x y hCurve =>
      cases h
      refine ⟨Affine.isOnCurve_iff.mpr ⟨x.val_lt, y.val_lt, ?_⟩, .finite ?_ ?_ ?_⟩
      · simpa using hCurve.left
      · simp [Affine.toProjective]
      · simp [Affine.toProjective]
      · simp [Affine.toProjective]

/-- The coordinates on the curve are those of the finite points. -/
theorem Affine.isOnCurve_iff_exists {a : Affine} :
    a.isOnCurve = true ↔ ∃ P, coordinates? P = some a := by
  constructor
  · intro hCurve
    obtain ⟨hx, hy, hEquation⟩ := isOnCurve_iff.mp hCurve
    refine ⟨.some _ _ (nonsingular_of_equation hEquation), ?_⟩
    rw [coordinates?, ZMod.val_natCast_of_lt hx, ZMod.val_natCast_of_lt hy]
  · rintro ⟨P, hP⟩
    exact (represents_of_coordinates hP).1

theorem generator_equation : curve.Equation generator.x generator.y :=
  (Affine.isOnCurve_iff.mp (by decide)).2.2

/-- The point whose multiples are used. -/
def generatorPoint : curve.Point :=
  .some generator.x generator.y (nonsingular_of_equation generator_equation)

theorem represents_generator : generator.toProjective.Represents generatorPoint :=
  Affine.represents _

/-- The multiples of the generator repeat after `n` and not before. -/
theorem addOrderOf_generatorPoint : addOrderOf generatorPoint = n := by
  apply addOrderOf_eq_prime
  · have hMultiple := (represents_generator.mul n (by decide)).toAffine?
    have hNone : (generator.toProjective.mul n).toAffine? = none := by decide +kernel
    by_contra hFinite
    obtain ⟨a, hCoordinates⟩ := exists_coordinates hFinite
    rw [hNone, hCoordinates] at hMultiple
    cases hMultiple
  · exact Point.some_ne_zero _

end Curve

end LedgerSigning
