import LedgerSigning.Proofs.Number.Value
import Mathlib.Data.Rat.Floor

/-! Finite numbers as rational numbers with a sign, and what products and floors of numbers are in
terms of them. -/
namespace LedgerSigning

namespace Binary64

/-- The rational number that a finite number stands for. Both zeros stand for zero. -/
def toRat (x : Binary64) : ℚ := if x.negative then -value x.code else value x.code

theorem abs_toRat (x : Binary64) : |x.toRat| = value x.code := by
  rw [toRat]
  split_ifs
  · rw [abs_neg, abs_of_nonneg (value_nonneg _)]
  · rw [abs_of_nonneg (value_nonneg _)]

/-- A rational number rounded to the nearest magnitude, with its sign. The magnitude above all finite
ones stands in for infinity. -/
def nearestRat (v : ℚ) : ℚ := if v < 0 then -value (codeNear (-v)) else value (codeNear v)

theorem nearestRat_zero : nearestRat 0 = 0 := by
  rw [nearestRat, if_neg (lt_irrefl 0), codeNear_zero, value_zero]

theorem nearestRat_of_nonneg {v : ℚ} (hv : 0 ≤ v) : nearestRat v = value (codeNear v) :=
  if_neg (not_lt.mpr hv)

theorem nearestRat_nonneg {v : ℚ} (hv : 0 ≤ v) : 0 ≤ nearestRat v := by
  rw [nearestRat_of_nonneg hv]
  exact value_nonneg _

theorem nearestRat_neg {v : ℚ} (hv : 0 ≤ v) : nearestRat (-v) = -value (codeNear v) := by
  rcases hv.eq_or_lt with rfl | hPos
  · rw [neg_zero, nearestRat_zero, codeNear_zero, value_zero, neg_zero]
  · rw [nearestRat, if_pos (neg_neg_of_pos hPos), neg_neg]

/-- A product of finite numbers is the rational product rounded. -/
theorem toRat_mul {x y : Binary64} (hx : x.isFinite = true) (hy : y.isFinite = true) :
    (x.mul y).toRat = nearestRat (x.toRat * y.toRat) := by
  have hOne := unitsPerOne_cast_pos
  have hScaled : value x.code * value y.code * unitsPerOne =
      (units x.code * units y.code : Nat) / unitsPerOne := by
    rw [value, value, Nat.cast_mul]
    field_simp
  have hCode : (x.mul y).code = codeNear (value x.code * value y.code) := by
    rw [codeNear_eq unitsPerOne_pos hScaled, mul, if_pos (by rw [hx, hy]; rfl)]
    rfl
  have hSign : (x.mul y).negative = (x.negative != y.negative) := by
    rw [mul, if_pos (by rw [hx, hy]; rfl)]
    rfl
  have hNonneg := mul_nonneg (value_nonneg x.code) (value_nonneg y.code)
  simp only [toRat, hCode, hSign]
  cases x.negative <;> cases y.negative
  · exact (nearestRat_of_nonneg hNonneg).symm
  · exact ((congrArg nearestRat (mul_neg _ _)).trans (nearestRat_neg hNonneg)).symm
  · exact ((congrArg nearestRat (neg_mul _ _)).trans (nearestRat_neg hNonneg)).symm
  · exact ((congrArg nearestRat (neg_mul_neg _ _)).trans (nearestRat_of_nonneg hNonneg)).symm

theorem code_mul_le {x y : Binary64} (hx : x.isFinite = true) (hy : y.isFinite = true) :
    (x.mul y).code ≤ infinityCode := by
  rw [mul, if_pos (by rw [hx, hy]; rfl)]
  exact nearestCode_le _ _

/-- A decimal is read as the rational number it stands for, rounded. -/
theorem toRat_ofDecimal (digits : Nat) (exponent : Int) :
    (ofDecimal false digits exponent).toRat = nearestRat (digits * 10 ^ exponent) := by
  rw [nearestRat_of_nonneg (by positivity), ← ofDecimal_code false, toRat, ofDecimal_negative]
  rfl

/-- Natural numbers of at most 53 bits are numbers themselves. -/
theorem toRat_ofInt {n : Nat} (hn : n ≤ 2 ^ 53) : (ofInt n).toRat = n := by
  have hSign : (ofInt n).negative = false := by
    change decide ((n : Int) < 0) = false
    simp
  rw [toRat, hSign, ofInt_code, Int.natAbs_natCast, value_codeNear_natCast hn]
  rfl

theorem nearestRat_natCast {n : Nat} (hn : n ≤ 2 ^ 53) : nearestRat n = n := by
  rw [nearestRat_of_nonneg (Nat.cast_nonneg n), value_codeNear_natCast hn]

theorem isFinite_ofInt {n : Nat} (hn : n ≤ 2 ^ 64) : (ofInt n).isFinite = true := by
  simpa [isFinite, ofInt_code] using codeNear_natCast_lt hn

/-- The quotient that `floor?` rounds up for a negative number. -/
theorem floor_neg_div {num den : Nat} (hDen : 0 < den) :
    ⌊-((num : ℚ) / den)⌋ = -(((num + (den - 1)) / den : Nat) : Int) := by
  have hDenQ : (0 : ℚ) < den := Nat.cast_pos.mpr hDen
  have hSplit := Nat.div_add_mod (num + (den - 1)) den
  have hRest := Nat.mod_lt (num + (den - 1)) hDen
  generalize (num + (den - 1)) / den = q at *
  have hUpper : num ≤ q * den := by
    rw [Nat.mul_comm] at hSplit
    omega
  have hLower : q * den < num + den := by
    rw [Nat.mul_comm] at hSplit
    omega
  have hUpperQ : (num : ℚ) ≤ q * den := by exact_mod_cast hUpper
  have hLowerQ : (q * den : ℚ) < num + den := by exact_mod_cast hLower
  rw [Int.floor_eq_iff]
  push_cast
  constructor
  · rw [neg_le_neg_iff, div_le_iff₀ hDenQ]
    exact hUpperQ
  · have hLess : (q : ℚ) < (num + den) / den := (lt_div_iff₀ hDenQ).mpr hLowerQ
    rw [add_div, div_self hDenQ.ne'] at hLess
    linarith

/-- A finite number is rounded down as a rational number, and others are not. -/
theorem floor?_eq (x : Binary64) : x.floor? = if x.isFinite then some ⌊x.toRat⌋ else none := by
  unfold floor? toRat
  split_ifs with hFinite hNegative
  · rw [value, floor_neg_div unitsPerOne_pos]
  · rw [value, Rat.floor_natCast_div_natCast]
    rfl
  · rfl

end Binary64

end LedgerSigning
