import LedgerSigning.Proofs.Number.Neighbours
import LedgerSigning.Transaction.Amount

/-! Tokens as units. The product with the number of units in a token is rounded to a number and then
down to an integer. Where that integer fits 64 bits it is what is stored, and all else is refused.
Tokens that lie within half a unit of a whole number of units are converted to that number or to one
less. -/
namespace LedgerSigning

namespace Amount

variable {quantity : Quantity} {tokens : Binary64} {n : Int}

theorem range_of_checked (h : checked quantity tokens = .ok n) :
    minUnits ≤ n ∧ n ≤ maxUnits := by
  unfold checked at h
  split_ifs at h with hInfinite
  split at h
  · cases h
  · split_ifs at h with hRange
    cases h
    omega

/-- Tokens that fit 64 bits are converted without being cut off. -/
theorem toUnits_of_checked (h : checked quantity tokens = .ok n) : toUnits tokens = n := by
  obtain ⟨hLow, hHigh⟩ := range_of_checked h
  unfold checked at h
  split_ifs at h with hInfinite
  split at h
  · cases h
  · rename_i floor hFloor
    split_ifs at h with hRange
    cases h
    rw [toUnits, hFloor]
    simp only [Int.min_eq_left hHigh, Int.max_eq_right hLow]

/-- Tokens in units: the product as it is rounded, rounded down. -/
def units (tokens : Binary64) : Int := ⌊Binary64.nearestRat (tokens.toRat * 10 ^ 8)⌋

/-- Units of 64 bits with a sign. -/
def Fits (n : Int) : Prop := -2 ^ 63 ≤ n ∧ n < 2 ^ 63

/-- Units of 64 bits without a sign are stored as they are. -/
theorem toNat_ofNat (hFits : Fits n) (hSign : 0 ≤ n) :
    ((UInt64.ofNat n.toNat).toNat : Int) = n := by
  have hHigh := hFits.2
  rw [UInt64.toNat_ofNat_of_lt' (by simp; omega)]
  omega

theorem toNat_ofNat_checked (h : checked quantity tokens = .ok n) (hSign : 0 ≤ n) :
    ((UInt64.ofNat n.toNat).toNat : Int) = toUnits tokens := by
  obtain ⟨hLow, hHigh⟩ := range_of_checked h
  simp only [minUnits, maxUnits] at hLow hHigh
  rw [toUnits_of_checked h]
  exact toNat_ofNat ⟨by omega, by omega⟩ hSign

theorem toRat_unitsPerToken : unitsPerToken.toRat = 10 ^ 8 := by
  have hWhole : ((100000000 : Nat) : ℚ) = 10 ^ 8 := by norm_num
  rw [← hWhole]
  exact Binary64.toRat_ofInt (by norm_num)

theorem isFinite_unitsPerToken : unitsPerToken.isFinite = true := by decide +kernel

theorem toRat_product (hFinite : tokens.isFinite = true) :
    (tokens.mul unitsPerToken).toRat = Binary64.nearestRat (tokens.toRat * 10 ^ 8) := by
  rw [Binary64.toRat_mul hFinite isFinite_unitsPerToken, toRat_unitsPerToken]

/-- A product beyond the finite numbers is beyond 64 bits as well. -/
theorem isFinite_of_fits (hFinite : tokens.isFinite = true) (hFits : Fits (units tokens)) :
    (tokens.mul unitsPerToken).isFinite = true := by
  obtain ⟨hLow, hHigh⟩ := hFits
  have hBelow := Int.floor_le (Binary64.nearestRat (tokens.toRat * 10 ^ 8))
  have hAbove := Int.lt_floor_add_one (Binary64.nearestRat (tokens.toRat * 10 ^ 8))
  rw [← units, ← toRat_product hFinite] at hBelow hAbove
  have hLowQ : (-2 ^ 63 : ℚ) ≤ units tokens := by exact_mod_cast hLow
  have hHighQ : (units tokens + 1 : ℚ) ≤ 2 ^ 63 := by exact_mod_cast hHigh
  have hValue : Binary64.value (tokens.mul unitsPerToken).code ≤ (2 ^ 63 : Nat) := by
    rw [← Binary64.abs_toRat, abs_le]
    push_cast
    exact ⟨hLowQ.trans hBelow, (hAbove.le).trans hHighQ⟩
  by_contra hInfinite
  have hCode := Binary64.code_mul_le hFinite isFinite_unitsPerToken
  have hBeyond : Binary64.infinityCode ≤ (tokens.mul unitsPerToken).code := by
    simpa [Binary64.isFinite] using hInfinite
  have hStart : Binary64.codeNear (2 ^ 63 : Nat) < (tokens.mul unitsPerToken).code := by
    rw [Binary64.codeNear_two_pow (by decide)]
    exact lt_of_lt_of_le (by decide) hBeyond
  have hLess := Binary64.value_lt_value hCode hStart
  rw [Binary64.value_codeNear_two_pow (by decide)] at hLess
  exact absurd hValue (not_le.mpr hLess)

theorem floor?_product (hFinite : tokens.isFinite = true)
    (hProduct : (tokens.mul unitsPerToken).isFinite = true) :
    (tokens.mul unitsPerToken).floor? = some (units tokens) := by
  rw [Binary64.floor?_eq, if_pos hProduct, toRat_product hFinite, units]

theorem checked_of_fits (hFinite : tokens.isFinite = true) (hFits : Fits (units tokens)) :
    checked quantity tokens = .ok (units tokens) := by
  have hProduct := isFinite_of_fits hFinite hFits
  obtain ⟨hLow, hHigh⟩ := hFits
  rw [checked, hFinite, floor?_product hFinite hProduct]
  simp only [Bool.not_true, Bool.false_eq_true, if_false, minUnits, maxUnits]
  exact if_neg (by omega)

theorem checked_of_not_fits (hFinite : tokens.isFinite = true) (hFits : ¬Fits (units tokens)) :
    checked quantity tokens = .error (.tooLarge quantity tokens) := by
  rw [checked, hFinite]
  simp only [Bool.not_true, Bool.false_eq_true, if_false, minUnits, maxUnits]
  cases hProduct : (tokens.mul unitsPerToken).isFinite with
  | false => rw [Binary64.floor?_eq, hProduct]; rfl
  | true =>
      rw [floor?_product hFinite hProduct]
      refine if_pos ?_
      unfold Fits at hFits
      omega

theorem checked_of_not_finite (hFinite : tokens.isFinite = false) :
    checked quantity tokens = .error (.notFinite quantity) := by
  rw [checked, hFinite]
  rfl

section Rounded

variable {v : ℚ}

theorem codeNear_units_lt (hv : 0 ≤ v) (hHigh : v ≤ 2 * 10 ^ 15) :
    Binary64.codeNear (v / 10 ^ 8) < Binary64.infinityCode := by
  have hLe : v / 10 ^ 8 ≤ (2 * 10 ^ 7 : Nat) := by
    rw [div_le_iff₀ (by norm_num)]
    norm_num at hHigh ⊢
    exact hHigh
  exact (Binary64.codeNear_mono (by positivity) hLe).trans_lt
    (Binary64.codeNear_natCast_lt (by norm_num))

/-- Half a unit or more is no subnormal number. -/
theorem fractions_le_codeNear_units (hLow : 1 / 2 ≤ v) :
    Binary64.fractions ≤ Binary64.codeNear (v / 10 ^ 8) := by
  have hHalf : Binary64.fractions ≤ Binary64.codeNear ((2 * 10 ^ 8 : Nat) : ℚ)⁻¹ := by
    rw [Binary64.codeNear_inv_natCast (by norm_num)]
    decide +kernel
  refine hHalf.trans (Binary64.codeNear_mono (by positivity) ?_)
  rw [le_div_iff₀ (by norm_num)]
  norm_num at hLow ⊢
  exact hLow

/-- Units that are written as tokens and rounded are moved by at most one part in 2^52. -/
theorem abs_nearestRat_units_sub_le (hLow : 1 / 2 ≤ v) (hHigh : v ≤ 2 * 10 ^ 15) :
    |Binary64.nearestRat (v / 10 ^ 8) * 10 ^ 8 - v| ≤ v / 2 ^ 52 := by
  have hv : 0 ≤ v := by linarith
  have hNonneg : 0 ≤ v / 10 ^ 8 := by positivity
  have hError := Binary64.abs_codeNear_sub_le hNonneg (fractions_le_codeNear_units hLow)
    (codeNear_units_lt hv hHigh)
  rw [← Binary64.nearestRat_of_nonneg hNonneg] at hError
  generalize Binary64.nearestRat (v / 10 ^ 8) = x at *
  have hScaled : |x * 10 ^ 8 - v| = |x - v / 10 ^ 8| * 10 ^ 8 := by
    rw [← abs_of_pos (by positivity : (0 : ℚ) < 10 ^ 8), ← abs_mul, sub_mul,
      abs_of_pos (by positivity : (0 : ℚ) < 10 ^ 8), div_mul_cancel₀ _ (by positivity)]
  -- The bound is one part in 2^53 of what was rounded to, which is hardly more than `v`.
  have hUpper := le_abs_self (x * 10 ^ 8 - v)
  rw [hScaled] at hUpper ⊢
  rw [le_div_iff₀ (by positivity)]
  linarith

end Rounded

/-- Tokens that differ from a whole number of units by half a unit at most. -/
structure Near (tokens : Binary64) (n : Nat) : Prop where
  isFinite : tokens.isFinite = true
  nonneg : 0 ≤ tokens.toRat
  abs_sub_le : |tokens.toRat * 10 ^ 8 - n| ≤ 1 / 2

namespace Near

variable {n : Nat}

/-- Rounding the product takes it up to the whole number from half a gap below that on. -/
theorem units_eq (h : Near tokens n) (hn : n ≤ 10 ^ 15) : units tokens =
    if (n : ℚ) - Binary64.halfGap n ≤ tokens.toRat * 10 ^ 8 then (n : Int) else n - 1 := by
  have hNonneg := h.nonneg
  exact Binary64.floor_nearestRat (by omega) (by positivity) h.abs_sub_le

theorem fits (h : Near tokens n) (hn : n ≤ 10 ^ 15) : Fits (units tokens) := by
  rw [h.units_eq hn, Fits]
  split_ifs <;> omega

theorem toUnits_eq (h : Near tokens n) (hn : n ≤ 10 ^ 15) : toUnits tokens = units tokens :=
  toUnits_of_checked (@checked_of_fits .amount _ h.isFinite (h.fits hn))

end Near

end Amount

end LedgerSigning
