import LedgerSigning.Proofs.Number.Nearest
import LedgerSigning.Proofs.Transaction.Amount

/-! Units as tokens and back. The size of a unit is rounded once, the product of the units with it
again, and the product with the units of a token a third time before it is rounded down. The first
two move 10^15 units or fewer by less than half a unit, and the third reaches no whole number beyond
the next on either side, so what comes back is the units or one less. -/
namespace LedgerSigning

namespace Amount

open Binary64

/-- Units taken to tokens and back in exact arithmetic with one rounding for each step, to the
nearest number and from the middle to the even one. -/
structure RoundTrip (units : Int) where
  count : Binary64
  size : Binary64
  amount : Binary64
  perToken : Binary64
  product : Binary64
  count_isNearest : count.IsNearest units
  size_isNearest : size.IsNearest (1 / 10 ^ 8)
  amount_isNearest : amount.IsNearest (count.toRat * size.toRat)
  perToken_isNearest : perToken.IsNearest (10 ^ 8)
  product_isNearest : product.IsNearest (amount.toRat * perToken.toRat)

/-- The units that come back. -/
def RoundTrip.back {units : Int} (trip : RoundTrip units) : Int := ⌊trip.product.toRat⌋

theorem isFinite_tokensPerUnit : tokensPerUnit.isFinite = true := by decide +kernel

theorem toRat_tokensPerUnit : tokensPerUnit.toRat = nearestRat (1 / 10 ^ 8) := by
  rw [tokensPerUnit, toRat_ofDecimal, zpow_neg, Nat.cast_one, ← div_eq_mul_inv]
  rfl

/-- The size of a unit is off by at most one part in 2^52. -/
theorem abs_tokensPerUnit_sub_le : |tokensPerUnit.toRat * 10 ^ 8 - 1| ≤ 1 / 2 ^ 52 := by
  rw [toRat_tokensPerUnit]
  exact abs_nearestRat_units_sub_le (by norm_num) (by norm_num)

variable {n : Nat}

/-- Units measured by the rounded size of a unit. -/
def sized (n : Nat) : ℚ := n * (tokensPerUnit.toRat * 10 ^ 8)

theorem abs_sized_sub_le (n : Nat) : |sized n - n| ≤ (n : ℚ) / 2 ^ 52 := by
  have hScaled : sized n - n = n * (tokensPerUnit.toRat * 10 ^ 8 - 1) := by
    rw [sized]
    ring
  rw [hScaled, abs_mul, Nat.abs_cast, div_eq_mul_one_div]
  exact mul_le_mul_of_nonneg_left abs_tokensPerUnit_sub_le (Nat.cast_nonneg n)

theorem toRat_ofUnits (hn : n ≤ 10 ^ 15) :
    (ofUnits n).toRat = nearestRat (sized n / 10 ^ 8) := by
  rw [sized, ← mul_assoc, mul_div_cancel_right₀ _ (by positivity), ofUnits,
    toRat_mul (isFinite_ofInt (by omega)) isFinite_tokensPerUnit, toRat_ofInt (by omega)]

theorem sized_nonneg (n : Nat) : 0 ≤ sized n := by
  have hSized := abs_le.mp (abs_sized_sub_le n)
  have hNonneg : (0 : ℚ) ≤ n := Nat.cast_nonneg n
  linarith

theorem toRat_ofUnits_nonneg (hn : n ≤ 10 ^ 15) : 0 ≤ (ofUnits n).toRat := by
  have hNonneg := sized_nonneg n
  rw [toRat_ofUnits hn]
  exact nearestRat_nonneg (by positivity)

theorem isFinite_ofUnits (hn : n ≤ 10 ^ 15) : (ofUnits n).isFinite = true := by
  have hnQ : (n : ℚ) ≤ 10 ^ 15 := by exact_mod_cast hn
  have hSized := abs_le.mp (abs_sized_sub_le n)
  have hNonneg := sized_nonneg n
  have hLimit : (ofUnits n).code ≤ infinityCode :=
    code_mul_le (isFinite_ofInt (by omega)) isFinite_tokensPerUnit
  have hCode := code_of_toRat hLimit (toRat_ofUnits hn)
  rw [abs_of_nonneg (by positivity)] at hCode
  simpa [isFinite, hCode] using codeNear_units_lt hNonneg (by linarith)

/-- Units written as tokens are off by hardly more than one part in 2^51, one in 2^52 for the size of
a unit and one for the product with it. -/
theorem abs_ofUnits_sub_le (hn : n ≤ 10 ^ 15) :
    |(ofUnits n).toRat * 10 ^ 8 - n| ≤ (n + 1 : ℚ) / 2 ^ 51 := by
  rw [toRat_ofUnits hn]
  rcases Nat.eq_zero_or_pos n with rfl | hPos
  · simp [sized, nearestRat_zero]
  have hOne : (1 : ℚ) ≤ n := by exact_mod_cast hPos
  have hnQ : (n : ℚ) ≤ 10 ^ 15 := by exact_mod_cast hn
  have hSized := abs_sized_sub_le n
  obtain ⟨hLow, hHigh⟩ := abs_le.mp hSized
  have hRounded := abs_nearestRat_units_sub_le (v := sized n) (by linarith) (by linarith)
  calc |nearestRat (sized n / 10 ^ 8) * 10 ^ 8 - n|
      ≤ |nearestRat (sized n / 10 ^ 8) * 10 ^ 8 - sized n| + |sized n - n| := abs_sub_le _ _ _
    _ ≤ sized n / 2 ^ 52 + (n : ℚ) / 2 ^ 52 := add_le_add hRounded hSized
    _ ≤ (n + 1 : ℚ) / 2 ^ 51 := by linarith

theorem ofUnits_near (hn : n ≤ 10 ^ 15) : Near (ofUnits n) n := by
  refine ⟨isFinite_ofUnits hn, toRat_ofUnits_nonneg hn, (abs_ofUnits_sub_le hn).trans ?_⟩
  have hnQ : (n : ℚ) ≤ 10 ^ 15 := by exact_mod_cast hn
  linarith

theorem isFinite_ofUnits_product (hn : n ≤ 10 ^ 15) :
    ((ofUnits n).mul unitsPerToken).isFinite = true :=
  isFinite_of_fits (isFinite_ofUnits hn) ((ofUnits_near hn).fits hn)

section Steps

variable {x : Binary64}

theorem isNearest_count_iff (hn : n ≤ 10 ^ 15) :
    x.IsNearest (n : Int) ↔ x.isFinite = true ∧ x.toRat = n := by
  rw [Int.cast_natCast]
  exact isNearest_natCast_iff (by omega)

theorem isNearest_size_iff :
    x.IsNearest (1 / 10 ^ 8) ↔ x.isFinite = true ∧ x.toRat = tokensPerUnit.toRat :=
  isNearest_iff isFinite_tokensPerUnit toRat_tokensPerUnit

theorem isNearest_amount_iff (hn : n ≤ 10 ^ 15) : x.IsNearest (n * tokensPerUnit.toRat) ↔
    x.isFinite = true ∧ x.toRat = (ofUnits n).toRat := by
  rw [← toRat_ofInt (n := n) (by omega)]
  exact isNearest_mul_iff (isFinite_ofInt (by omega)) isFinite_tokensPerUnit (isFinite_ofUnits hn)

theorem isNearest_perToken_iff : x.IsNearest (10 ^ 8) ↔ x.isFinite = true ∧ x.toRat = 10 ^ 8 := by
  have hWhole : ((10 ^ 8 : Nat) : ℚ) = 10 ^ 8 := by norm_num
  rw [← hWhole]
  exact isNearest_natCast_iff (by norm_num)

theorem isNearest_product_iff (hn : n ≤ 10 ^ 15) : x.IsNearest ((ofUnits n).toRat * 10 ^ 8) ↔
    x.isFinite = true ∧ x.toRat = ((ofUnits n).mul unitsPerToken).toRat := by
  rw [← toRat_unitsPerToken]
  exact isNearest_mul_iff (isFinite_ofUnits hn) isFinite_unitsPerToken (isFinite_ofUnits_product hn)

end Steps

/-- The numbers that the conversions compute are a round trip. -/
theorem nonempty_roundTrip (hn : n ≤ 10 ^ 15) : Nonempty (RoundTrip n) := by
  have hCount : (Binary64.ofInt n).toRat = n := toRat_ofInt (by omega)
  refine ⟨⟨.ofInt n, tokensPerUnit, ofUnits n, unitsPerToken, (ofUnits n).mul unitsPerToken,
    ?_, ?_, ?_, ?_, ?_⟩⟩
  · exact (isNearest_count_iff hn).mpr ⟨isFinite_ofInt (by omega), hCount⟩
  · exact isNearest_size_iff.mpr ⟨isFinite_tokensPerUnit, rfl⟩
  · rw [hCount]
    exact (isNearest_amount_iff hn).mpr ⟨isFinite_ofUnits hn, rfl⟩
  · exact isNearest_perToken_iff.mpr ⟨isFinite_unitsPerToken, toRat_unitsPerToken⟩
  · rw [toRat_unitsPerToken]
    exact (isNearest_product_iff hn).mpr ⟨isFinite_ofUnits_product hn, rfl⟩

/-- Rounding leaves no choice: every round trip has the values that the conversions compute. -/
theorem RoundTrip.values_eq (hn : n ≤ 10 ^ 15) (trip : RoundTrip n) :
    trip.amount.toRat = (ofUnits n).toRat ∧ trip.back = toUnits (ofUnits n) := by
  obtain ⟨-, hCount⟩ := (isNearest_count_iff hn).mp trip.count_isNearest
  obtain ⟨-, hSize⟩ := isNearest_size_iff.mp trip.size_isNearest
  obtain ⟨-, hPerToken⟩ := isNearest_perToken_iff.mp trip.perToken_isNearest
  have hAmount := trip.amount_isNearest
  rw [hCount, hSize, isNearest_amount_iff hn] at hAmount
  have hProduct := trip.product_isNearest
  rw [hAmount.2, hPerToken, isNearest_product_iff hn] at hProduct
  refine ⟨hAmount.2, ?_⟩
  rw [back, hProduct.2, toRat_product (isFinite_ofUnits hn), (ofUnits_near hn).toUnits_eq hn, units]

/-- Units that are taken to tokens and back come back as they were or as one less. They come back as
they were if and only if the tokens times 10^8 lie no more than half a gap below them. That is what
every round trip in exact arithmetic gives in which each step is rounded to the nearest number. -/
theorem toUnits_ofUnits {u : Int} (hLow : 0 ≤ u) (hHigh : u ≤ 10 ^ 15) :
    (toUnits (ofUnits u) = u ∨ toUnits (ofUnits u) = u - 1) ∧
    (toUnits (ofUnits u) = u ↔ u - halfGap u.toNat ≤ (ofUnits u).toRat * 10 ^ 8) ∧
    Nonempty (RoundTrip u) ∧ ∀ trip : RoundTrip u,
      trip.amount.toRat = (ofUnits u).toRat ∧ trip.back = toUnits (ofUnits u) := by
  obtain ⟨n, rfl⟩ := Int.eq_ofNat_of_zero_le hLow
  have hn : n ≤ 10 ^ 15 := by exact_mod_cast hHigh
  have hUnits := (ofUnits_near hn).toUnits_eq hn
  rw [(ofUnits_near hn).units_eq hn] at hUnits
  rw [Int.toNat_natCast, Int.cast_natCast]
  refine ⟨?_, ?_, nonempty_roundTrip hn, RoundTrip.values_eq hn⟩
  · rw [hUnits]
    split_ifs
    · exact .inl rfl
    · exact .inr rfl
  · rw [hUnits]
    split_ifs with hReaches
    · exact iff_of_true rfl hReaches
    · exact iff_of_false (by omega) hReaches

/-- Of 59 units one is lost, of 10^15 units none. -/
theorem toUnits_ofUnits_fiftyNine : toUnits (ofUnits 59) = 58 ∧
    (∃ trip : RoundTrip 59, trip.back = 58) ∧
      toUnits (ofUnits 1000000000000000) = 1000000000000000 := by
  obtain ⟨hLost, hReaches, ⟨trip⟩, hTrips⟩ :=
    toUnits_ofUnits (u := 59) (by norm_num) (by norm_num)
  obtain ⟨-, hKept, -⟩ := toUnits_ofUnits (u := 1000000000000000) (by norm_num) (by norm_num)
  have hUnits : toUnits (ofUnits 59) = 58 := hLost.resolve_left (mt hReaches.mp (by decide +kernel))
  exact ⟨hUnits, ⟨trip, (hTrips trip).2.trans hUnits⟩, hKept.mpr (by decide +kernel)⟩

end Amount

end LedgerSigning
