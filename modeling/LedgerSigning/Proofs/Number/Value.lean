import LedgerSigning.Proofs.Number.Rounding

/-! Magnitudes as rational numbers. Reading a decimal gives the code nearest to its value,
however far the value lies outside the range of binary64. -/
namespace LedgerSigning

namespace Binary64

/-- The rational number that a finite magnitude code stands for. -/
def value (code : Nat) : ℚ := units code / unitsPerOne

/-- The code nearest to a rational number, which is not negative. -/
def codeNear (v : ℚ) : Nat := nearestCode (v * unitsPerOne).num.toNat (v * unitsPerOne).den

theorem unitsPerOne_cast_pos : (0 : ℚ) < unitsPerOne := Nat.cast_pos.mpr unitsPerOne_pos

theorem codeNear_eq {v : ℚ} {num den : Nat} (hDen : 0 < den)
    (hv : v * unitsPerOne = num / den) : codeNear v = nearestCode num den := by
  have hDenQ : (0 : ℚ) < den := Nat.cast_pos.mpr hDen
  have hNonneg : 0 ≤ v * unitsPerOne := by rw [hv]; positivity
  apply nearestCode_congr (Rat.den_pos _) hDen
  have hNum : ((v * unitsPerOne).num.toNat : ℤ) = (v * unitsPerOne).num :=
    Int.toNat_of_nonneg (Rat.num_nonneg.mpr hNonneg)
  have hNumQ : ((v * unitsPerOne).num.toNat : ℚ) = (v * unitsPerOne).num := by
    exact_mod_cast hNum
  have hSelf : ((v * unitsPerOne).num : ℚ) = v * unitsPerOne * (v * unitsPerOne).den :=
    (Rat.mul_den_eq_num _).symm
  have hCross : ((v * unitsPerOne).num.toNat * den : ℚ) = num * (v * unitsPerOne).den := by
    rw [hNumQ, hSelf, hv]
    field_simp
  exact_mod_cast hCross

theorem codeNear_le (v : ℚ) : codeNear v ≤ infinityCode := nearestCode_le _ _

/-- A greater number has no smaller code. -/
theorem codeNear_mono {v w : ℚ} (hv : 0 ≤ v) (h : v ≤ w) : codeNear v ≤ codeNear w := by
  have hPos := unitsPerOne_cast_pos
  have hLe : v * unitsPerOne ≤ w * unitsPerOne := by nlinarith
  have hNum {u : ℚ} (hu : 0 ≤ u) : ((u.num.toNat : ℕ) : ℚ) = u * u.den := by
    rw [Rat.mul_den_eq_num]
    exact_mod_cast Int.toNat_of_nonneg (Rat.num_nonneg.mpr hu)
  apply nearestCode_mono (Rat.den_pos _) (Rat.den_pos _)
  have hCross : ((v * unitsPerOne).num.toNat * (w * unitsPerOne).den : ℚ) ≤
      (w * unitsPerOne).num.toNat * (v * unitsPerOne).den := by
    rw [hNum (by positivity), hNum (by nlinarith)]
    have hDens : (0 : ℚ) ≤ (v * unitsPerOne).den * (w * unitsPerOne).den := by positivity
    nlinarith [mul_le_mul_of_nonneg_right hLe hDens]
  exact_mod_cast hCross

theorem code_lt_of_isFinite {x : Binary64} (hFinite : x.isFinite = true) :
    x.code < infinityCode := by
  simpa [isFinite] using hFinite

theorem value_nonneg (code : Nat) : 0 ≤ value code := by
  unfold value
  positivity

theorem value_mul_units (code : Nat) : value code * unitsPerOne = units code := by
  rw [value, div_mul_cancel₀ _ unitsPerOne_cast_pos.ne']

theorem value_zero : value 0 = 0 := by
  have hUnits : units 0 = 0 := rfl
  rw [value, hUnits, Nat.cast_zero, zero_div]

/-- A magnitude has its own code. -/
theorem codeNear_value {code : Nat} (hCode : code ≤ infinityCode) :
    codeNear (value code) = code := by
  have hOne : value code * unitsPerOne = (units code * 1 : Nat) / (1 : Nat) := by
    rw [value_mul_units]
    simp
  rw [codeNear_eq Nat.one_pos hOne, nearestCode_units Nat.one_pos hCode]

/-- Codes number the magnitudes in increasing order. -/
theorem value_lt_value {c d : Nat} (hd : d ≤ infinityCode) (h : c < d) : value c < value d := by
  by_contra hLe
  have hCodes := codeNear_mono (value_nonneg d) (not_lt.mp hLe)
  rw [codeNear_value hd, codeNear_value (by omega)] at hCodes
  omega

theorem value_le_value {c d : Nat} (hd : d ≤ infinityCode) (h : c ≤ d) : value c ≤ value d := by
  rcases Nat.lt_or_eq_of_le h with hLess | hEq
  · exact (value_lt_value hd hLess).le
  · rw [hEq]

theorem value_pos {code : Nat} (hCode : code ≤ infinityCode) (hPos : 0 < code) :
    0 < value code :=
  lt_of_le_of_lt (value_nonneg 0) (value_lt_value hCode hPos)

/-- A number closer to a magnitude than half the spacing on either side has its code. -/
theorem codeNear_of_near {v : ℚ} {shift r : Nat} (hv : 0 ≤ v)
    (hHigh : v * unitsPerOne < 2 * fractions * 2 ^ shift)
    (hLow : shift = 0 ∨ fractions * 2 ^ shift ≤ v * unitsPerOne)
    (hAbove : 2 * (v * unitsPerOne) < (2 * r + 1) * 2 ^ shift)
    (hBelow : 2 * r * 2 ^ shift < 2 * (v * unitsPerOne) + 2 ^ shift) :
    codeNear v = min (shift * fractions + r) infinityCode := by
  have hNonneg : 0 ≤ v * unitsPerOne := mul_nonneg hv unitsPerOne_cast_pos.le
  have hSelf : v * unitsPerOne = ((v * unitsPerOne).num.toNat : ℚ) / (v * unitsPerOne).den := by
    have hNum : (((v * unitsPerOne).num.toNat : ℕ) : ℚ) = (v * unitsPerOne).num := by
      exact_mod_cast Int.toNat_of_nonneg (Rat.num_nonneg.mpr hNonneg)
    rw [hNum, Rat.num_div_den]
  have hDen := Rat.den_pos (v * unitsPerOne)
  unfold codeNear
  generalize (v * unitsPerOne).num.toNat = num at *
  generalize (v * unitsPerOne).den = den at *
  have hDenQ : (0 : ℚ) < den := Nat.cast_pos.mpr hDen
  rw [hSelf] at hHigh hLow hAbove hBelow
  apply nearestCode_of_near hDen
  · rw [Nat.div_lt_iff_lt_mul hDen]
    rw [div_lt_iff₀ hDenQ] at hHigh
    exact_mod_cast hHigh
  · refine hLow.imp_right fun hLow => ?_
    rw [Nat.le_div_iff_mul_le hDen]
    rw [le_div_iff₀ hDenQ] at hLow
    exact_mod_cast hLow
  · rw [← mul_div_assoc, div_lt_iff₀ hDenQ] at hAbove
    exact_mod_cast hAbove
  · have hScaled := mul_lt_mul_of_pos_right hBelow hDenQ
    rw [add_mul, mul_assoc 2 (num / den : ℚ), div_mul_cancel₀ _ hDenQ.ne'] at hScaled
    exact_mod_cast hScaled

/-- Below a power of two the spacing is halved, and the code is that spacing's last. -/
theorem codeNear_of_below_power {v : ℚ} {t : Nat} (hv : 0 ≤ v)
    (hBelow : v * unitsPerOne < fractions * 2 ^ (t + 1))
    (hDistance : (fractions * 2 ^ (t + 1) - v * unitsPerOne) * (2 * 10 ^ 16) ≤
      (fractions * 2 ^ (t + 1) : ℚ)) :
    codeNear v = min ((t + 1) * fractions + fractions) infinityCode := by
  have hFractions : (fractions : ℚ) = 2 ^ 52 := by rw [fractions_eq]; norm_num
  have hHalf : (2 : ℚ) ^ (t + 1) = 2 * 2 ^ t := pow_succ' 2 t
  have hPow : (0 : ℚ) < 2 ^ t := by positivity
  rw [show (t + 1) * fractions + fractions = t * fractions + 2 * fractions by
    rw [Nat.succ_mul]; omega]
  rw [hHalf, hFractions] at hBelow hDistance
  apply codeNear_of_near hv
  · rw [hFractions]
    linarith
  · right
    rw [hFractions]
    nlinarith
  · push_cast
    rw [hFractions]
    nlinarith
  · push_cast
    rw [hFractions]
    nlinarith

/-- What differs from a magnitude by at most one part in 2 * 10^16 has its code. -/
theorem codeNear_of_close {code : Nat} {v : ℚ} (hCode : code ≤ infinityCode) (hv : 0 ≤ v)
    (hClose : |v - value code| * (2 * 10 ^ 16) ≤ value code) : codeNear v = code := by
  obtain ⟨shift, r, rfl, hHigh, hLow⟩ := exists_shifted code
  have hUnits : value (shift * fractions + r) * unitsPerOne = r * 2 ^ shift := by
    rw [value_mul_units, units_shifted hHigh.le hLow]
    push_cast
    ring
  have hDistance : |v * unitsPerOne - r * 2 ^ shift| * (2 * 10 ^ 16) ≤ (r * 2 ^ shift : ℚ) := by
    have hScaled := mul_le_mul_of_nonneg_right hClose unitsPerOne_cast_pos.le
    rw [mul_right_comm, ← abs_of_pos unitsPerOne_cast_pos, ← abs_mul,
      abs_of_pos unitsPerOne_cast_pos, sub_mul, hUnits] at hScaled
    exact hScaled
  have hPow : (0 : ℚ) < 2 ^ shift := by positivity
  have hHighQ : (r : ℚ) + 1 ≤ 2 * fractions := by exact_mod_cast hHigh
  have hFractions : (fractions : ℚ) = 2 ^ 52 := by rw [fractions_eq]; norm_num
  have hLowQ : shift = 0 ∨ (fractions : ℚ) ≤ r := hLow.imp_right fun h => by exact_mod_cast h
  rw [← Nat.min_eq_left hCode]
  rcases le_or_gt (r * 2 ^ shift : ℚ) (v * unitsPerOne) with hAbove | hBelow
  · rw [abs_of_nonneg (by linarith)] at hDistance
    apply codeNear_of_near hv
    · nlinarith
    · exact hLowQ.imp_right fun h => by nlinarith
    · nlinarith
    · linarith
  · rw [abs_of_nonpos (by linarith), neg_sub] at hDistance
    by_cases hEdge : shift ≠ 0 ∧ r = fractions
    · obtain ⟨t, rfl⟩ := Nat.exists_eq_succ_of_ne_zero hEdge.1
      have hr : (r : ℚ) = fractions := by exact_mod_cast hEdge.2
      rw [hr] at hBelow hDistance
      rw [hEdge.2]
      exact codeNear_of_below_power hv hBelow hDistance
    · have hInner : shift = 0 ∨ (fractions : ℚ) + 1 ≤ r := by
        rcases hLow with hZero | hLow
        · exact .inl hZero
        · by_cases hZero : shift = 0
          · exact .inl hZero
          · right
            exact_mod_cast (by omega : fractions + 1 ≤ r)
      apply codeNear_of_near hv
      · nlinarith
      · exact hInner.imp_right fun h => by nlinarith
      · nlinarith
      · nlinarith

theorem codeNear_natCast (n : Nat) : codeNear n = nearestCode (n * unitsPerOne) 1 := by
  apply codeNear_eq Nat.one_pos
  rw [Nat.cast_mul, Nat.cast_one, div_one]

theorem codeNear_inv_natCast {n : Nat} (hn : 0 < n) :
    codeNear (n : ℚ)⁻¹ = nearestCode unitsPerOne n := by
  apply codeNear_eq hn
  rw [div_eq_inv_mul]

theorem units_pos {code : Nat} (hCode : code ≤ infinityCode) (hPos : 0 < code) :
    0 < units code := by
  have hValue := mul_pos (value_pos hCode hPos) unitsPerOne_cast_pos
  rw [value_mul_units] at hValue
  exact_mod_cast hValue

@[simp] theorem codeNear_zero : codeNear 0 = 0 := by
  rw [← Nat.cast_zero, codeNear_natCast, Nat.zero_mul]
  rfl

/-- Below 10^-331 there is nothing but zero. -/
theorem codeNear_tiny {v : ℚ} (hv : 0 ≤ v) (hTiny : v ≤ ((10 ^ 331 : Nat) : ℚ)⁻¹) :
    codeNear v = 0 := by
  have hPos : 0 < 10 ^ 331 := by positivity
  have hZero : nearestCode unitsPerOne (10 ^ 331) = 0 := by decide +kernel
  have hMono := codeNear_mono hv hTiny
  rw [codeNear_inv_natCast hPos, hZero] at hMono
  omega

/-- From 10^310 on there is nothing but infinity. -/
theorem codeNear_huge {v : ℚ} (hHuge : ((10 ^ 310 : Nat) : ℚ) ≤ v) : codeNear v = infinityCode := by
  have hInfinity : nearestCode (10 ^ 310 * unitsPerOne) 1 = infinityCode := by decide +kernel
  have hMono := codeNear_mono (Nat.cast_nonneg _) hHuge
  rw [codeNear_natCast, hInfinity] at hMono
  exact Nat.le_antisymm (codeNear_le v) hMono

/-- How many digits a number has says between which powers of ten it lies. -/
theorem toDigits_bounds {n : Nat} (hn : n ≠ 0) :
    10 ^ ((Nat.toDigits 10 n).length - 1) ≤ n ∧ n < 10 ^ (Nat.toDigits 10 n).length := by
  have hLength : 0 < (Nat.toDigits 10 n).length := Nat.length_toDigits_pos
  refine ⟨?_, (Nat.length_toDigits_le_iff (by decide) hLength).mp (Nat.le_refl _)⟩
  by_cases hOne : (Nat.toDigits 10 n).length = 1
  · simp only [hOne, Nat.sub_self, Nat.pow_zero]
    omega
  · by_contra hLess
    have hShort := (Nat.length_toDigits_le_iff (by decide) (by omega)).mpr (Nat.not_le.mp hLess)
    omega

/-- A decimal lies within a factor of ten below the power that its places give. -/
theorem decimal_bounds {digits : Nat} (hDigits : digits ≠ 0) (exponent : Int) :
    (10 : ℚ) ^ ((Nat.toDigits 10 digits).length + exponent - 1) ≤ digits * 10 ^ exponent ∧
      digits * (10 : ℚ) ^ exponent < 10 ^ ((Nat.toDigits 10 digits).length + exponent) := by
  obtain ⟨hLower, hUpper⟩ := toDigits_bounds hDigits
  have hLength : 0 < (Nat.toDigits 10 digits).length := Nat.length_toDigits_pos
  generalize (Nat.toDigits 10 digits).length = length at *
  have hTen : (0 : ℚ) < 10 ^ exponent := by positivity
  have hLowerQ : (10 : ℚ) ^ (length - 1) ≤ digits := by exact_mod_cast hLower
  have hUpperQ : (digits : ℚ) < 10 ^ length := by exact_mod_cast hUpper
  constructor
  · calc (10 : ℚ) ^ (length + exponent - 1) = 10 ^ (length - 1) * 10 ^ exponent := by
          rw [← zpow_natCast, ← zpow_add₀ (by norm_num)]
          congr 1
          omega
      _ ≤ digits * 10 ^ exponent := mul_le_mul_of_nonneg_right hLowerQ hTen.le
  · calc digits * (10 : ℚ) ^ exponent < 10 ^ length * 10 ^ exponent :=
          mul_lt_mul_of_pos_right hUpperQ hTen
      _ = 10 ^ (length + exponent) := by rw [← zpow_natCast, ← zpow_add₀ (by norm_num)]

@[simp] theorem ofDecimal_negative (negative : Bool) (digits : Nat) (exponent : Int) :
    (ofDecimal negative digits exponent).negative = negative := by
  unfold ofDecimal
  simp only
  split_ifs
  · rfl
  · rfl
  · cases exponent <;> rfl

/-- A decimal is read as the code nearest to its value. The bounds beyond which the power of
ten is not computed change nothing. -/
theorem ofDecimal_code (negative : Bool) (digits : Nat) (exponent : Int) :
    (ofDecimal negative digits exponent).code = codeNear (digits * 10 ^ exponent) := by
  by_cases hDigits : digits = 0
  · simp [ofDecimal, hDigits, zero]
  obtain ⟨hLower, hUpper⟩ := decimal_bounds hDigits exponent
  unfold ofDecimal
  simp only [hDigits, false_or]
  generalize (Nat.toDigits 10 digits).length + exponent = places at *
  split_ifs with hTiny hHuge
  · have hTop : (10 : ℚ) ^ places ≤ ((10 ^ 331 : Nat) : ℚ)⁻¹ := by
      rw [Nat.cast_pow, ← zpow_natCast, ← zpow_neg]
      exact zpow_le_zpow_right₀ (by norm_num) (by omega)
    exact (codeNear_tiny (by positivity) (hUpper.le.trans hTop)).symm
  · have hBottom : ((10 ^ 310 : Nat) : ℚ) ≤ 10 ^ (places - 1) := by
      rw [Nat.cast_pow, ← zpow_natCast]
      exact zpow_le_zpow_right₀ (by norm_num) (by omega)
    exact (codeNear_huge (hBottom.trans hLower)).symm
  · cases exponent with
    | ofNat e =>
        have hNatural : (digits : ℚ) * 10 ^ (Int.ofNat e) = ((digits * 10 ^ e : Nat) : ℚ) := by
          push_cast
          rw [Int.ofNat_eq_natCast, zpow_natCast]
        rw [hNatural, codeNear_natCast]
        rfl
    | negSucc e =>
        have hPow : 0 < 10 ^ (e + 1) := Nat.pow_pos (by decide)
        symm
        apply codeNear_eq hPow
        rw [zpow_negSucc]
        push_cast
        ring

theorem value_eq_of_units {code n : Nat} (hUnits : units code = n * unitsPerOne) :
    value code = n := by
  rw [value, hUnits, Nat.cast_mul, mul_div_cancel_right₀ _ unitsPerOne_cast_pos.ne']

/-- The magnitude of an exponent alone is a power of two. -/
theorem value_two_pow (k : Nat) : value ((k + 1023) * fractions) = (2 ^ k : Nat) := by
  have hCode : (k + 1023) * fractions = (k + 1022) * fractions + fractions := by ring
  have hExponent : 52 + (k + 1022) = k + 1074 := by omega
  apply value_eq_of_units
  rw [hCode, units_shifted (by omega) (.inr (Nat.le_refl _)), fractions_eq, unitsPerOne_eq,
    ← Nat.pow_add, ← Nat.pow_add, hExponent]

theorem codeNear_two_pow {k : Nat} (hk : k ≤ 1023) :
    codeNear (2 ^ k : Nat) = (k + 1023) * fractions := by
  rw [← value_two_pow, codeNear_value]
  exact Nat.mul_le_mul_right fractions (by omega : k + 1023 ≤ 2047)

theorem value_codeNear_two_pow {k : Nat} (hk : k ≤ 1023) :
    value (codeNear (2 ^ k : Nat)) = (2 ^ k : Nat) := by
  rw [codeNear_two_pow hk, value_two_pow]

/-- Integers of 64 bits are finite. -/
theorem codeNear_natCast_lt {n : Nat} (hn : n ≤ 2 ^ 64) : codeNear n < infinityCode := by
  have hCast : (n : ℚ) ≤ (2 ^ 64 : Nat) := by exact_mod_cast hn
  have hMono := codeNear_mono (Nat.cast_nonneg n) hCast
  have hLast : codeNear (2 ^ 64 : Nat) < infinityCode := by
    rw [codeNear_two_pow (by decide)]
    decide
  omega

/-- Up to 2^53 every whole number is a magnitude. -/
theorem value_codeNear_natCast {n : Nat} (hn : n ≤ 2 ^ 53) : value (codeNear n) = n := by
  suffices hCode : ∃ code ≤ infinityCode, value code = n by
    obtain ⟨code, hCode, hValue⟩ := hCode
    rw [← hValue, codeNear_value hCode]
  rcases Nat.lt_or_ge n (2 ^ 53) with hLess | hGe
  · by_cases hZero : n = 0
    · exact ⟨0, Nat.zero_le _, value_eq_of_units (by simp [hZero, units, fractions_pos])⟩
    · -- The leading one of the significand stands at bit 52.
      have hLow := Nat.log2_self_le hZero
      have hHigh : n < 2 ^ (Nat.log2 n + 1) := Nat.lt_log2_self
      have hLog : Nat.log2 n ≤ 52 := by
        have hLt := (Nat.log2_lt hZero).mpr hLess
        omega
      have hR : fractions ≤ n * 2 ^ (52 - Nat.log2 n) := by
        calc fractions = 2 ^ Nat.log2 n * 2 ^ (52 - Nat.log2 n) := by
              rw [← Nat.pow_add, fractions_eq]; congr 1; omega
          _ ≤ _ := Nat.mul_le_mul_right _ hLow
      have hR' : n * 2 ^ (52 - Nat.log2 n) < 2 * fractions := by
        calc n * 2 ^ (52 - Nat.log2 n) < 2 ^ (Nat.log2 n + 1) * 2 ^ (52 - Nat.log2 n) :=
              Nat.mul_lt_mul_of_pos_right hHigh (Nat.two_pow_pos _)
          _ = 2 * fractions := by
              rw [← Nat.pow_add, fractions_eq, ← Nat.pow_succ']; congr 1; omega
      refine ⟨(1022 + Nat.log2 n) * fractions + n * 2 ^ (52 - Nat.log2 n), ?_,
        value_eq_of_units ?_⟩
      · have hMul := Nat.mul_le_mul_right fractions hLog
        simp only [infinityCode]
        rw [Nat.add_mul]
        omega
      · rw [units_shifted hR'.le (.inr hR), unitsPerOne_eq, Nat.mul_assoc, ← Nat.pow_add]
        congr 2
        omega
  · refine ⟨(53 + 1023) * fractions, by decide, ?_⟩
    rw [value_two_pow, Nat.le_antisymm hn hGe]

/-- Up to 2^53 no two whole numbers share a code, and none shares one with a greater number. -/
theorem codeNear_natCast_inj {m n : Nat} (hn : n < 2 ^ 53) (h : codeNear m = codeNear n) :
    m = n := by
  rcases Nat.lt_trichotomy m n with hLess | hEq | hGreater
  · have hm := value_codeNear_natCast (n := m) (by omega)
    have hn' := value_codeNear_natCast (n := n) (by omega)
    rw [h, hn'] at hm
    exact (Nat.cast_injective hm).symm
  · exact hEq
  · have hNext : codeNear (n + 1 : Nat) ≤ codeNear m :=
      codeNear_mono (Nat.cast_nonneg _) (Nat.cast_le.mpr hGreater)
    have hSame : codeNear n ≤ codeNear (n + 1 : Nat) :=
      codeNear_mono (Nat.cast_nonneg _) (Nat.cast_le.mpr (Nat.le_succ n))
    have hEq : codeNear n = codeNear (n + 1 : Nat) := by omega
    have hn' := value_codeNear_natCast (n := n) (by omega)
    rw [hEq, value_codeNear_natCast (n := n + 1) (by omega)] at hn'
    have hBad : n + 1 = n := Nat.cast_injective hn'
    omega

theorem ofInt_code (n : Int) : (ofInt n).code = codeNear n.natAbs := by
  rw [codeNear_natCast]
  rfl

end Binary64

end LedgerSigning
