import LedgerSigning.Proofs.Number.Arithmetic

/-! Rounding between neighbouring magnitudes. A number goes up to the greater of two neighbours from
the middle between them on, and in the middle itself if the smaller has an odd code. So what is lost
by rounding is bounded by the spacing, and the spacing by the magnitude. -/
namespace LedgerSigning

namespace Binary64

/-- The number in the middle between a magnitude and the next. -/
def middle (code : Nat) : ℚ := (value code + value (code + 1)) / 2

section Spacing

variable {code shift r : Nat}

theorem value_mul_units_shifted (hHigh : r < 2 * fractions) (hLow : shift = 0 ∨ fractions ≤ r) :
    value (shift * fractions + r) * unitsPerOne = r * 2 ^ shift ∧
      value (shift * fractions + r + 1) * unitsPerOne = (r + 1) * 2 ^ shift := by
  have hNext : shift = 0 ∨ fractions ≤ r + 1 := hLow.imp_right fun h => h.trans (Nat.le_succ r)
  rw [value_mul_units, value_mul_units, add_assoc, units_shifted hHigh.le hLow,
    units_shifted hHigh hNext]
  push_cast
  exact ⟨rfl, rfl⟩

theorem middle_mul_units_shifted (hHigh : r < 2 * fractions) (hLow : shift = 0 ∨ fractions ≤ r) :
    2 * (middle (shift * fractions + r) * unitsPerOne) = (2 * r + 1) * 2 ^ shift := by
  obtain ⟨hValue, hNext⟩ := value_mul_units_shifted hHigh hLow
  calc 2 * (middle (shift * fractions + r) * unitsPerOne) =
      value (shift * fractions + r) * unitsPerOne +
        value (shift * fractions + r + 1) * unitsPerOne := by rw [middle]; ring
    _ = (2 * r + 1) * 2 ^ shift := by rw [hValue, hNext]; ring

/-- A magnitude other than the smallest is 2^52 times the spacing on either side of it at least. -/
theorem spacing_le (hCode : code + 1 ≤ infinityCode) :
    0 < value (code + 1) - value code ∧
    (fractions ≤ code → (value (code + 1) - value code) * 2 ^ 52 ≤ value code) ∧
      (fractions ≤ code + 1 → (value (code + 1) - value code) * 2 ^ 52 ≤ value (code + 1)) := by
  have hUnits := unitsPerOne_cast_pos
  obtain ⟨shift, r, rfl, hHigh, hLow⟩ := exists_shifted code
  obtain ⟨hValue, hNext⟩ := value_mul_units_shifted hHigh hLow
  have hGap : (value (shift * fractions + r + 1) - value (shift * fractions + r)) * unitsPerOne =
      2 ^ shift := by
    rw [sub_mul, hValue, hNext]
    ring
  have hPow : (0 : ℚ) < 2 ^ shift := by positivity
  have hFractions : (fractions : ℚ) = 2 ^ 52 := by rw [fractions_eq]; norm_num
  refine ⟨sub_pos.mpr (value_lt_value hCode (Nat.lt_succ_self _)), fun hNormal => ?_,
    fun hNormal => ?_⟩
  · have hr : fractions ≤ r := by
      rcases hLow with rfl | hLow
      · simpa using hNormal
      · exact hLow
    have hrQ : (2 : ℚ) ^ 52 ≤ r := by
      rw [← hFractions]
      exact_mod_cast hr
    apply le_of_mul_le_mul_right _ hUnits
    rw [mul_right_comm, hGap, hValue, mul_comm]
    exact mul_le_mul_of_nonneg_right hrQ hPow.le
  · have hr : fractions ≤ r + 1 := by
      rcases hLow with rfl | hLow
      · simpa using hNormal
      · exact hLow.trans (Nat.le_succ r)
    have hrQ : (2 : ℚ) ^ 52 ≤ r + 1 := by
      rw [← hFractions]
      exact_mod_cast hr
    apply le_of_mul_le_mul_right _ hUnits
    rw [mul_right_comm, hGap, hNext, mul_comm]
    exact mul_le_mul_of_nonneg_right hrQ hPow.le

end Spacing

section Rounding

variable {code : Nat} {v : ℚ}

/-- Half of an odd number rounds to the even one of the two next to it. -/
theorem roundDiv_tie {r den : Nat} (hDen : 0 < den) :
    roundDiv ((2 * r + 1) * den) (2 * den) = if r % 2 = 0 then r else r + 1 := by
  have hSplit : (2 * r + 1) * den = den + r * (2 * den) := by ring
  have hQuotient : (2 * r + 1) * den / (2 * den) = r := by
    rw [hSplit, Nat.add_mul_div_right _ _ (by omega), Nat.div_eq_of_lt (by omega), Nat.zero_add]
  have hRest : (2 * r + 1) * den % (2 * den) = den := by
    rw [hSplit, Nat.add_mul_mod_self_right, Nat.mod_eq_of_lt (by omega)]
  rw [roundDiv_def, hQuotient, hRest]
  split_ifs <;> omega

theorem codeNear_of_lt_middle (hCode : code ≤ infinityCode) (hv : 0 ≤ v) (h : v < middle code) :
    codeNear v ≤ code := by
  have hUnits := unitsPerOne_cast_pos
  rcases le_or_gt v (value code) with hBelow | hAbove
  · rw [← codeNear_value hCode]
    exact codeNear_mono hv hBelow
  obtain ⟨shift, r, rfl, hHigh, hLow⟩ := exists_shifted code
  obtain ⟨hValue, hNext⟩ := value_mul_units_shifted hHigh hLow
  have hMiddle := middle_mul_units_shifted hHigh hLow
  have hFrom := mul_lt_mul_of_pos_right hAbove hUnits
  have hTo := mul_lt_mul_of_pos_right h hUnits
  rw [hValue] at hFrom
  have hPow : (0 : ℚ) < 2 ^ shift := by positivity
  have hHighQ : (r : ℚ) + 1 ≤ 2 * fractions := by exact_mod_cast hHigh
  have hNear : codeNear v = min (shift * fractions + r) infinityCode := by
    apply codeNear_of_near hv
    · nlinarith
    · refine hLow.imp_right fun hLow => ?_
      have hLowQ : (fractions : ℚ) ≤ r := by exact_mod_cast hLow
      nlinarith
    · linarith
    · linarith
  rw [hNear]
  exact Nat.min_le_left _ _

theorem codeNear_of_middle_lt (hCode : code < infinityCode) (h : middle code < v) :
    code < codeNear v := by
  have hUnits := unitsPerOne_cast_pos
  have hv : 0 ≤ v := by
    have hPos : 0 ≤ middle code := by
      rw [middle]
      exact div_nonneg (add_nonneg (value_nonneg _) (value_nonneg _)) (by norm_num)
    linarith
  rcases le_or_gt (value (code + 1)) v with hAbove | hBelow
  · have hCodes := codeNear_mono (value_nonneg _) hAbove
    rwa [codeNear_value hCode] at hCodes
  obtain ⟨shift, r, rfl, hHigh, hLow⟩ := exists_shifted code
  obtain ⟨hValue, hNext⟩ := value_mul_units_shifted hHigh hLow
  have hMiddle := middle_mul_units_shifted hHigh hLow
  have hFrom := mul_lt_mul_of_pos_right h hUnits
  have hTo := mul_lt_mul_of_pos_right hBelow hUnits
  rw [hNext] at hTo
  have hPow : (0 : ℚ) < 2 ^ shift := by positivity
  have hHighQ : (r : ℚ) + 1 ≤ 2 * fractions := by exact_mod_cast hHigh
  have hNear : codeNear v = min (shift * fractions + (r + 1)) infinityCode := by
    apply codeNear_of_near hv
    · nlinarith
    · refine hLow.imp_right fun hLow => ?_
      have hLowQ : (fractions : ℚ) ≤ r := by exact_mod_cast hLow
      nlinarith
    · push_cast
      linarith
    · push_cast
      linarith
  rw [hNear]
  omega

theorem codeNear_middle (hCode : code < infinityCode) :
    codeNear (middle code) = if code % 2 = 0 then code else code + 1 := by
  obtain ⟨shift, r, rfl, hHigh, hLow⟩ := exists_shifted code
  have hMiddle := middle_mul_units_shifted hHigh hLow
  have hPow := Nat.two_pow_pos shift
  have hQuotient : (2 * r + 1) * 2 ^ shift / 2 = r * 2 ^ shift + 2 ^ shift / 2 := by
    have hSplit : (2 * r + 1) * 2 ^ shift = 2 ^ shift + 2 * (r * 2 ^ shift) := by ring
    rw [hSplit, Nat.add_mul_div_left _ _ (by decide), Nat.add_comm]
  have hHalf : r * 2 ^ shift + 2 ^ shift ≤ 2 * fractions * 2 ^ shift := by
    have hMul := Nat.mul_le_mul_right (2 ^ shift) (Nat.succ_le_of_lt hHigh)
    rwa [Nat.succ_mul] at hMul
  have hParity : (shift * fractions + r) % 2 = r % 2 := by
    simp only [fractions]
    omega
  have hRounded : codeNear (middle (shift * fractions + r)) =
      min (shift * fractions + if r % 2 = 0 then r else r + 1) infinityCode := by
    have hRatio : middle (shift * fractions + r) * unitsPerOne =
        ((2 * r + 1) * 2 ^ shift : Nat) / (2 : Nat) := by
      push_cast
      linarith
    rw [codeNear_eq (by decide) hRatio]
    apply nearestCode_eq
    · rw [hQuotient]
      omega
    · refine hLow.imp_right fun hLow => ?_
      have hMul := Nat.mul_le_mul_right (2 ^ shift) hLow
      omega
    · exact roundDiv_tie hPow
  rw [hRounded, hParity]
  split_ifs
  · exact Nat.min_eq_left hCode.le
  · rw [← Nat.add_assoc]
    exact Nat.min_eq_left (Nat.succ_le_of_lt hCode)

/-- To the nearest, and from the middle to the even code. -/
theorem lt_codeNear_iff (hCode : code < infinityCode) (hv : 0 ≤ v) : code < codeNear v ↔
    middle code < v ∨ (v = middle code ∧ code % 2 = 1) := by
  rcases lt_trichotomy v (middle code) with hLess | rfl | hGreater
  · have hDown := codeNear_of_lt_middle hCode.le hv hLess
    simp [hLess.not_gt, hLess.ne, hDown]
  · rw [codeNear_middle hCode]
    split_ifs <;> simp <;> omega
  · simp [hGreater, codeNear_of_middle_lt hCode hGreater]

/-- A normal number differs from what was rounded by at most one part in 2^53. -/
theorem abs_codeNear_sub_le (hv : 0 ≤ v) (hNormal : fractions ≤ codeNear v)
    (hFinite : codeNear v < infinityCode) :
    |value (codeNear v) - v| * 2 ^ 53 ≤ value (codeNear v) := by
  have hDown : v ≤ middle (codeNear v) := by
    by_contra hAbove
    exact lt_irrefl _ (codeNear_of_middle_lt hFinite (not_le.mp hAbove))
  obtain ⟨below, hBelow⟩ := Nat.exists_eq_add_of_lt (fractions_pos.trans_le hNormal)
  rw [Nat.zero_add] at hBelow
  have hUp : middle below ≤ v := by
    by_contra hLess
    have hLow := codeNear_of_lt_middle (by omega) hv (not_le.mp hLess)
    omega
  have hAfter := (spacing_le hFinite).2.1 hNormal
  have hBefore := (@spacing_le below (by omega)).2.2 (by omega)
  rw [← hBelow] at hBefore
  rw [middle] at hDown hUp
  rw [← hBelow] at hUp
  rw [← abs_of_pos (by positivity : (0 : ℚ) < 2 ^ 53), ← abs_mul, abs_le]
  constructor
  · linarith
  · linarith

end Rounding

section Whole

variable {n : Nat} {v : ℚ}

/-- Half the distance from a positive whole number to the magnitude before it: below a power of two
the spacing is that of smaller numbers. -/
def halfGap (n : Nat) : ℚ := 2 ^ ((Nat.log2 (2 * n - 1) : ℤ) - 54)

theorem log2_odd_spec (hPos : 0 < n) (hn : n ≤ 2 ^ 52) : Nat.log2 (2 * n - 1) ≤ 52 ∧
    2 ^ Nat.log2 (2 * n - 1) < 2 * n ∧ 2 * n ≤ 2 ^ (Nat.log2 (2 * n - 1) + 1) := by
  have hNonzero : 2 * n - 1 ≠ 0 := by omega
  have hLow := Nat.log2_self_le hNonzero
  have hHigh : 2 * n - 1 < 2 ^ (Nat.log2 (2 * n - 1) + 1) := Nat.lt_log2_self
  have hLog := (Nat.log2_lt hNonzero).mpr (show 2 * n - 1 < 2 ^ 53 by omega)
  omega

theorem halfGap_pos (n : Nat) : 0 < halfGap n := zpow_pos (by norm_num) _

theorem halfGap_le (hPos : 0 < n) (hn : n ≤ 2 ^ 52) : halfGap n ≤ 1 / 4 := by
  have hLog := (log2_odd_spec hPos hn).1
  calc halfGap n ≤ (2 : ℚ) ^ (-2 : ℤ) := zpow_le_zpow_right₀ (by norm_num) (by omega)
    _ = 1 / 4 := by norm_num

/-- The code before that of a whole number is odd, and the middle after it lies half a gap below the
number. -/
theorem exists_code_below (hPos : 0 < n) (hn : n ≤ 2 ^ 52) : ∃ below, codeNear n = below + 1 ∧
    below < infinityCode ∧ value (below + 1) = n ∧ below % 2 = 1 ∧
      middle below = n - halfGap n := by
  obtain ⟨hLog, hLow, hHigh⟩ := log2_odd_spec hPos hn
  unfold halfGap
  generalize Nat.log2 (2 * n - 1) = j at *
  have hTop : 2 ^ (j + 1) * 2 ^ (52 - j) = 2 * fractions := by
    rw [← Nat.pow_add, fractions_eq, ← Nat.pow_succ']
    congr 1
    omega
  have hR : 2 * n * 2 ^ (52 - j) ≤ 2 * fractions := hTop ▸ Nat.mul_le_mul_right _ hHigh
  have hR' : fractions < 2 * n * 2 ^ (52 - j) := by
    have hMul := Nat.mul_lt_mul_of_pos_right hLow (Nat.two_pow_pos (52 - j))
    rw [Nat.pow_succ'] at hTop
    nlinarith
  obtain ⟨r, hr⟩ : ∃ r, 2 * n * 2 ^ (52 - j) = r + 1 :=
    ⟨_, (Nat.succ_pred_eq_of_pos (by omega)).symm⟩
  have hFirst : r < 2 * fractions := by omega
  obtain ⟨shift, hShift⟩ : ∃ shift, shift = 1021 + j := ⟨_, rfl⟩
  have hLast : shift = 0 ∨ fractions ≤ r := .inr (by omega)
  obtain ⟨-, hNext⟩ := value_mul_units_shifted hFirst hLast
  have hMiddle := middle_mul_units_shifted hFirst hLast
  have hUnits : (unitsPerOne : ℚ) = 2 * 2 ^ (52 - j) * 2 ^ shift := by
    rw [unitsPerOne_eq, Nat.cast_pow, Nat.cast_ofNat, ← pow_succ', ← pow_add]
    congr 1
    omega
  have hWhole : ((r : ℚ) + 1) * 2 ^ shift = n * unitsPerOne := by
    have hrQ : 2 * (n : ℚ) * 2 ^ (52 - j) = r + 1 := by exact_mod_cast hr
    rw [hUnits, ← hrQ]
    ring
  have hHalf : 2 * ((2 : ℚ) ^ ((j : ℤ) - 54) * unitsPerOne) = 2 ^ shift := by
    rw [unitsPerOne_eq, Nat.cast_pow, Nat.cast_ofNat, ← zpow_natCast, ← zpow_natCast,
      ← zpow_add₀ (by norm_num), ← zpow_one_add₀ (by norm_num)]
    congr 1
    omega
  have hValue : value (shift * fractions + r + 1) = n := by
    apply mul_right_cancel₀ unitsPerOne_cast_pos.ne'
    rw [hNext, hWhole]
  have hCode : shift * fractions + r < infinityCode := by
    simp only [infinityCode, fractions] at hFirst ⊢
    omega
  refine ⟨shift * fractions + r, ?_, hCode, hValue, ?_, ?_⟩
  · rw [← hValue, codeNear_value hCode]
  · have hEven : (r + 1) % 2 = 0 := by
      rw [← hr, Nat.mul_assoc, Nat.mul_mod_right]
    simp only [fractions]
    omega
  · apply mul_right_cancel₀ unitsPerOne_cast_pos.ne'
    rw [sub_mul]
    linarith

/-- A number is rounded to a whole number or more from half a gap below it on. -/
theorem natCast_le_value_codeNear_iff (hn : n ≤ 2 ^ 52) (hv : 0 ≤ v) :
    (n : ℚ) ≤ value (codeNear v) ↔ n - halfGap n ≤ v := by
  rcases Nat.eq_zero_or_pos n with rfl | hPos
  · have hGap := halfGap_pos 0
    rw [Nat.cast_zero]
    exact iff_of_true (value_nonneg _) (by linarith)
  obtain ⟨below, -, hBelow, hValue, hOdd, hMiddle⟩ := exists_code_below hPos hn
  rw [← hMiddle, ← hValue, le_iff_lt_or_eq (a := middle below)]
  have hCodes : value (below + 1) ≤ value (codeNear v) ↔ below < codeNear v := by
    constructor
    · intro hLe
      by_contra hNot
      have hLess := value_lt_value (c := codeNear v) (Nat.succ_le_of_lt hBelow) (by omega)
      exact absurd hLe (not_le.mpr hLess)
    · exact fun hLess => value_le_value (codeNear_le v) hLess
  rw [hCodes, lt_codeNear_iff hBelow hv]
  simp [hOdd, eq_comm]

/-- A number within a half of a whole number, rounded and then rounded down, gives the whole number
from half a gap below it on, and otherwise the one before it. -/
theorem floor_nearestRat (hn : n < 2 ^ 52) (hv : 0 ≤ v) (hNear : |v - n| ≤ 1 / 2) :
    ⌊nearestRat v⌋ = if (n : ℚ) - halfGap n ≤ v then (n : Int) else n - 1 := by
  obtain ⟨hLow, hHigh⟩ := abs_le.mp hNear
  have hReaches := natCast_le_value_codeNear_iff hn.le hv
  rw [nearestRat_of_nonneg hv]
  have hNext : value (codeNear v) < n + 1 := by
    have hGap := halfGap_le (n := n + 1) (by omega) (by omega)
    have hBeyond := natCast_le_value_codeNear_iff (n := n + 1) (by omega) hv
    push_cast at hBeyond
    rw [← not_le, hBeyond]
    linarith
  have hBefore : (n : ℚ) - 1 ≤ value (codeNear v) := by
    cases n with
    | zero =>
        have hNonneg := value_nonneg (codeNear v)
        rw [Nat.cast_zero]
        linarith
    | succ m =>
        have hGap := halfGap_pos m
        push_cast at hLow ⊢
        rw [add_sub_cancel_right, natCast_le_value_codeNear_iff (by omega) hv]
        linarith
  by_cases hWhole : (n : ℚ) ≤ value (codeNear v)
  · rw [if_pos (hReaches.mp hWhole)]
    exact Int.floor_eq_iff.mpr ⟨hWhole, hNext⟩
  · rw [if_neg (mt hReaches.mpr hWhole), Int.floor_eq_iff]
    push_cast
    exact ⟨hBefore, by linarith⟩

end Whole

end Binary64

end LedgerSigning
