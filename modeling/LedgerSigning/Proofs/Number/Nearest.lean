import LedgerSigning.Proofs.Number.Neighbours

/-! Rounding, said without the way it is computed. A finite number is what a rational number rounds to
if no finite number is nearer, and of two that are equally near it is the one with the even code. -/
namespace LedgerSigning

namespace Binary64

/-- A finite number that no other is nearer than, and whose code is even if another is as near. -/
structure IsNearest (x : Binary64) (v : ℚ) : Prop where
  isFinite : x.isFinite = true
  closest (y : Binary64) : y.isFinite = true → |x.toRat - v| ≤ |y.toRat - v|
  even (y : Binary64) : y.isFinite = true → y.toRat ≠ x.toRat →
    |y.toRat - v| = |x.toRat - v| → x.code % 2 = 0

/-- A code at one distance is taken before another at another distance: it is nearer, or as near and
even while the other is odd. -/
def Before (code : Nat) (distance : ℚ) (other : Nat) (farther : ℚ) : Prop :=
  distance < farther ∨ (distance = farther ∧ code % 2 = 0 ∧ other % 2 = 1)

theorem Before.of_le {code other : Nat} {distance farther farthest : ℚ}
    (h : Before code distance other farther) (hLe : farther ≤ farthest) :
    Before code distance other farthest := by
  rcases h with hLess | ⟨hTie, hParities⟩
  · exact .inl (hLess.trans_le hLe)
  · rcases hLe.lt_or_eq with hLess | hSame
    · exact .inl (hTie.trans_lt hLess)
    · exact .inr ⟨hTie.trans hSame, hParities⟩

section Magnitude

variable {code : Nat} {v : ℚ}

theorem before_of_lt (hv : 0 ≤ v) (hLess : code < codeNear v) :
    Before (codeNear v) |value (codeNear v) - v| code |value code - v| := by
  obtain ⟨below, hBelow⟩ := Nat.exists_eq_add_of_lt (Nat.zero_lt_of_lt hLess)
  rw [Nat.zero_add] at hBelow
  have hLimit := codeNear_le v
  have hUp := (lt_codeNear_iff (by omega) hv).mp (show below < codeNear v by omega)
  rw [hBelow] at hLess hLimit ⊢
  have hStep := value_lt_value hLimit (Nat.lt_succ_self below)
  have hOrder := value_le_value (by omega) (Nat.le_of_lt_succ hLess)
  rw [middle] at hUp
  have hOther : |value code - v| = v - value code := by
    rw [abs_of_nonpos, neg_sub]
    rcases hUp with hUp | ⟨hUp, -⟩ <;> linarith
  rw [hOther]
  rcases hUp with hUp | ⟨hTie, hOdd⟩
  · left
    rw [abs_lt]
    constructor <;> linarith
  · rcases (Nat.le_of_lt_succ hLess).lt_or_eq with hFar | rfl
    · have hStrict := value_lt_value (by omega) hFar
      left
      rw [abs_lt]
      constructor <;> linarith
    · right
      rw [abs_of_nonneg (by linarith)]
      exact ⟨by linarith, by omega, hOdd⟩

theorem before_of_gt (hv : 0 ≤ v) (hLimit : code ≤ infinityCode) (hGreater : codeNear v < code) :
    Before (codeNear v) |value (codeNear v) - v| code |value code - v| := by
  have hDown := mt (lt_codeNear_iff (by omega) hv).mpr (lt_irrefl (codeNear v))
  push Not at hDown
  obtain ⟨hDown, hOdd⟩ := hDown
  generalize codeNear v = near at *
  have hStep := value_lt_value (by omega) (Nat.lt_succ_self near)
  have hOrder := value_le_value hLimit (Nat.succ_le_of_lt hGreater)
  rw [middle] at hDown hOdd
  have hOther : |value code - v| = value code - v := abs_of_nonneg (by linarith)
  rw [hOther]
  rcases hDown.lt_or_eq with hDown | hTie
  · left
    rw [abs_lt]
    constructor <;> linarith
  · rcases (Nat.succ_le_of_lt hGreater).lt_or_eq with hFar | rfl
    · have hStrict := value_lt_value hLimit hFar
      left
      rw [abs_lt]
      constructor <;> linarith
    · have hEven := hOdd hTie
      right
      rw [abs_of_nonpos (by linarith)]
      exact ⟨by linarith, by omega, by omega⟩

/-- The nearest code is taken before every other. -/
theorem before_of_code_ne (hv : 0 ≤ v) (hLimit : code ≤ infinityCode) (hNe : code ≠ codeNear v) :
    Before (codeNear v) |value (codeNear v) - v| code |value code - v| := by
  rcases Nat.lt_or_gt_of_ne hNe with hLess | hGreater
  · exact before_of_lt hv hLess
  · exact before_of_gt hv hLimit hGreater

end Magnitude

section Sign

variable {x y : Binary64} {v : ℚ}

theorem abs_nearestRat (v : ℚ) : |nearestRat v| = value (codeNear |v|) := by
  rcases lt_or_ge v 0 with hNegative | hNonneg
  · rw [nearestRat, if_pos hNegative, abs_neg, abs_of_nonneg (value_nonneg _), abs_of_neg hNegative]
  · rw [nearestRat_of_nonneg hNonneg, abs_of_nonneg (value_nonneg _), abs_of_nonneg hNonneg]

theorem abs_nearestRat_sub (v : ℚ) : |nearestRat v - v| = |value (codeNear |v|) - (|v|)| := by
  rcases lt_or_ge v 0 with hNegative | hNonneg
  · rw [nearestRat, if_pos hNegative, abs_of_neg hNegative, ← abs_neg, neg_sub, sub_neg_eq_add,
      sub_neg_eq_add, add_comm]
  · rw [nearestRat_of_nonneg hNonneg, abs_of_nonneg hNonneg]

/-- The opposite of what a number rounds to is farther away. -/
theorem abs_nearestRat_sub_lt (hNonzero : nearestRat v ≠ 0) :
    |nearestRat v - v| < |-nearestRat v - v| := by
  rcases lt_trichotomy v 0 with hNegative | rfl | hPositive
  · rw [nearestRat, if_pos hNegative, neg_ne_zero] at hNonzero
    rw [nearestRat, if_pos hNegative, neg_neg]
    have hPos := (value_nonneg _).lt_of_ne' hNonzero
    rw [abs_of_pos (by linarith : 0 < value (codeNear (-v)) - v), abs_lt]
    constructor <;> linarith
  · exact absurd nearestRat_zero hNonzero
  · rw [nearestRat_of_nonneg hPositive.le] at hNonzero ⊢
    have hPos := (value_nonneg _).lt_of_ne' hNonzero
    rw [abs_of_neg (by linarith : -value (codeNear v) - v < 0), abs_lt]
    constructor <;> linarith

theorem code_of_toRat (hLimit : x.code ≤ infinityCode) (hRounded : x.toRat = nearestRat v) :
    x.code = codeNear |v| := by
  rw [← codeNear_value hLimit, ← abs_toRat, hRounded, abs_nearestRat, codeNear_value (codeNear_le _)]

/-- What a number rounds to is taken before all numbers of other values. -/
theorem before_of_toRat_ne (hx : x.isFinite = true) (hy : y.isFinite = true)
    (hRounded : x.toRat = nearestRat v) (hNe : y.toRat ≠ x.toRat) :
    Before x.code |x.toRat - v| y.code |y.toRat - v| := by
  have hCode := code_of_toRat (code_lt_of_isFinite hx).le hRounded
  by_cases hCodes : y.code = x.code
  · -- Two values of one code differ in their sign only.
    have hOpposite : y.toRat = -x.toRat := by
      refine (abs_eq_abs.mp ?_).resolve_left hNe
      rw [abs_toRat, abs_toRat, hCodes]
    have hNonzero : x.toRat ≠ 0 := by
      intro hZero
      rw [hOpposite, hZero, neg_zero] at hNe
      exact hNe rfl
    rw [hOpposite]
    rw [hRounded] at hNonzero ⊢
    exact .inl (abs_nearestRat_sub_lt hNonzero)
  · have hLimit := (code_lt_of_isFinite hy).le
    have hOther : |value y.code - (|v|)| ≤ |y.toRat - v| := by
      rw [← abs_toRat]
      exact abs_abs_sub_abs_le_abs_sub _ _
    rw [hCode] at hCodes ⊢
    rw [hRounded, abs_nearestRat_sub]
    exact (before_of_code_ne (abs_nonneg v) hLimit hCodes).of_le hOther

/-- The numbers nearest to a rational number are those with the value that it is rounded to. -/
theorem isNearest_iff (hx : x.isFinite = true) (hRounded : x.toRat = nearestRat v) :
    y.IsNearest v ↔ y.isFinite = true ∧ y.toRat = x.toRat := by
  constructor
  · intro hNearest
    refine ⟨hNearest.isFinite, ?_⟩
    by_contra hNe
    rcases before_of_toRat_ne hx hNearest.isFinite hRounded hNe with hLess | ⟨hTie, -, hOdd⟩
    · exact absurd (hNearest.closest x hx) (not_le.mpr hLess)
    · have hEven := hNearest.even x hx (Ne.symm hNe) hTie
      omega
  · rintro ⟨hy, hSame⟩
    have hBefore (z : Binary64) (hz : z.isFinite = true) (hNe : z.toRat ≠ y.toRat) :=
      before_of_toRat_ne hy hz (hSame.trans hRounded) hNe
    refine ⟨hy, fun z hz => ?_, fun z hz hNe hTie => ?_⟩
    · by_cases hNe : z.toRat = y.toRat
      · rw [hNe]
      · rcases hBefore z hz hNe with hLess | ⟨hTie, -⟩
        · exact hLess.le
        · exact hTie.le
    · exact ((hBefore z hz hNe).resolve_left hTie.le.not_gt).2.1

theorem isNearest_natCast_iff {n : Nat} (hn : n ≤ 2 ^ 53) :
    y.IsNearest n ↔ y.isFinite = true ∧ y.toRat = n := by
  have hValue := toRat_ofInt hn
  rw [isNearest_iff (isFinite_ofInt (by omega)) (hValue.trans (nearestRat_natCast hn).symm), hValue]

theorem isNearest_mul_iff {z : Binary64} (hx : x.isFinite = true) (hz : z.isFinite = true)
    (hProduct : (x.mul z).isFinite = true) :
    y.IsNearest (x.toRat * z.toRat) ↔ y.isFinite = true ∧ y.toRat = (x.mul z).toRat :=
  isNearest_iff hProduct (toRat_mul hx hz)

end Sign

end Binary64

end LedgerSigning
