import LedgerSigning.Number.Binary64
import Mathlib.Algebra.Order.Field.Basic
import Mathlib.Algebra.Order.Field.Power
import Mathlib.Data.Rat.Cast.Order
import Mathlib.Tactic.FieldSimp
import Mathlib.Tactic.Linarith
import Mathlib.Tactic.NormNum
import Mathlib.Tactic.Positivity
import Mathlib.Tactic.Ring

/-! Rounding to the nearest code as a function of rational numbers. It is monotone and
gives every finite magnitude its own code back, and so does everything close enough to
that magnitude. -/
namespace LedgerSigning

namespace Binary64

theorem fractions_pos : 0 < fractions := by decide

theorem fractions_eq : fractions = 2 ^ 52 := by decide

theorem unitsPerOne_eq : unitsPerOne = 2 ^ 1074 := by decide +kernel

theorem unitsPerOne_pos : 0 < unitsPerOne := by
  rw [unitsPerOne_eq]
  positivity

theorem roundDiv_def (num den : Nat) : roundDiv num den =
    if 2 * (num % den) < den ∨ (2 * (num % den) = den ∧ num / den % 2 = 0) then num / den
    else num / den + 1 := rfl

/-- A quotient whose distance from a natural is below a half rounds to it. -/
theorem roundDiv_eq {num den r : Nat} (hDen : 0 < den)
    (hAbove : 2 * num < (2 * r + 1) * den) (hBelow : 2 * r * den < 2 * num + den) :
    roundDiv num den = r := by
  have hSplit : den * (num / den) + num % den = num := Nat.div_add_mod num den
  have hRest : num % den < den := Nat.mod_lt _ hDen
  have hFloor : den * (num / den) ≤ num := Nat.mul_div_le num den
  have hLow : r ≤ num / den + 1 := by
    by_contra hLess
    have hMul : den * (num / den + 2) ≤ den * r := Nat.mul_le_mul_left _ (by omega)
    nlinarith
  have hHigh : num / den ≤ r := by
    by_contra hLess
    have hMul : den * (r + 1) ≤ den * (num / den) := Nat.mul_le_mul_left _ (by omega)
    nlinarith
  rw [roundDiv_def]
  rcases Nat.lt_or_ge (num / den) r with hLess | hEq
  · have hr : r = num / den + 1 := by omega
    have hHalf : den < 2 * (num % den) := by
      have hMul : 2 * r * den = 2 * (den * (num / den)) + 2 * den := by rw [hr]; ring
      omega
    rw [if_neg (by omega), hr]
  · have hr : r = num / den := by omega
    have hHalf : 2 * (num % den) < den := by
      have hMul : (2 * r + 1) * den = 2 * (den * (num / den)) + den := by rw [hr]; ring
      omega
    rw [if_pos (by omega), hr]

theorem le_roundDiv (num den : Nat) : num / den ≤ roundDiv num den := by
  rw [roundDiv_def]
  split <;> omega

theorem roundDiv_le (num den : Nat) : roundDiv num den ≤ num / den + 1 := by
  rw [roundDiv_def]
  split <;> omega

theorem div_le_div_of_mul_le {a b c d : Nat} (hb : 0 < b) (hd : 0 < d) (h : a * d ≤ c * b) :
    a / b ≤ c / d := by
  rw [Nat.le_div_iff_mul_le hd]
  have hMul : a / b * d * b ≤ c * b := by
    calc a / b * d * b = a / b * b * d := by ring
      _ ≤ a * d := Nat.mul_le_mul_right _ (Nat.div_mul_le_self a b)
      _ ≤ c * b := h
  exact Nat.le_of_mul_le_mul_right hMul hb

/-- A greater quotient does not round to less. -/
theorem roundDiv_mono {a b c d : Nat} (hb : 0 < b) (hd : 0 < d) (h : a * d ≤ c * b) :
    roundDiv a b ≤ roundDiv c d := by
  have hQuotient := div_le_div_of_mul_le hb hd h
  rcases Nat.lt_or_ge (a / b) (c / d) with hLess | hGe
  · exact (roundDiv_le a b).trans ((by omega : a / b + 1 ≤ c / d).trans (le_roundDiv c d))
  · -- With equal quotients the remainders compare the same way.
    have hEq : c / d = a / b := by omega
    have hRest : a % b * d ≤ c % d * b := by
      have ha := Nat.div_add_mod a b
      have hc := Nat.div_add_mod c d
      rw [hEq] at hc
      nlinarith
    rw [roundDiv_def, roundDiv_def, hEq]
    by_cases hDown : 2 * (c % d) < d ∨ (2 * (c % d) = d ∧ a / b % 2 = 0)
    · -- What rounds down on the right does so on the left.
      have hLeft : 2 * (a % b) < b ∨ (2 * (a % b) = b ∧ a / b % 2 = 0) := by
        rcases hDown with hDown | ⟨hTie, hEven⟩
        · left
          by_contra hUp
          nlinarith [Nat.mul_le_mul_right d (Nat.not_lt.mp hUp),
            Nat.mul_lt_mul_of_pos_right hDown hb]
        · rcases Nat.lt_or_ge b (2 * (a % b)) with hUp | hUp
          · have hMul : b * d < 2 * (a % b) * d := Nat.mul_lt_mul_of_pos_right hUp hd
            nlinarith
          · omega
      rw [if_pos hDown, if_pos hLeft]
    · rw [if_neg hDown]
      split <;> omega

/-- The units of a code whose exponent and fraction are given. -/
theorem units_mul_add {exponent fraction : Nat} (hFraction : fraction < fractions) :
    units (exponent * fractions + fraction) =
      if exponent = 0 then fraction else (fractions + fraction) * 2 ^ (exponent - 1) := by
  have hPos := fractions_pos
  rcases Nat.eq_zero_or_pos exponent with hZero | hExponent
  · simp [units, hZero, hFraction]
  · have hLarge : ¬ exponent * fractions + fraction < fractions := by nlinarith
    rw [units, if_neg hLarge, if_neg (by omega), Nat.add_comm (exponent * fractions),
      Nat.add_mul_div_right _ _ hPos, Nat.add_mul_mod_self_right, Nat.div_eq_of_lt hFraction,
      Nat.mod_eq_of_lt hFraction, Nat.zero_add, Nat.pow_eq]

/-- Below 2^53 a count of units is its own code, and from there on 2^52 codes share one
spacing, to which the first of the next spacing may be added. -/
theorem units_shifted {shift r : Nat} (hHigh : r ≤ 2 * fractions)
    (hLow : shift = 0 ∨ fractions ≤ r) : units (shift * fractions + r) = r * 2 ^ shift := by
  rcases Nat.lt_or_ge r fractions with hSmall | hLarge
  · have hShift : shift = 0 := by omega
    rw [units_mul_add hSmall, if_pos hShift, hShift, Nat.pow_zero, Nat.mul_one]
  · obtain ⟨fraction, rfl⟩ := Nat.exists_eq_add_of_le hLarge
    rcases Nat.lt_or_ge fraction fractions with hInner | hEdge
    · have hCode : shift * fractions + (fractions + fraction) =
          (shift + 1) * fractions + fraction := by ring
      rw [hCode, units_mul_add hInner, if_neg (by omega), Nat.add_sub_cancel]
    · have hFraction : fraction = fractions := by omega
      have hCode : shift * fractions + (fractions + fraction) = (shift + 2) * fractions + 0 := by
        rw [hFraction]; ring
      rw [hCode, units_mul_add fractions_pos, if_neg (by omega), hFraction,
        show shift + 2 - 1 = shift + 1 by omega, Nat.pow_succ]
      ring

/-- Every code is a significand below 2^53 in the spacing of its exponent. -/
theorem exists_shifted (code : Nat) : ∃ shift r, code = shift * fractions + r ∧
    r < 2 * fractions ∧ (shift = 0 ∨ fractions ≤ r) := by
  have hPos := fractions_pos
  rcases Nat.lt_or_ge code (2 * fractions) with hSmall | hLarge
  · exact ⟨0, code, by omega, hSmall, .inl rfl⟩
  · have hSplit := Nat.div_add_mod code fractions
    have hRest := Nat.mod_lt code hPos
    have hQuotient : 2 ≤ code / fractions := (Nat.le_div_iff_mul_le hPos).mpr hLarge
    refine ⟨code / fractions - 1, fractions + code % fractions, ?_, by omega, .inr (by omega)⟩
    have hMul :
        (code / fractions - 1) * fractions + fractions = fractions * (code / fractions) := by
      rw [← Nat.succ_mul, Nat.mul_comm]
      congr 1
      omega
    omega

/-- The shift of a quotient leaves 53 significant bits of it, or all of fewer. -/
theorem log2_shift {q shift : Nat} (hHigh : q < 2 * fractions * 2 ^ shift)
    (hLow : shift = 0 ∨ fractions * 2 ^ shift ≤ q) : Nat.log2 q - 52 = shift := by
  rw [fractions_eq, ← Nat.pow_succ', ← Nat.pow_add] at hHigh
  by_cases hq : q = 0
  · subst hq
    rcases hLow with hLow | hLow
    · simp [hLow]
    · simp [fractions_eq] at hLow
  · have hUpper := (Nat.log2_lt hq).mpr hHigh
    rcases hLow with hLow | hLow
    · omega
    · rw [fractions_eq, ← Nat.pow_add] at hLow
      have hLower := (Nat.le_log2 hq).mpr hLow
      omega

/-- What the shift of a quotient says about it. -/
theorem shift_spec (q : Nat) : q < 2 * fractions * 2 ^ (Nat.log2 q - 52) ∧
    (Nat.log2 q - 52 = 0 ∨ fractions * 2 ^ (Nat.log2 q - 52) ≤ q) := by
  rw [fractions_eq, ← Nat.pow_succ', ← Nat.pow_add, ← Nat.pow_add]
  constructor
  · exact Nat.lt_of_lt_of_le Nat.lt_log2_self (Nat.pow_le_pow_right (by decide) (by omega))
  · by_cases hq : q = 0
    · simp [hq]
    · rcases Nat.lt_or_ge (Nat.log2 q) 53 with hSmall | hLarge
      · exact .inl (by omega)
      · right
        rw [show 52 + (Nat.log2 q - 52) = Nat.log2 q by omega]
        exact Nat.log2_self_le hq

/-- The nearest code, once the shift of the quotient is known. -/
theorem nearestCode_eq {num den shift r : Nat} (hHigh : num / den < 2 * fractions * 2 ^ shift)
    (hLow : shift = 0 ∨ fractions * 2 ^ shift ≤ num / den)
    (hRound : roundDiv num (den * 2 ^ shift) = r) :
    nearestCode num den = min (shift * fractions + r) infinityCode := by
  simp only [nearestCode, log2_shift hHigh hLow, Nat.pow_eq, hRound]

/-- A significand is rounded to one of 53 bits, or up to 2^53. -/
theorem roundDiv_shift_le {num den shift : Nat} (hHigh : num / den < 2 * fractions * 2 ^ shift) :
    roundDiv num (den * 2 ^ shift) ≤ 2 * fractions := by
  have hQuotient : num / den / 2 ^ shift < 2 * fractions :=
    (Nat.div_lt_iff_lt_mul (Nat.two_pow_pos shift)).mpr hHigh
  have hRound := roundDiv_le num (den * 2 ^ shift)
  rw [← Nat.div_div_eq_div_mul] at hRound
  omega

theorem le_roundDiv_shift {num den shift : Nat} (hLow : fractions * 2 ^ shift ≤ num / den) :
    fractions ≤ roundDiv num (den * 2 ^ shift) := by
  have hQuotient : fractions ≤ num / den / 2 ^ shift :=
    (Nat.le_div_iff_mul_le (Nat.two_pow_pos shift)).mpr hLow
  have hRound := le_roundDiv num (den * 2 ^ shift)
  rw [← Nat.div_div_eq_div_mul] at hRound
  omega

/-- A greater quotient has no smaller code. -/
theorem nearestCode_mono {a b c d : Nat} (hb : 0 < b) (hd : 0 < d) (h : a * d ≤ c * b) :
    nearestCode a b ≤ nearestCode c d := by
  have hQuotient := div_le_div_of_mul_le hb hd h
  obtain ⟨hHighA, hLowA⟩ := shift_spec (a / b)
  obtain ⟨hHighC, hLowC⟩ := shift_spec (c / d)
  have hShift : Nat.log2 (a / b) - 52 ≤ Nat.log2 (c / d) - 52 := by
    rcases hLowA with hZero | hLow
    · omega
    · by_contra hLess
      have hPow : 2 * 2 ^ (Nat.log2 (c / d) - 52) ≤ 2 ^ (Nat.log2 (a / b) - 52) := by
        rw [← Nat.pow_succ']
        exact Nat.pow_le_pow_right (by decide) (by omega)
      have hMul := Nat.mul_le_mul_left fractions hPow
      rw [← Nat.mul_assoc, Nat.mul_comm fractions 2] at hMul
      omega
  rw [nearestCode_eq hHighA hLowA rfl, nearestCode_eq hHighC hLowC rfl]
  generalize Nat.log2 (a / b) - 52 = s at *
  generalize Nat.log2 (c / d) - 52 = t at *
  apply min_le_min_right
  rcases Nat.lt_or_ge s t with hLess | hGe
  · -- The codes of a smaller shift end where those of the next begin.
    have hTop := roundDiv_shift_le hHighA
    have hBottom := le_roundDiv_shift (hLowC.resolve_left (by omega))
    have hMul : (s + 1) * fractions ≤ t * fractions := Nat.mul_le_mul_right _ hLess
    rw [Nat.add_mul] at hMul
    omega
  · have hEq : s = t := by omega
    subst hEq
    have hPow := Nat.two_pow_pos s
    apply Nat.add_le_add_left
    apply roundDiv_mono (Nat.mul_pos hb hPow) (Nat.mul_pos hd hPow)
    calc a * (d * 2 ^ s) = a * d * 2 ^ s := by ring
      _ ≤ c * b * 2 ^ s := Nat.mul_le_mul_right _ h
      _ = c * (b * 2 ^ s) := by ring

/-- Only the quotient matters, not the numerator and the denominator that give it. -/
theorem nearestCode_congr {a b c d : Nat} (hb : 0 < b) (hd : 0 < d) (h : a * d = c * b) :
    nearestCode a b = nearestCode c d :=
  Nat.le_antisymm (nearestCode_mono hb hd h.le) (nearestCode_mono hd hb h.ge)

/-- A count of units closer to a magnitude than half the spacing above it and below it. -/
theorem nearestCode_of_near {num den shift r : Nat} (hDen : 0 < den)
    (hHigh : num / den < 2 * fractions * 2 ^ shift)
    (hLow : shift = 0 ∨ fractions * 2 ^ shift ≤ num / den)
    (hAbove : 2 * num < (2 * r + 1) * 2 ^ shift * den)
    (hBelow : 2 * r * 2 ^ shift * den < 2 * num + 2 ^ shift * den) :
    nearestCode num den = min (shift * fractions + r) infinityCode := by
  apply nearestCode_eq hHigh hLow
  have hPow := Nat.two_pow_pos shift
  apply roundDiv_eq (Nat.mul_pos hDen hPow)
  · calc 2 * num < (2 * r + 1) * 2 ^ shift * den := hAbove
      _ = (2 * r + 1) * (den * 2 ^ shift) := by ring
  · calc 2 * r * (den * 2 ^ shift) = 2 * r * 2 ^ shift * den := by ring
      _ < 2 * num + 2 ^ shift * den := hBelow
      _ = 2 * num + den * 2 ^ shift := by ring

/-- A magnitude has its own code. -/
theorem nearestCode_units {code den : Nat} (hDen : 0 < den) (hCode : code ≤ infinityCode) :
    nearestCode (units code * den) den = code := by
  obtain ⟨shift, r, rfl, hHigh, hLow⟩ := exists_shifted code
  have hPow := Nat.two_pow_pos shift
  have hQuotient : units (shift * fractions + r) * den / den = r * 2 ^ shift := by
    rw [Nat.mul_div_cancel _ hDen, units_shifted hHigh.le hLow]
  rw [nearestCode_of_near hDen, Nat.min_eq_left hCode]
  · rw [hQuotient]
    exact Nat.mul_lt_mul_of_pos_right hHigh hPow
  · rw [hQuotient]
    exact hLow.imp_right (Nat.mul_le_mul_right _)
  · rw [units_shifted hHigh.le hLow]
    nlinarith [Nat.mul_pos hPow hDen]
  · rw [units_shifted hHigh.le hLow]
    nlinarith [Nat.mul_pos hPow hDen]

end Binary64

end LedgerSigning
