import LedgerSigning.Number.Shortest
import LedgerSigning.Proofs.Number.Value

/-! The shortest decimal of a magnitude reads back to it and has at most seventeen digits.
The decimal of a whole number is whole. -/
namespace LedgerSigning

namespace Decimal

open Binary64

/-- The rational number a decimal stands for. -/
def value (d : Decimal) : ℚ := d.significand * 10 ^ d.exponent

theorem nearestCode_eq_codeNear (d : Decimal) : d.nearestCode = codeNear d.value :=
  ofDecimal_code false d.significand d.exponent

theorem ten_zpow_pos (e : Int) : (0 : ℚ) < 10 ^ e := zpow_pos (by norm_num) e

theorem scaled_spec (count : Nat) (exponent : Int) : 0 < (scaled count exponent).2 ∧
    ((scaled count exponent).1 / (scaled count exponent).2 : ℚ) =
      count / unitsPerOne / 10 ^ exponent := by
  have hPow (e : Nat) : 0 < 10 ^ e := Nat.pow_pos (by decide)
  cases exponent with
  | ofNat e =>
      refine ⟨Nat.mul_pos unitsPerOne_pos (hPow e), ?_⟩
      simp only [scaled, Nat.pow_eq, Int.ofNat_eq_natCast, zpow_natCast]
      push_cast
      rw [div_div]
  | negSucc e =>
      refine ⟨by simpa only [scaled] using unitsPerOne_pos, ?_⟩
      simp only [scaled, Nat.pow_eq, zpow_negSucc]
      push_cast
      rw [div_inv_eq_mul, div_mul_eq_mul_div]

/-- A magnitude lies between two neighbours on each decimal grid. -/
theorem floor_scaled (code : Nat) (exponent : Int) :
    let below := (scaled (units code) exponent).1 / (scaled (units code) exponent).2
    (below : ℚ) * 10 ^ exponent ≤ Binary64.value code ∧
      Binary64.value code < (below + 1 : Nat) * 10 ^ exponent := by
  obtain ⟨hDen, hValue⟩ := scaled_spec (units code) exponent
  have hTen := ten_zpow_pos exponent
  have hDenQ : (0 : ℚ) < (scaled (units code) exponent).2 := Nat.cast_pos.mpr hDen
  rw [← Binary64.value, eq_div_iff hTen.ne'] at hValue
  rw [← hValue]
  constructor
  · apply mul_le_mul_of_nonneg_right _ hTen.le
    rw [le_div_iff₀ hDenQ]
    exact_mod_cast Nat.div_mul_le_self _ _
  · apply mul_lt_mul_of_pos_right _ hTen
    rw [div_lt_iff₀ hDenQ]
    exact_mod_cast Nat.lt_mul_of_div_lt (Nat.lt_succ_self _) hDen

/-- A decimal found on a grid reads back, and is one of the two neighbours there. -/
theorem onGrid?_spec {ties : TieRule} {code : Nat} {exponent : Int} {d : Decimal}
    (h : onGrid? ties code exponent = some d) : d.nearestCode = code ∧ d.exponent = exponent ∧
      d.significand ≤
        (scaled (units code) exponent).1 / (scaled (units code) exponent).2 + 1 := by
  simp only [onGrid?] at h
  generalize (scaled (units code) exponent).1 = num at *
  generalize (scaled (units code) exponent).2 = den at *
  split at h
  next hBelow hAbove =>
    have hCases : d = ⟨num / den, exponent⟩ ∨ d = ⟨num / den + 1, exponent⟩ := by
      cases ties <;> simp only at h <;> split_ifs at h <;>
        first
        | exact .inl (Option.some.inj h).symm
        | exact .inr (Option.some.inj h).symm
    rcases hCases with rfl | rfl
    · exact ⟨by simpa using hBelow, rfl, Nat.le_succ _⟩
    · exact ⟨by simpa using hAbove, rfl, Nat.le_refl _⟩
  next hBelow _ =>
    obtain rfl := Option.some.inj h
    exact ⟨by simpa using hBelow, rfl, Nat.le_succ _⟩
  next _ hAbove =>
    obtain rfl := Option.some.inj h
    exact ⟨by simpa using hAbove, rfl, Nat.le_refl _⟩
  next => contradiction

/-- A grid on which a neighbour reads back is not passed over. -/
theorem onGrid?_isSome {ties : TieRule} {code : Nat} {exponent : Int} {n : Nat}
    (hn : n = (scaled (units code) exponent).1 / (scaled (units code) exponent).2 ∨
      n = (scaled (units code) exponent).1 / (scaled (units code) exponent).2 + 1)
    (hRead : codeNear (n * 10 ^ exponent) = code) : (onGrid? ties code exponent).isSome := by
  have hNearest : (⟨n, exponent⟩ : Decimal).nearestCode = code := by
    rw [nearestCode_eq_codeNear]
    exact hRead
  simp only [onGrid?]
  generalize (scaled (units code) exponent).1 = num at *
  generalize (scaled (units code) exponent).2 = den at *
  split
  next => split_ifs <;> first | rfl | (split <;> rfl)
  next => rfl
  next => rfl
  next hBelow hAbove => rcases hn with rfl | rfl <;> simp_all

/-- The number of places puts a magnitude between two powers of ten. -/
theorem placesOf_spec {code : Nat} (hPos : 0 < units code) :
    10 ^ (placesOf (units code) - 1) ≤ Binary64.value code ∧
      Binary64.value code < 10 ^ placesOf (units code) := by
  have hU := unitsPerOne_pos
  have hScale : unitsPerOne ≤ 10 ^ 400 := by decide +kernel
  have hLarge : units code * 10 ^ 400 / unitsPerOne ≠ 0 := by
    have hMul : 1 * unitsPerOne ≤ units code * 10 ^ 400 := Nat.mul_le_mul hPos hScale
    have hDiv := (Nat.le_div_iff_mul_le hU).mpr hMul
    omega
  obtain ⟨hLower, hUpper⟩ := toDigits_bounds hLarge
  have hLength : 0 < (Nat.toDigits 10 (units code * 10 ^ 400 / unitsPerOne)).length :=
    Nat.length_toDigits_pos
  have hFloor : ((units code * 10 ^ 400 / unitsPerOne : Nat) : ℚ) ≤
      Binary64.value code * 10 ^ (400 : ℤ) ∧ Binary64.value code * 10 ^ (400 : ℤ) <
        (units code * 10 ^ 400 / unitsPerOne : Nat) + 1 := by
    have hValue : Binary64.value code * 10 ^ (400 : ℤ) =
        ((units code * 10 ^ 400 : Nat) : ℚ) / unitsPerOne := by
      rw [Binary64.value, Nat.cast_mul, Nat.cast_pow, Nat.cast_ofNat, div_mul_eq_mul_div,
        zpow_ofNat]
    rw [hValue, le_div_iff₀ unitsPerOne_cast_pos, div_lt_iff₀ unitsPerOne_cast_pos]
    constructor
    · exact_mod_cast Nat.div_mul_le_self _ _
    · exact_mod_cast Nat.lt_mul_of_div_lt (Nat.lt_succ_self _) hU
  have hPlaces : placesOf (units code) =
      ((Nat.toDigits 10 (units code * 10 ^ 400 / unitsPerOne)).length : Int) - 400 := rfl
  generalize (Nat.toDigits 10 (units code * 10 ^ 400 / unitsPerOne)).length = length at *
  generalize units code * 10 ^ 400 / unitsPerOne = n at *
  have hLowerQ : (10 : ℚ) ^ (length - 1) ≤ n := by exact_mod_cast hLower
  have hUpperQ : (n : ℚ) + 1 ≤ 10 ^ length := by exact_mod_cast hUpper
  have hTen := ten_zpow_pos 400
  rw [hPlaces]
  constructor
  · rw [show (length : Int) - 400 - 1 = (length - 1 : Nat) - 400 by omega,
      zpow_sub₀ (by norm_num), div_le_iff₀ hTen, zpow_natCast]
    exact hLowerQ.trans hFloor.1
  · rw [zpow_sub₀ (by norm_num), lt_div_iff₀ hTen, zpow_natCast]
    exact hFloor.2.trans_le hUpperQ

/-- A search through a range stops at its first hit. -/
theorem findSome?_range {α : Type} {f : Nat → Option α} {count k : Nat} (hk : k < count)
    (hHit : (f k).isSome) :
    ∃ i a, i ≤ k ∧ f i = some a ∧ (List.range count).findSome? f = some a := by
  induction count with
  | zero => omega
  | succ count ih =>
      rw [List.range_succ, List.findSome?_append]
      rcases Nat.lt_or_ge k count with hLess | hGe
      · obtain ⟨i, a, hi, hFound, hSearch⟩ := ih hLess
        exact ⟨i, a, hi, hFound, by rw [hSearch]; rfl⟩
      · have hEq : k = count := by omega
        subst hEq
        cases hSearch : (List.range k).findSome? f with
        | none =>
            obtain ⟨a, ha⟩ := Option.isSome_iff_exists.mp hHit
            exact ⟨k, a, Nat.le_refl _, ha, by simp [ha]⟩
        | some a =>
            obtain ⟨i, hi, hFound⟩ := List.exists_of_findSome?_eq_some hSearch
            exact ⟨i, a, (List.mem_range.mp hi).le, hFound, rfl⟩

/-- Seventeen digits suffice: the nearer neighbour on that grid is close enough. -/
theorem onGrid?_seventeen (ties : TieRule) {code : Nat} (hCode : code ≤ infinityCode)
    (hPos : 0 < code) : (onGrid? ties code (placesOf (units code) - (16 + 1 : Nat))).isSome := by
  obtain ⟨hLower, -⟩ := placesOf_spec (units_pos hCode hPos)
  generalize hExponent : placesOf (units code) - (16 + 1 : Nat) = exponent
  obtain ⟨hBelow, hAbove⟩ := floor_scaled code exponent
  have hTen := ten_zpow_pos exponent
  have hStep : 10 ^ 16 * 10 ^ exponent ≤ Binary64.value code := by
    refine le_trans (le_of_eq ?_) hLower
    rw [← zpow_natCast, ← zpow_add₀ (by norm_num), ← hExponent]
    congr 1
    omega
  generalize hn : (scaled (units code) exponent).1 / (scaled (units code) exponent).2 = n at *
  push_cast at hBelow hAbove
  rcases le_total (2 * (Binary64.value code - n * 10 ^ exponent)) (10 ^ exponent) with hNear | hFar
  · apply onGrid?_isSome (n := n) (.inl hn.symm)
    apply codeNear_of_close hCode (by positivity)
    rw [abs_of_nonpos (by linarith)]
    nlinarith
  · apply onGrid?_isSome (n := n + 1) (.inr (by rw [hn]))
    apply codeNear_of_close hCode (by positivity)
    push_cast
    rw [abs_of_nonneg (by linarith)]
    nlinarith

/-- The shortest decimal is the first that is found, on one of seventeen grids. -/
theorem shortest_found {ties : TieRule} {code k : Nat} (hk : k < 17)
    (hHit : (onGrid? ties code (placesOf (units code) - (k + 1 : Nat))).isSome) :
    ∃ i ≤ k, onGrid? ties code (placesOf (units code) - (i + 1 : Nat)) =
      some (shortest ties code) := by
  obtain ⟨i, d, hi, hFound, hSearch⟩ := findSome?_range (f := fun i =>
    onGrid? ties code (placesOf (units code) - (i + 1 : Nat))) hk hHit
  refine ⟨i, hi, ?_⟩
  rw [hFound, shortest, hSearch]
  rfl

/-- A decimal on the grid of `i + 1` digits has at most so many. -/
theorem onGrid?_significand_le {ties : TieRule} {code i : Nat} {d : Decimal}
    (hPos : 0 < units code)
    (h : onGrid? ties code (placesOf (units code) - (i + 1 : Nat)) = some d) :
    d.significand ≤ 10 ^ (i + 1) := by
  obtain ⟨-, hExponent, hLe⟩ := onGrid?_spec h
  obtain ⟨-, hUpper⟩ := placesOf_spec hPos
  obtain ⟨hBelow, -⟩ := floor_scaled code (placesOf (units code) - (i + 1 : Nat))
  generalize (scaled (units code) _).1 / (scaled (units code) _).2 = n at *
  have hTen := ten_zpow_pos (placesOf (units code) - (i + 1 : Nat))
  have hFloor : n < 10 ^ (i + 1) := by
    have hMul : (n : ℚ) * 10 ^ (placesOf (units code) - (i + 1 : Nat)) <
        10 ^ (i + 1) * 10 ^ (placesOf (units code) - (i + 1 : Nat)) := by
      rw [← zpow_natCast, ← zpow_add₀ (by norm_num), add_sub_cancel]
      exact hBelow.trans_lt hUpper
    exact_mod_cast lt_of_mul_lt_mul_right hMul hTen.le
  omega

/-- The shortest decimal reads back and has at most seventeen digits. -/
theorem shortest_spec (ties : TieRule) {code : Nat} (hCode : code ≤ infinityCode)
    (hPos : 0 < code) : codeNear (shortest ties code).value = code ∧
      (shortest ties code).significand ≤ 10 ^ 17 := by
  obtain ⟨i, hi, hFound⟩ := shortest_found (by decide) (onGrid?_seventeen ties hCode hPos)
  refine ⟨?_, ?_⟩
  · rw [← nearestCode_eq_codeNear]
    exact (onGrid?_spec hFound).1
  · exact (onGrid?_significand_le (units_pos hCode hPos) hFound).trans
      (Nat.pow_le_pow_right (by decide) (by omega))

theorem shortest_significand_pos (ties : TieRule) {code : Nat} (hCode : code ≤ infinityCode)
    (hPos : 0 < code) : 0 < (shortest ties code).significand := by
  by_contra hZero
  have hSignificand : (shortest ties code).significand = 0 := by omega
  have hRead := (shortest_spec ties hCode hPos).1
  rw [value, hSignificand, Nat.cast_zero, zero_mul, codeNear_zero] at hRead
  omega

/-- The shortest decimal of a whole number is whole, because the number itself is found on
the grid of its units if on no coarser one. -/
theorem shortest_exponent_nonneg (ties : TieRule) {code m : Nat} (hCode : code ≤ infinityCode)
    (hPos : 0 < code) (hWhole : Binary64.value code = m) :
    0 ≤ (shortest ties code).exponent := by
  have hUnits := units_pos hCode hPos
  obtain ⟨hLower, hUpper⟩ := placesOf_spec hUnits
  have hPlaces : 1 ≤ placesOf (units code) := by
    by_contra hLess
    have hm : (m : ℚ) < 1 := by
      rw [← hWhole]
      refine hUpper.trans_le ?_
      rw [← zpow_zero (10 : ℚ)]
      exact zpow_le_zpow_right₀ (by norm_num) (by omega)
    have hZero : m = 0 := by
      have hCast : m < 1 := by exact_mod_cast hm
      omega
    have hValue : Binary64.value code * unitsPerOne = 0 := by
      rw [hWhole, hZero, Nat.cast_zero, zero_mul]
    rw [value_mul_units] at hValue
    have hNone : units code = 0 := by exact_mod_cast hValue
    omega
  rcases lt_or_ge (placesOf (units code)) 17 with hShort | hLong
  · obtain ⟨k, hk⟩ : ∃ k : Nat, placesOf (units code) = (k + 1 : Nat) :=
      ⟨(placesOf (units code) - 1).toNat, by omega⟩
    have hUnit : placesOf (units code) - (k + 1 : Nat) = 0 := by omega
    have hHit : (onGrid? ties code (placesOf (units code) - (k + 1 : Nat))).isSome := by
      obtain ⟨hBelow, hAbove⟩ := floor_scaled code (placesOf (units code) - (k + 1 : Nat))
      rw [hUnit] at hBelow hAbove ⊢
      simp only [zpow_zero, mul_one, hWhole, Nat.cast_le, Nat.cast_lt] at hBelow hAbove
      apply onGrid?_isSome (n := m) (.inl (by omega))
      rw [zpow_zero, mul_one, ← hWhole, codeNear_value hCode]
    obtain ⟨i, hi, hFound⟩ := shortest_found (by omega) hHit
    rw [(onGrid?_spec hFound).2.1]
    omega
  · obtain ⟨i, hi, hFound⟩ := shortest_found (by decide) (onGrid?_seventeen ties hCode hPos)
    rw [(onGrid?_spec hFound).2.1]
    omega

end Decimal

end LedgerSigning
