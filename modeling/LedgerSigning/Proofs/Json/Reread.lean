import LedgerSigning.Proofs.Json.Canonical

/-! Canonical texts read again. The document that is read from a canonical text is the same, but
a whole float may come back as an integer, and an integer beyond the safe ones has no canonical
text. So the text is a fixed point unless the document holds such a float. -/
namespace LedgerSigning

namespace Binary64

/-- From 2^53 on every magnitude is whole. -/
theorem value_whole {code : Nat} (hLarge : 2 ^ 53 ≤ value code) : ∃ m : Nat, value code = m := by
  obtain ⟨shift, r, rfl, hHigh, hLow⟩ := exists_shifted code
  have hUnits : value (shift * fractions + r) * 2 ^ 1074 = r * 2 ^ shift := by
    have hScaled := value_mul_units (shift * fractions + r)
    rw [unitsPerOne_eq, units_shifted hHigh.le hLow] at hScaled
    exact_mod_cast hScaled
  have hPow : (0 : ℚ) < 2 ^ 1074 := by positivity
  have hShift : 1074 ≤ shift := by
    by_contra hLess
    have hMono : (2 : ℚ) ^ shift ≤ 2 ^ 1074 := pow_le_pow_right₀ (by norm_num) (by omega)
    have hFew : (r : ℚ) < 2 ^ 53 := by
      rw [fractions_eq] at hHigh
      exact_mod_cast hHigh
    have hProduct : (r : ℚ) * 2 ^ shift ≤ r * 2 ^ 1074 :=
      mul_le_mul_of_nonneg_left hMono (Nat.cast_nonneg r)
    have hScaled := mul_le_mul_of_nonneg_right hLarge hPow.le
    rw [hUnits] at hScaled
    exact absurd (hScaled.trans hProduct) (not_le.mpr (mul_lt_mul_of_pos_right hFew hPow))
  obtain ⟨more, rfl⟩ : ∃ more, shift = 1074 + more := ⟨shift - 1074, by omega⟩
  refine ⟨r * 2 ^ more, ?_⟩
  apply mul_right_cancel₀ hPow.ne'
  rw [hUnits, pow_add]
  push_cast
  ring

end Binary64

namespace Decimal

open Binary64

/-- A bound that is a magnitude, but not its own shortest decimal, separates shortest decimals
as it separates the magnitudes. -/
theorem shortest_lt_iff {ties : TieRule} {bound code : Nat}
    (hExact : Binary64.value (codeNear bound) = bound)
    (hLonger : bound < (shortest ties (codeNear bound)).value)
    (hCode : code ≤ infinityCode) (hPos : 0 < code) :
    ((shortest ties code).value < bound ↔ Binary64.value code < bound) ∧
      ((shortest ties code).value ≤ bound ↔ Binary64.value code < bound) := by
  have hNear := (shortest_spec ties hCode hPos).1
  have hNonneg : 0 ≤ (shortest ties code).value := by
    rw [value]
    exact mul_nonneg (Nat.cast_nonneg _) (ten_zpow_pos _).le
  have hDown (hLe : (shortest ties code).value ≤ bound) : Binary64.value code < bound := by
    have hMono := codeNear_mono hNonneg hLe
    rw [hNear] at hMono
    rcases Nat.lt_or_eq_of_le hMono with hLess | hEq
    · rw [← hExact]
      exact value_lt_value (codeNear_le _) hLess
    · rw [← hEq] at hLonger
      exact absurd hLonger (not_lt.mpr hLe)
  have hUp (hLess : Binary64.value code < bound) : (shortest ties code).value < bound := by
    by_contra hGe
    have hMono := codeNear_mono (Nat.cast_nonneg bound) (not_lt.mp hGe)
    rw [hNear] at hMono
    have hValue := value_le_value hCode hMono
    rw [hExact] at hValue
    exact absurd hLess (not_lt.mpr hValue)
  exact ⟨⟨fun hLess => hDown hLess.le, hUp⟩, hDown, fun hLess => (hUp hLess).le⟩

theorem value_pos_of_large {code : Nat} (hLarge : 2 ^ 53 ≤ Binary64.value code) : 0 < code := by
  by_contra hZero
  have hCode : code = 0 := by omega
  rw [hCode, Binary64.value_zero] at hLarge
  norm_num at hLarge

/-- The shortest decimal of a magnitude from 2^53 on is a natural number that is as large. -/
theorem shortest_natural (ties : TieRule) {code : Nat} (hCode : code ≤ infinityCode)
    (hLarge : 2 ^ 53 ≤ Binary64.value code) : 0 ≤ (shortest ties code).exponent ∧
      ∃ n : Nat, (shortest ties code).value = n ∧ 2 ^ 53 ≤ n := by
  have hPos := value_pos_of_large hLarge
  obtain ⟨m, hm⟩ := value_whole hLarge
  have hExponent := shortest_exponent_nonneg ties hCode hPos hm
  have hNatural : (shortest ties code).value =
      ((shortest ties code).significand * 10 ^ (shortest ties code).exponent.toNat : Nat) := by
    rw [value]
    push_cast
    rw [← zpow_natCast, Int.toNat_of_nonneg hExponent]
  refine ⟨hExponent, _, hNatural, ?_⟩
  by_contra hLess
  have hNear := (shortest_spec ties hCode hPos).1
  have hValue := value_codeNear_natCast (not_le.mp hLess).le
  rw [← hNatural, hNear] at hValue
  rw [hValue, hNatural] at hLarge
  exact hLess (by exact_mod_cast hLarge)

theorem shortest_two_pow_63 : ((2 ^ 63 : Nat) : ℚ) <
    (shortest Layout.canonical.ties (codeNear (2 ^ 63 : Nat))).value := by
  have hShortest : shortest Layout.canonical.ties ((63 + 1023) * fractions) =
      ⟨9223372036854776, 3⟩ := by decide +kernel
  rw [codeNear_two_pow (by decide), hShortest, value]
  norm_num

theorem shortest_two_pow_64 : ((2 ^ 64 : Nat) : ℚ) <
    (shortest Layout.canonical.ties (codeNear (2 ^ 64 : Nat))).value := by
  have hShortest : shortest Layout.canonical.ties ((64 + 1023) * fractions) =
      ⟨18446744073709552, 3⟩ := by decide +kernel
  rw [codeNear_two_pow (by decide), hShortest, value]
  norm_num

end Decimal

namespace Number

/-- A whole float that is written without point and exponent and fits 64 bits, but beyond the
safe integers. -/
def Unstable : Number → Prop
  | .integer _ _ => False
  | .float x _ => 2 ^ 53 ≤ Binary64.value x.code ∧
    Binary64.value x.code < if x.negative then 2 ^ 63 else 2 ^ 64

/-- Below 2^53 only safe integers denote a magnitude. -/
theorem natAbs_le_of_value_lt {code : Nat} {n : Int} (hCode : code ≤ Binary64.infinityCode)
    (hDouble : (Binary64.ofInt n).code = code) (hSmall : Binary64.value code < 2 ^ 53) :
    n.natAbs ≤ Json.maxSafe := by
  by_contra hLarge
  have hMin : 2 ^ 53 ≤ n.natAbs := by
    simp only [Json.maxSafe] at hLarge
    omega
  have hCast : ((2 ^ 53 : Nat) : ℚ) ≤ n.natAbs := by exact_mod_cast hMin
  have hMono := Binary64.codeNear_mono (Nat.cast_nonneg _) hCast
  rw [← Binary64.ofInt_code, hDouble] at hMono
  have hValue := Binary64.value_le_value hCode hMono
  rw [Binary64.value_codeNear_natCast (Nat.le_refl _)] at hValue
  exact absurd hSmall (not_lt.mpr (by exact_mod_cast hValue))

/-- An integer token beyond the safe integers is read as a safe number only if it does not fit
64 bits. -/
theorem ofInteger?_safe_iff {negative : Bool} {magnitude : Nat} {n : Number}
    (hLarge : 2 ^ 53 ≤ magnitude) (h : ofInteger? negative magnitude = some n) :
    n.Safe ↔ ¬if negative then magnitude ≤ 2 ^ 63 else magnitude < 2 ^ 64 := by
  have hMinus : ¬(negative = true ∧ magnitude = 0) := by omega
  unfold ofInteger? at h
  simp only [if_neg hMinus] at h
  generalize hInt : (if negative then -(magnitude : Int) else magnitude) = k at h
  have hRange : (-0x8000000000000000 ≤ k ∧ k < 0x10000000000000000) ↔
      if negative then magnitude ≤ 2 ^ 63 else magnitude < 2 ^ 64 := by
    subst hInt
    cases negative with
    | true =>
        simp only [if_true]
        omega
    | false =>
        simp only [Bool.false_eq_true, if_false]
        omega
  by_cases range : -0x8000000000000000 ≤ k ∧ k < 0x10000000000000000
  · rw [ofInt?_eq range] at h
    obtain rfl : integer k range = n := Option.some.inj h
    have hUnsafe : ¬k.natAbs ≤ Json.maxSafe := by
      simp only [Json.maxSafe]
      subst hInt
      split_ifs <;> omega
    exact ⟨fun hSafe => absurd hSafe hUnsafe, fun hOut => absurd (hRange.mp range) hOut⟩
  · rw [ofInt?, dif_neg range] at h
    obtain ⟨hFinite, rfl⟩ : ∃ hFinite, float _ hFinite = n := by
      change ofBinary64? _ = some n at h
      unfold ofBinary64? at h
      split_ifs at h with hFinite
      exact ⟨hFinite, Option.some.inj h⟩
    exact ⟨fun _ hIn => range (hRange.mpr hIn), fun _ => trivial⟩

/-- An integer that is read from the text of a float rounds to it. -/
theorem ofInt_code_of_reread {x : Binary64} {finite} {k : Int} {range}
    (h : Json.Reread (float x finite) (integer k range)) : (Binary64.ofInt k).code = x.code := by
  have hDouble := congrArg Binary64.code h.double
  rw [double, double, Binary64.unsignedZero_code] at hDouble
  exact hDouble.symm

/-- No integer of 64 bits is near a number of more than 21 digits. -/
theorem ofInt_code_lt {k : Int} (hRange : k.natAbs ≤ 2 ^ 64) {n : Nat} (hLong : 10 ^ 21 ≤ n) :
    (Binary64.ofInt k).code < Binary64.codeNear n := by
  have hFew : ((k.natAbs : Nat) : ℚ) ≤ (2 ^ 64 : Nat) := by exact_mod_cast hRange
  have hMany : ((2 ^ 69 : Nat) : ℚ) ≤ n := by exact_mod_cast (by norm_num : 2 ^ 69 ≤ 10 ^ 21).trans hLong
  have hApart : Binary64.codeNear (2 ^ 64 : Nat) < Binary64.codeNear (2 ^ 69 : Nat) := by
    rw [Binary64.codeNear_two_pow (by decide), Binary64.codeNear_two_pow (by decide)]
    decide
  rw [Binary64.ofInt_code]
  calc Binary64.codeNear k.natAbs ≤ Binary64.codeNear (2 ^ 64 : Nat) :=
        Binary64.codeNear_mono (Nat.cast_nonneg _) hFew
    _ < Binary64.codeNear (2 ^ 69 : Nat) := hApart
    _ ≤ Binary64.codeNear n := Binary64.codeNear_mono (Nat.cast_nonneg _) hMany

/-- Whether a float from 2^53 on is unstable shows in its shortest decimal. -/
theorem unstable_float_iff {x : Binary64} (finite : x.isFinite = true)
    (hLarge : 2 ^ 53 ≤ Binary64.value x.code) {n : Nat}
    (hn : (Decimal.shortest Layout.canonical.ties x.code).value = n) :
    (float x finite).Unstable ↔ if x.negative then n ≤ 2 ^ 63 else n < 2 ^ 64 := by
  have hCode := (Binary64.code_lt_of_isFinite finite).le
  have hPos := Decimal.value_pos_of_large hLarge
  obtain ⟨-, hBelow63⟩ := Decimal.shortest_lt_iff
    (Binary64.value_codeNear_two_pow (by decide)) Decimal.shortest_two_pow_63 hCode hPos
  obtain ⟨hBelow64, -⟩ := Decimal.shortest_lt_iff
    (Binary64.value_codeNear_two_pow (by decide)) Decimal.shortest_two_pow_64 hCode hPos
  rw [hn, Nat.cast_le] at hBelow63
  rw [hn, Nat.cast_lt] at hBelow64
  refine (and_iff_right hLarge).trans ?_
  cases x.negative with
  | true => exact_mod_cast hBelow63.symm
  | false => exact_mod_cast hBelow64.symm

/-- What is read from the text of a safe number is safe unless the number is unstable. -/
theorem reread_safe_iff {m n : Number} (hm : m.Safe) (h : Json.Reread m n) :
    n.Safe ↔ ¬m.Unstable := by
  cases m with
  | integer m range =>
      rw [Json.Reread, token_integer] at h
      cases h
      simp only [Unstable, not_false_eq_true, iff_true]
      exact hm
  | float x finite =>
      have hCode := (Binary64.code_lt_of_isFinite finite).le
      rcases lt_or_ge (Binary64.value x.code) (2 ^ 53) with hSmall | hLarge
      · have hStable : ¬(float x finite).Unstable := fun hUnstable =>
          absurd hUnstable.1 (not_le.mpr hSmall)
        refine iff_of_true ?_ hStable
        cases n with
        | integer k range => exact natAbs_le_of_value_lt hCode (ofInt_code_of_reread h) hSmall
        | float y _ => trivial
      · have hPos := Decimal.value_pos_of_large hLarge
        obtain ⟨hExponent, N, hN, hMin⟩ :=
          Decimal.shortest_natural Layout.canonical.ties hCode hLarge
        have hUnstable := unstable_float_iff finite hLarge hN
        rcases Nat.lt_or_ge N (10 ^ 21) with hShort | hLong
        · have hToken := (Layout.magnitude_whole hCode hPos hExponent hN hShort).2 x.negative
          rw [Json.Reread, token, if_neg hPos.ne', hToken] at h
          rw [hUnstable]
          exact ofInteger?_safe_iff hMin h
        · have hStable : ¬(float x finite).Unstable := by
            rw [hUnstable]
            split_ifs <;> omega
          refine iff_of_true ?_ hStable
          cases n with
          | integer k range =>
              have hNear := (Decimal.shortest_spec Layout.canonical.ties hCode hPos).1
              have hApart := ofInt_code_lt (by omega : k.natAbs ≤ 2 ^ 64) hLong
              rw [ofInt_code_of_reread h, ← hN, hNear] at hApart
              exact absurd hApart (Nat.lt_irrefl _)
          | float y _ => trivial

end Number

namespace Json

/-- Some number of the document is unstable. -/
def Unstable (doc : Json) : Prop := ∃ n, Part (.number n) doc ∧ n.Unstable

theorem safe_reread_iff {doc w : Json} (hSafe : doc.Safe) (hAlike : Alike Reread doc w) :
    w.Safe ↔ ¬doc.Unstable := by
  constructor
  · rintro hReread ⟨n, hPart, hUnstable⟩
    obtain ⟨m, hNumber, hFound⟩ := hAlike.exists_number hPart
    have hStable := Number.reread_safe_iff (hSafe _ hPart n rfl) hNumber
    exact hStable.mp (hReread _ hFound m rfl) hUnstable
  · rintro hStable _ hPart m rfl
    obtain ⟨n, hNumber, hFound⟩ := hAlike.flip.exists_number hPart
    rw [Number.reread_safe_iff (hSafe _ hFound n rfl) hNumber]
    exact fun hUnstable => hStable ⟨n, hFound, hUnstable⟩

/-- The document that is read from a canonical text has that text again if and only if no number
is unstable; if one is, it has none. -/
theorem reread_canonical {doc : Json} {s : List Char} (hDistinct : doc.Distinct)
    (hDepth : doc.depth ≤ Tree.maxLevels) (hText : doc.canonical = .ok s) :
    ∃ w, Json.ofText? (String.ofList s) = some w ∧ w.Distinct ∧ (w.Safe ↔ ¬doc.Unstable) ∧
      (w.canonical = .ok s ↔ ¬doc.Unstable) := by
  obtain ⟨tree, hTree, hSpells⟩ := ofText?_canonical hDistinct hText
  obtain ⟨w, hRead, hAlike⟩ := hSpells.toJson? hDepth
  have hwDistinct := (Tree.toJson?_wellFormed hRead).1
  have hSafe := safe_reread_iff (canonical_eq_ok_iff.mp hText).1 hAlike
  refine ⟨w, by simp [Json.ofText?, hTree, hRead], hwDistinct, hSafe, ?_⟩
  rw [← hSafe]
  constructor
  · intro hAgain
    exact (canonical_eq_ok_iff.mp hAgain).1
  · intro hwSafe
    have hOwn := canonical_eq_ok_iff.mpr ⟨hwSafe, rfl⟩
    have hSame : Same doc w := hAlike.imp fun _ _ hNumber => hNumber.double
    rw [(canonical_eq_iff hwDistinct hDistinct hOwn hText).mpr hSame.symm] at hOwn
    exact hOwn

end Json

end LedgerSigning
