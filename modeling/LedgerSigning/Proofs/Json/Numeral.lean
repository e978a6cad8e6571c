import LedgerSigning.Json.Reader
import LedgerSigning.Json.Record
import LedgerSigning.Json.Writer
import LedgerSigning.Proofs.Number.Shortest
import LedgerSigning.Proofs.Text.Numeral
import Mathlib.Data.List.DropRight
import Mathlib.Data.List.TakeWhile

/-! Number tokens. The text of a number is read back as a token of the same sign and value,
whatever follows it that cannot continue a number. -/
namespace LedgerSigning

namespace Reader

/-- What follows does not continue a number. -/
def Ends (rest : List Char) : Prop :=
  ∀ c ∈ rest.head?, c.isDigit = false ∧ c ≠ '.' ∧ c ≠ 'e' ∧ c ≠ 'E'

theorem ends_nil : Ends [] := by simp [Ends]

theorem ends_cons {c : Char} {rest : List Char} (hDigit : c.isDigit = false) (hPoint : c ≠ '.')
    (hLower : c ≠ 'e') (hUpper : c ≠ 'E') : Ends (c :: rest) := by
  simp [Ends, hDigit, hPoint, hLower, hUpper]

theorem digit_bounds {c : Char} (hDigit : c.isDigit = true) : 48 ≤ c.toNat ∧ c.toNat ≤ 57 := by
  simpa [Char.isDigit, UInt32.le_iff_toNat_le] using hDigit

/-- Digits are read up to what follows them, if that starts with no digit. -/
theorem digits_append {digits rest : List Char} (hDigits : ∀ c ∈ digits, c.isDigit = true)
    (hRest : ∀ c ∈ rest.head?, c.isDigit = false) :
    (digits ++ rest).takeWhile Char.isDigit = digits ∧
      (digits ++ rest).dropWhile Char.isDigit = rest := by
  rw [List.takeWhile_append_of_pos hDigits, List.dropWhile_append_of_pos hDigits]
  cases rest with
  | nil => simp
  | cons c rest => simp [hRest c (by simp)]

theorem row?_append {row rest : List Char} (hRow : IsRow row)
    (hRest : ∀ c ∈ rest.head?, c.isDigit = false) : row? (row ++ rest) = some (row, rest) := by
  obtain ⟨hTake, hDrop⟩ := digits_append hRow.digit hRest
  rw [row?, hTake, hDrop, if_neg (by simpa using hRow.nonempty)]

/-- Digits before the point: a zero alone, or a row that starts with no zero. -/
theorem whole?_append {row rest : List Char} (hRow : IsRow row)
    (hLead : row = ['0'] ∨ row.head? ≠ some '0')
    (hRest : ∀ c ∈ rest.head?, c.isDigit = false) : whole? (row ++ rest) = some (row, rest) := by
  rcases hLead with rfl | hLead
  · rfl
  · obtain ⟨c, digits, rfl⟩ := List.exists_cons_of_ne_nil hRow.nonempty
    rw [List.cons_append, whole?, ← List.cons_append, row?_append hRow hRest]
    intro tail hEq
    simp_all

theorem fraction?_none {rest : List Char} (hRest : ∀ c ∈ rest.head?, c ≠ '.') :
    fraction? rest = some (none, rest) := by
  unfold fraction?
  split
  · exact absurd rfl (hRest '.' (by simp))
  · rfl

theorem fraction?_point {row rest : List Char} (hRow : IsRow row)
    (hRest : ∀ c ∈ rest.head?, c.isDigit = false) :
    fraction? ('.' :: (row ++ rest)) = some (some row, rest) := by
  simp [fraction?, row?_append hRow hRest]

theorem exponent?_none {rest : List Char} (hRest : ∀ c ∈ rest.head?, c ≠ 'e' ∧ c ≠ 'E') :
    exponent? rest = some (none, rest) := by
  cases rest with
  | nil => rfl
  | cons c rest =>
      obtain ⟨hLower, hUpper⟩ := hRest c (by simp)
      simp [exponent?, hLower, hUpper]

/-- A signed power of ten after its mark. -/
theorem exponent?_mark (power : Int) {rest : List Char}
    (hRest : ∀ c ∈ rest.head?, c.isDigit = false) :
    exponent? ('e' :: (if power < 0 then '-' else '+') :: (Nat.toDigits 10 power.natAbs ++ rest)) =
      some (some power, rest) := by
  have hRow := row?_append (isRow_toDigits power.natAbs) hRest
  simp only [exponent?, true_or, if_true]
  split_ifs with hSign
  · rw [power?, hRow]
    simp only [Option.map_some, Nat.ofDigitChars_ten_toDigits, Option.some.injEq, Prod.mk.injEq,
      and_true]
    omega
  · rw [power?, hRow]
    simp only [Option.map_some, Nat.ofDigitChars_ten_toDigits, Option.some.injEq, Prod.mk.injEq,
      and_true]
    omega

theorem Ends.noDigit {rest : List Char} (h : Ends rest) :
    ∀ c ∈ rest.head?, c.isDigit = false := fun c hc => (h c hc).1

/-- The token of digits without point and exponent. -/
theorem unsigned?_integer {row rest : List Char} (negative : Bool) (hRow : IsRow row)
    (hLead : row = ['0'] ∨ row.head? ≠ some '0') (hEnds : Ends rest) :
    unsigned? negative (row ++ rest) =
      some (.integer negative (Nat.ofDigitChars 10 row 0), rest) := by
  simp [unsigned?, whole?_append hRow hLead hEnds.noDigit,
    fraction?_none fun c hc => (hEnds c hc).2.1, exponent?_none fun c hc => (hEnds c hc).2.2]

/-- The token of digits around a point. -/
theorem unsigned?_point {whole fraction rest : List Char} (negative : Bool) (hWhole : IsRow whole)
    (hLead : whole = ['0'] ∨ whole.head? ≠ some '0') (hFraction : IsRow fraction)
    (hEnds : Ends rest) : unsigned? negative (whole ++ '.' :: (fraction ++ rest)) =
      some (.decimal negative (significand whole fraction).1 (significand whole fraction).2,
        rest) := by
  have hRest : ∀ c ∈ ('.' :: (fraction ++ rest)).head?, c.isDigit = false := by simp
  simp [unsigned?, whole?_append hWhole hLead hRest, fraction?_point hFraction hEnds.noDigit,
    exponent?_none fun c hc => (hEnds c hc).2.2]

/-- The token of digits with an exponent, and with or without a point. -/
theorem unsigned?_exponent {whole fraction rest : List Char} (negative : Bool) (power : Int)
    (hWhole : IsRow whole) (hLead : whole = ['0'] ∨ whole.head? ≠ some '0')
    (hFraction : ∀ c ∈ fraction, c.isDigit = true) (hEnds : Ends rest) :
    unsigned? negative (whole ++ ((if fraction = [] then [] else '.' :: fraction) ++
        'e' :: (if power < 0 then '-' else '+') :: (Nat.toDigits 10 power.natAbs ++ rest))) =
      some (.decimal negative (significand whole fraction).1
        (power + (significand whole fraction).2), rest) := by
  have hMark := exponent?_mark power hEnds.noDigit
  generalize hTail : 'e' :: (if power < 0 then '-' else '+') ::
    (Nat.toDigits 10 power.natAbs ++ rest) = tail at *
  have hDigit : ∀ c ∈ tail.head?, c.isDigit = false := by rw [← hTail]; simp
  by_cases hEmpty : fraction = []
  · have hPoint : ∀ c ∈ tail.head?, c ≠ '.' := by rw [← hTail]; simp
    simp [unsigned?, hEmpty, whole?_append hWhole hLead hDigit, fraction?_none hPoint, hMark]
  · have hRest : ∀ c ∈ ('.' :: (fraction ++ tail)).head?, c.isDigit = false := by simp
    simp [unsigned?, hEmpty, whole?_append hWhole hLead hRest,
      fraction?_point ⟨hEmpty, hFraction⟩ hDigit, hMark]

/-- Dropping leading zeros leaves no more of a start of a text than of the whole. -/
theorem length_dropWhile_append_le {α : Type} (p : α → Bool) (start rest : List α) :
    (start.dropWhile p).length ≤ ((start ++ rest).dropWhile p).length := by
  rw [List.dropWhile_append]
  split_ifs with hEmpty
  · simp [List.isEmpty_iff.mp hEmpty]
  · simp

/-- Up to 768 digits after the leading zeros, all of them count. -/
theorem significand_eq {whole fraction : List Char}
    (hShort : ((whole ++ fraction).dropWhile (· == '0')).length ≤ exactDigits) :
    significand whole fraction =
      (Nat.ofDigitChars 10 (whole ++ fraction) 0, -(fraction.length : Int)) := by
  obtain ⟨zeros, hKept⟩ : fraction.rdropWhile (· == '0') <+: fraction :=
    List.rdropWhile_prefix _ _
  have hLe := length_dropWhile_append_le (· == '0') (whole ++ fraction.rdropWhile (· == '0')) zeros
  rw [List.append_assoc, hKept] at hLe
  exact if_pos (hLe.trans hShort)

end Reader

namespace Tree

/-- A number token with this sign and this value. -/
def Denotes (negative : Bool) (v : ℚ) : Tree → Prop
  | .integer sign magnitude => sign = negative ∧ (magnitude : ℚ) = v
  | .decimal sign significand exponent =>
    sign = negative ∧ (significand : ℚ) * 10 ^ exponent = v
  | _ => False

end Tree

namespace Layout

open Reader

/-- The token that digits with their point are read as. -/
def token (l : Layout) (negative : Bool) (digits : List Char) (point : Int) : Tree :=
  if l.isPositional point ∧ digits.length ≤ point then
    let whole := Nat.ofDigitChars 10 digits 0 * 10 ^ (point - digits.length).toNat
    if l.pointed then .decimal negative (whole * 10) (-1) else .integer negative whole
  else .decimal negative (Nat.ofDigitChars 10 digits 0) (point - digits.length)

theorem token_denotes (l : Layout) (negative : Bool) (digits : List Char) (point : Int) :
    (l.token negative digits point).Denotes negative
      (Nat.ofDigitChars 10 digits 0 * 10 ^ (point - digits.length)) := by
  unfold token
  split_ifs with hWhole hPointed
  · obtain ⟨zeros, hZeros⟩ : ∃ zeros : Nat, point - digits.length = zeros :=
      ⟨(point - digits.length).toNat, by omega⟩
    refine ⟨rfl, ?_⟩
    rw [hZeros, Int.toNat_natCast]
    push_cast
    rw [zpow_natCast, zpow_neg_one]
    ring
  · obtain ⟨zeros, hZeros⟩ : ∃ zeros : Nat, point - digits.length = zeros :=
      ⟨(point - digits.length).toNat, by omega⟩
    refine ⟨rfl, ?_⟩
    rw [hZeros, Int.toNat_natCast]
    push_cast
    rw [zpow_natCast]
  · exact ⟨rfl, rfl⟩

theorem ofDigitChars_zeros_append (zeros : Nat) (digits : List Char) :
    Nat.ofDigitChars 10 (List.replicate zeros '0' ++ digits) 0 = Nat.ofDigitChars 10 digits 0 := by
  rw [Nat.ofDigitChars_append, Nat.ofDigitChars_replicate_zero, Nat.mul_zero]

theorem ofDigitChars_append_zeros (digits : List Char) (zeros : Nat) :
    Nat.ofDigitChars 10 (digits ++ List.replicate zeros '0') 0 =
      Nat.ofDigitChars 10 digits 0 * 10 ^ zeros := by
  rw [Nat.ofDigitChars_append, Nat.ofDigitChars_replicate_zero, Nat.mul_comm]

theorem dropWhile_zeros_append (zeros : Nat) {digits : List Char}
    (hLead : digits.head? ≠ some '0') :
    (List.replicate zeros '0' ++ digits).dropWhile (· == '0') = digits := by
  rw [List.dropWhile_append_of_pos (by simp)]
  cases digits with
  | nil => rfl
  | cons c digits =>
      have hc : c ≠ '0' := by simpa using hLead
      simp [hc]

/-- A row that starts with no zero, no longer than the reader counts one by one. -/
structure IsLeading (digits : List Char) : Prop extends IsRow digits where
  lead : digits.head? ≠ some '0'
  short : digits.length ≤ exactDigits

theorem IsLeading.length_pos {digits : List Char} (h : IsLeading digits) : 0 < digits.length :=
  List.length_pos_iff.mpr h.nonempty

theorem IsLeading.head?_append {digits : List Char} (h : IsLeading digits) (more : List Char) :
    (digits ++ more).head? ≠ some '0' := by
  rw [List.head?_append_of_ne_nil _ h.nonempty]
  exact h.lead

/-- The point before all digits. -/
theorem unsigned?_before {digits rest : List Char} (negative : Bool) (zeros : Nat)
    (hDigits : IsLeading digits) (hEnds : Ends rest) :
    unsigned? negative ('0' :: '.' :: (List.replicate zeros '0' ++ digits) ++ rest) =
      some (.decimal negative (Nat.ofDigitChars 10 digits 0) (-(zeros + digits.length : Nat)),
        rest) := by
  have hRow : IsRow (List.replicate zeros '0' ++ digits) := by
    refine ⟨by simp [hDigits.nonempty], fun c hc => ?_⟩
    rcases List.mem_append.mp hc with hc | hc
    · rw [List.eq_of_mem_replicate hc]
      rfl
    · exact hDigits.digit c hc
  have hZeros : ['0'] ++ (List.replicate zeros '0' ++ digits) =
      List.replicate (zeros + 1) '0' ++ digits := rfl
  have hSignificand : significand ['0'] (List.replicate zeros '0' ++ digits) =
      (Nat.ofDigitChars 10 digits 0, -((zeros + digits.length : Nat) : Int)) := by
    rw [significand_eq, hZeros, ofDigitChars_zeros_append, List.length_append,
      List.length_replicate]
    rw [hZeros, dropWhile_zeros_append _ hDigits.lead]
    exact hDigits.short
  have hRead := unsigned?_point negative ⟨by simp, by simp⟩ (.inl rfl) hRow hEnds
  rw [hSignificand] at hRead
  exact hRead

theorem IsLeading.row_zeros {digits : List Char} (h : IsLeading digits) (zeros : Nat) :
    IsRow (digits ++ List.replicate zeros '0') := by
  refine ⟨by simp [h.nonempty], fun c hc => ?_⟩
  rcases List.mem_append.mp hc with hc | hc
  · exact h.digit c hc
  · rw [List.eq_of_mem_replicate hc]
    rfl

/-- No point after all digits and some zeros. -/
theorem unsigned?_whole {digits rest : List Char} (negative : Bool) (zeros : Nat)
    (hDigits : IsLeading digits) (hEnds : Ends rest) :
    unsigned? negative (digits ++ List.replicate zeros '0' ++ rest) =
      some (.integer negative (Nat.ofDigitChars 10 digits 0 * 10 ^ zeros), rest) := by
  rw [unsigned?_integer negative (hDigits.row_zeros zeros) (.inr (hDigits.head?_append _)) hEnds,
    ofDigitChars_append_zeros]

/-- The point after all digits and some zeros. -/
theorem unsigned?_after_point {digits rest : List Char} (negative : Bool) (zeros : Nat)
    (hDigits : IsLeading digits) (hShort : digits.length + zeros < exactDigits)
    (hEnds : Ends rest) :
    unsigned? negative (digits ++ List.replicate zeros '0' ++ '.' :: '0' :: rest) =
      some (.decimal negative (Nat.ofDigitChars 10 digits 0 * 10 ^ zeros * 10) (-1), rest) := by
  have hRow := hDigits.row_zeros zeros
  have hSignificand : significand (digits ++ List.replicate zeros '0') ['0'] =
      (Nat.ofDigitChars 10 digits 0 * 10 ^ zeros * 10, -1) := by
    have hZeros : digits ++ List.replicate zeros '0' ++ ['0'] =
        digits ++ List.replicate (zeros + 1) '0' := by
      rw [List.append_assoc, ← List.replicate_succ']
    rw [significand_eq, hZeros, ofDigitChars_append_zeros, Nat.pow_succ, Nat.mul_assoc]
    · rfl
    · rw [hZeros]
      refine (List.length_dropWhile_le _ _).trans ?_
      simp only [List.length_append, List.length_replicate]
      omega
  have hZero : IsRow ['0'] := ⟨by simp, by simp⟩
  have hRead := unsigned?_point negative hRow (.inr (hDigits.head?_append _)) hZero hEnds
  rw [hSignificand] at hRead
  exact hRead

/-- The point among the digits. -/
theorem unsigned?_among {digits rest : List Char} (negative : Bool) {point : Nat}
    (hDigits : IsLeading digits) (hFirst : 0 < point) (hLast : point < digits.length)
    (hEnds : Ends rest) :
    unsigned? negative (digits.take point ++ '.' :: (digits.drop point ++ rest)) =
      some (.decimal negative (Nat.ofDigitChars 10 digits 0) (-(digits.length - point : Nat)),
        rest) := by
  have hWhole : IsRow (digits.take point) := by
    refine ⟨?_, fun c hc => hDigits.digit c (List.mem_of_mem_take hc)⟩
    rw [Ne, List.take_eq_nil_iff]
    simp [hDigits.nonempty, hFirst.ne']
  have hFraction : IsRow (digits.drop point) := by
    refine ⟨?_, fun c hc => hDigits.digit c (List.mem_of_mem_drop hc)⟩
    rw [Ne, List.drop_eq_nil_iff]
    omega
  have hLead : (digits.take point).head? ≠ some '0' := by
    rw [List.head?_take, if_neg (by omega)]
    exact hDigits.lead
  rw [unsigned?_point negative hWhole (.inr hLead) hFraction hEnds, significand_eq,
    List.take_append_drop, List.length_drop]
  rw [List.take_append_drop]
  exact (List.length_dropWhile_le _ _).trans hDigits.short

/-- The positional form is read back, with the point before, after or among the digits. -/
theorem unsigned?_positional {l : Layout} {digits rest : List Char} {point : Int} (negative : Bool)
    (hDigits : IsLeading digits) (hPositional : l.isPositional point = true)
    (hPointed : l.pointed = true → point < exactDigits) (hEnds : Ends rest) :
    unsigned? negative (l.positional digits point ++ rest) =
      some (l.token negative digits point, rest) := by
  have hLength := hDigits.length_pos
  unfold positional token
  rcases lt_or_ge 0 point with hPositive | hBefore
  · obtain ⟨p, rfl⟩ : ∃ p : Nat, point = p := ⟨point.toNat, by omega⟩
    rw [if_neg (by omega), Int.toNat_natCast]
    rcases Nat.lt_or_ge p digits.length with hAmong | hAfter
    · rw [if_neg (by omega), if_neg (by omega), List.append_assoc, List.cons_append,
        unsigned?_among negative hDigits (by omega) hAmong hEnds]
      congr 3
      omega
    · have hWhole : l.isPositional p = true ∧ (digits.length : Int) ≤ p :=
        ⟨hPositional, by omega⟩
      rw [if_pos hAfter, if_pos hWhole,
        show ((p : Int) - digits.length).toNat = p - digits.length by omega]
      cases hPoint : l.pointed with
      | true =>
          have hShort := hPointed hPoint
          simp only [if_true, List.append_assoc, List.cons_append, List.nil_append]
          rw [← List.append_assoc, unsigned?_after_point negative _ hDigits (by omega) hEnds]
      | false =>
          simp only [Bool.false_eq_true, if_false, List.append_nil]
          rw [unsigned?_whole negative _ hDigits hEnds]
  · rw [if_pos hBefore, if_neg (by omega), unsigned?_before negative _ hDigits hEnds]
    congr 3
    omega

/-- The form with an exponent is read back. -/
theorem unsigned?_scientific {l : Layout} {digits rest : List Char} {point : Int} (negative : Bool)
    (hDigits : IsLeading digits) (hScientific : l.isPositional point = false) (hEnds : Ends rest) :
    unsigned? negative (scientific digits point ++ rest) =
      some (l.token negative digits point, rest) := by
  have hLength := hDigits.length_pos
  have hWhole : IsRow (digits.take 1) := by
    refine ⟨?_, fun c hc => hDigits.digit c (List.mem_of_mem_take hc)⟩
    rw [Ne, List.take_eq_nil_iff]
    simp [hDigits.nonempty]
  have hLead : (digits.take 1).head? ≠ some '0' := by
    rw [List.head?_take, if_neg (by omega)]
    exact hDigits.lead
  have hSignificand : significand (digits.take 1) (digits.drop 1) =
      (Nat.ofDigitChars 10 digits 0, -((digits.length - 1 : Nat) : Int)) := by
    rw [significand_eq, List.take_append_drop, List.length_drop]
    rw [List.take_append_drop]
    exact (List.length_dropWhile_le _ _).trans hDigits.short
  have hMore : ∀ c ∈ digits.drop 1, c.isDigit = true := fun c hc =>
    hDigits.digit c (List.mem_of_mem_drop hc)
  have hRead := unsigned?_exponent negative (point - 1) hWhole (.inr hLead) hMore hEnds
  have hFraction : (digits.drop 1 = []) = (digits.length ≤ 1) := by
    rw [List.drop_eq_nil_iff]
  rw [hSignificand] at hRead
  simp only [hFraction] at hRead
  have hToken : l.token negative digits point =
      .decimal negative (Nat.ofDigitChars 10 digits 0) (point - digits.length) := by
    rw [token, if_neg (by simp [hScientific])]
  have hPlaces : point - 1 + -((digits.length - 1 : Nat) : Int) = point - digits.length := by
    omega
  rw [hToken, ← hPlaces]
  simpa only [scientific, List.append_assoc, List.cons_append] using hRead

/-- Digits other than zeros alone are those kept and the zeros dropped at the end. -/
theorem trimZeros_append {digits : List Char} (hDigits : ∃ c ∈ digits, c ≠ '0') :
    ∃ zeros, digits = trimZeros digits ++ List.replicate zeros '0' ∧ trimZeros digits ≠ [] := by
  have hKept : digits.rdropWhile (· == '0') ≠ [] := by
    obtain ⟨c, hc, hNonzero⟩ := hDigits
    rw [Ne, List.rdropWhile_eq_nil_iff]
    intro hAll
    exact hNonzero (by simpa using hAll c hc)
  have hTrim : trimZeros digits = digits.rdropWhile (· == '0') := by
    unfold trimZeros
    split
    next hEmpty => exact absurd hEmpty hKept
    next hKeep => rfl
  have hZeros : digits.rtakeWhile (· == '0') =
      List.replicate (digits.rtakeWhile (· == '0')).length '0' := by
    rw [List.eq_replicate_iff]
    exact ⟨rfl, fun c hc => by simpa using List.mem_rtakeWhile_imp hc⟩
  refine ⟨(digits.rtakeWhile (· == '0')).length, ?_, ?_⟩
  · rw [hTrim, ← hZeros, List.rdropWhile_append_rtakeWhile]
  · rw [hTrim]
    exact hKept

/-- A zero follows the point only in numbers whose digits the reader counts one by one. -/
def Bounded (l : Layout) : Prop :=
  l.pointed = true → ∃ high, l.highest = some high ∧ high < exactDigits

theorem bounded_canonical : canonical.Bounded := by simp [Bounded, canonical]

theorem bounded_document : document.Bounded := fun _ => ⟨16, rfl, by decide⟩

/-- The digits of a magnitude in a layout. -/
def digitsOf (l : Layout) (code : Nat) : List Char :=
  trimZeros (Nat.toDigits 10 (Decimal.shortest l.ties code).significand)

/-- After how many of its digits the point of a magnitude stands. -/
def pointOf (l : Layout) (code : Nat) : Int :=
  ((Nat.toDigits 10 (Decimal.shortest l.ties code).significand).length : Int) +
    (Decimal.shortest l.ties code).exponent

theorem magnitude_eq (l : Layout) {code : Nat} (hCode : code ≠ 0) : l.magnitude code =
    if l.isPositional (l.pointOf code) then l.positional (l.digitsOf code) (l.pointOf code)
    else scientific (l.digitsOf code) (l.pointOf code) := by
  rw [magnitude, if_neg hCode]
  rfl

variable (l : Layout) {code : Nat}

/-- The digits of a magnitude are those of its shortest decimal without the zeros at the end. -/
theorem digitsOf_spec (hCode : code ≤ Binary64.infinityCode) (hPos : 0 < code) :
    ∃ zeros : Nat, Nat.toDigits 10 (Decimal.shortest l.ties code).significand =
        l.digitsOf code ++ List.replicate zeros '0' ∧ IsLeading (l.digitsOf code) := by
  have hSignificand := Decimal.shortest_significand_pos l.ties hCode hPos
  have hLead := Numeral.head?_toDigits (by decide : 1 < 10) hSignificand
  have hRow := isRow_toDigits (Decimal.shortest l.ties code).significand
  have hShort : (Nat.toDigits 10 (Decimal.shortest l.ties code).significand).length ≤ 18 := by
    rw [Nat.length_toDigits_le_iff (by decide) (by decide)]
    exact Nat.lt_of_le_of_lt (Decimal.shortest_spec l.ties hCode hPos).2 (by decide)
  have hNonzero : ∃ c ∈ Nat.toDigits 10 (Decimal.shortest l.ties code).significand, c ≠ '0' := by
    obtain ⟨c, digits, hDigits⟩ := List.exists_cons_of_ne_nil hRow.nonempty
    rw [hDigits] at hLead ⊢
    exact ⟨c, by simp, by simpa using hLead⟩
  obtain ⟨zeros, hTrim, hKept⟩ := trimZeros_append hNonzero
  refine ⟨zeros, hTrim, ⟨hKept, fun c hc => hRow.digit c ?_⟩, ?_, ?_⟩
  · rw [hTrim]
    exact List.mem_append_left _ hc
  · rw [hTrim, List.head?_append_of_ne_nil _ hKept] at hLead
    exact hLead
  · have hLength := congrArg List.length hTrim
    rw [List.length_append] at hLength
    simp only [exactDigits, digitsOf]
    omega

/-- The digits and the point of a magnitude give the value of its shortest decimal. -/
theorem digitsOf_value (hCode : code ≤ Binary64.infinityCode) (hPos : 0 < code) :
    (Nat.ofDigitChars 10 (l.digitsOf code) 0 : ℚ) *
        10 ^ (l.pointOf code - (l.digitsOf code).length) =
      (Decimal.shortest l.ties code).value := by
  obtain ⟨zeros, hTrim, -⟩ := digitsOf_spec l hCode hPos
  have hLength := congrArg List.length hTrim
  rw [List.length_append, List.length_replicate] at hLength
  have hSignificand : (Decimal.shortest l.ties code).significand =
      Nat.ofDigitChars 10 (l.digitsOf code) 0 * 10 ^ zeros := by
    rw [← ofDigitChars_append_zeros, ← hTrim, Nat.ofDigitChars_ten_toDigits]
  have hPoint : l.pointOf code - (l.digitsOf code).length =
      zeros + (Decimal.shortest l.ties code).exponent := by
    rw [pointOf, hLength]
    push_cast
    ring
  rw [hPoint, Decimal.value, hSignificand, zpow_add₀ (by norm_num), zpow_natCast]
  push_cast
  ring

/-- The token of a magnitude other than zero. -/
theorem unsigned?_magnitude {rest : List Char} (negative : Bool) (hBounded : l.Bounded)
    (hCode : code ≤ Binary64.infinityCode) (hPos : 0 < code) (hEnds : Ends rest) :
    unsigned? negative (l.magnitude code ++ rest) =
      some (l.token negative (l.digitsOf code) (l.pointOf code), rest) := by
  obtain ⟨-, -, hDigits⟩ := digitsOf_spec l hCode hPos
  rw [magnitude_eq l hPos.ne']
  split_ifs with hPositional
  · refine unsigned?_positional negative hDigits hPositional (fun hPointed => ?_) hEnds
    obtain ⟨high, hHighest, hFew⟩ := hBounded hPointed
    simp only [isPositional, hHighest, Option.all_some, Bool.and_eq_true, decide_eq_true_eq]
      at hPositional
    omega
  · exact unsigned?_scientific negative hDigits (by simpa using hPositional) hEnds

end Layout

end LedgerSigning
