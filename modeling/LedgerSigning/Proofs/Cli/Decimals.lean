import LedgerSigning.Cli.Arguments
import LedgerSigning.Proofs.Json.Numeral
import Mathlib.Algebra.Field.Rat

/-! Decimals on a command line. A plain decimal is read as the number nearest to it. -/
namespace LedgerSigning

namespace Decimals

/-- A row of digits, or one with a point at some place in it, and the number that it is. -/
inductive Denotes : List Char → ℚ → Prop
  | whole {digits : List Char} (hDigits : Reader.IsRow digits) :
      Denotes digits (Nat.ofDigitChars 10 digits 0)
  | pointed {whole fraction : List Char} (hDigits : Reader.IsRow (whole ++ fraction)) :
      Denotes (whole ++ '.' :: fraction)
        (Nat.ofDigitChars 10 (whole ++ fraction) 0 / 10 ^ fraction.length)

variable {text digits rest : List Char} {v : ℚ}

theorem row_append (hDigits : ∀ c ∈ digits, c.isDigit = true)
    (hRest : ∀ c ∈ rest.head?, c.isDigit = false) : row (digits ++ rest) = (digits, rest) := by
  obtain ⟨hTake, hDrop⟩ := Reader.digits_append hDigits hRest
  rw [row, hTake, hDrop]

theorem row_all (hDigits : ∀ c ∈ digits, c.isDigit = true) : row digits = (digits, []) := by
  simpa using @row_append digits [] hDigits (by simp)

/-- A plain decimal starts with a digit or a point. -/
theorem Denotes.head (h : Denotes text v) :
    ∃ c rest, text = c :: rest ∧ (c.isDigit = true ∨ c = '.') := by
  cases h with
  | whole hDigits =>
      obtain ⟨c, rest, rfl⟩ := List.exists_cons_of_ne_nil hDigits.nonempty
      exact ⟨c, rest, rfl, .inl (hDigits.digit c (by simp))⟩
  | @pointed whole fraction hDigits =>
      cases whole with
      | nil => exact ⟨'.', fraction, rfl, .inr rfl⟩
      | cons c rest => exact ⟨c, _, rfl, .inl (hDigits.digit c (by simp))⟩

/-- A plain decimal is no name of an infinity or of what is not a number. -/
theorem Denotes.not_named (h : Denotes text v) :
    text.map Char.toLower ∉ ["inf".toList, "infinity".toList, "nan".toList] := by
  obtain ⟨c, rest, rfl, hFirst⟩ := h.head
  have hLow : c.toNat ≤ 57 := by
    rcases hFirst with hDigit | rfl
    · exact (Reader.digit_bounds hDigit).2
    · decide
  have hSame : c.toLower = c := by
    refine dif_neg fun hLetter => ?_
    have hLetters : 65 ≤ c.toNat := hLetter.1
    omega
  have hLetters : c ≠ 'i' ∧ c ≠ 'n' := by
    constructor <;> rintro rfl <;> exact absurd hLow (by decide)
  simp [hSame, hLetters]

/-- A plain decimal is read as a decimal of its value. -/
theorem binary64?_of_denotes (h : Denotes text v) : ∃ digits : Nat, ∃ exponent : Int,
    binary64? text = some (.ofDecimal false digits exponent) ∧
      (digits : ℚ) * 10 ^ exponent = v := by
  have hNamed := h.not_named
  have hUnsigned : binary64? text = magnitude? false text := by
    obtain ⟨c, rest, rfl, hFirst⟩ := h.head
    unfold binary64?
    split
    · simp_all
    · simp_all
    · rfl
  simp only [List.mem_cons, List.not_mem_nil, or_false, not_or] at hNamed
  obtain ⟨hInf, hInfinity, hNan⟩ := hNamed
  rw [hUnsigned, magnitude?]
  simp only [hInf, hInfinity, hNan, or_self, if_false]
  cases h with
  | whole hDigits =>
      refine ⟨_, 0, ?_, by rw [zpow_zero, mul_one]⟩
      simp [row_all hDigits.digit, hDigits.nonempty, power?]
  | @pointed whole fraction hDigits =>
      obtain ⟨hWhole, hFraction⟩ := List.forall_mem_append.mp hDigits.digit
      have hSome : whole = [] → fraction ≠ [] := by simpa using hDigits.nonempty
      refine ⟨_, -fraction.length, ?_, by rw [zpow_neg, zpow_natCast, div_eq_mul_inv]⟩
      rw [row_append hWhole (by simp)]
      simpa [row_all hFraction, power?] using hSome

end Decimals

end LedgerSigning
