import LedgerSigning.Json.Canonical
import Mathlib.Data.List.Lex

/-! UTF-16 units determine a text, so that comparing them orders keys strictly and totally. -/
namespace LedgerSigning

namespace Units

/-- The code point of a character lies outside the surrogates. -/
theorem char_bounds (c : Char) : c.toNat < 0xD800 ∨ 0xE000 ≤ c.toNat ∧ c.toNat < 0x110000 := by
  have hValid := c.valid
  unfold UInt32.isValidChar Nat.isValidChar at hValid
  have hNat : c.toNat = c.val.toNat := rfl
  omega

@[simp] theorem not_isHigh (c : Char) : isHigh c.toNat = false := by
  have hBounds := char_bounds c
  simp only [isHigh, Bool.and_eq_false_iff, decide_eq_false_iff_not]
  omega

@[simp] theorem not_isLow (c : Char) : isLow c.toNat = false := by
  have hBounds := char_bounds c
  simp only [isLow, Bool.and_eq_false_iff, decide_eq_false_iff_not]
  omega

/-- A code point that is no surrogate joins as its own character. -/
theorem join?_char (c : Char) (codes : List Nat) :
    join? (c.toNat :: codes) = (join? codes).map (c :: ·) := by
  cases codes with
  | nil => simp [join?]
  | cons code codes => simp [join?]

/-- The code points of a text join as the text. -/
theorem join?_toNat (text : List Char) : join? (text.map Char.toNat) = some text := by
  induction text with
  | nil => rfl
  | cons c text ih => rw [List.map_cons, join?_char, ih, Option.map_some]

theorem join?_ofChar (c : Char) (codes : List Nat) :
    join? (ofChar c ++ codes) = (join? codes).map (c :: ·) := by
  unfold ofChar
  split_ifs with hSmall
  · exact join?_char c codes
  · have hBounds := char_bounds c
    generalize hHigh : 0xD800 + (c.toNat - 0x10000) / 0x400 = high
    generalize hLow : 0xDC00 + (c.toNat - 0x10000) % 0x400 = low
    have hPair : (isHigh high && isLow low) = true := by
      simp only [isHigh, isLow, Bool.and_eq_true, decide_eq_true_eq]
      omega
    have hChar : pair high low = c := by
      have hCode : 0x10000 + (high - 0xD800) * 0x400 + (low - 0xDC00) = c.toNat := by omega
      rw [pair, hCode, Char.ofNat_toNat]
    simp [join?, hPair, hChar]

/-- The units of a text join as the text. -/
theorem join?_ofText (text : List Char) : join? (ofText text) = some text := by
  induction text with
  | nil => rfl
  | cons c text ih =>
      rw [ofText, List.flatMap_cons, join?_ofChar]
      rw [ofText] at ih
      rw [ih, Option.map_some]

theorem ofText_injective : Function.Injective ofText := by
  intro text other hUnits
  have hJoin := join?_ofText text
  rw [hUnits, join?_ofText] at hJoin
  exact (Option.some.inj hJoin).symm

end Units

namespace Json

theorem precedes_iff (a b : String) :
    precedes a b = true ↔ Units.ofText a.toList < Units.ofText b.toList := by
  simp [precedes]

@[simp] theorem precedes_irrefl (a : String) : precedes a a = false := by
  rw [← Bool.not_eq_true, precedes_iff]
  exact List.lt_irrefl _

theorem precedes_trans {a b c : String} (hFirst : precedes a b = true)
    (hSecond : precedes b c = true) : precedes a c = true := by
  rw [precedes_iff] at *
  exact List.lt_trans hFirst hSecond

/-- Of two different keys one precedes the other. -/
theorem precedes_total {a b : String} (hOther : precedes a b = false) (hNe : a ≠ b) :
    precedes b a = true := by
  rw [← Bool.not_eq_true, precedes_iff] at hOther
  rw [precedes_iff]
  rcases lt_trichotomy (Units.ofText a.toList) (Units.ofText b.toList) with hLess | hEq | hGreater
  · exact absurd hLess hOther
  · exact absurd (String.toList_injective (Units.ofText_injective hEq)) hNe
  · exact hGreater

theorem precedes_asymm {a b : String} (hPrecedes : precedes a b = true) :
    precedes b a = false := by
  rw [← Bool.not_eq_true]
  intro hBack
  have hSelf := precedes_trans hPrecedes hBack
  rw [precedes_irrefl] at hSelf
  exact absurd hSelf (by decide)

end Json

end LedgerSigning
