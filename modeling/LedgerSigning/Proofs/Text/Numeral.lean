import LedgerSigning.Text.Numeral
import Mathlib.Data.List.Basic

/-! Numerals. A number has one numeral in each base up to sixteen, and a decimal numeral is read
back as its number. What is read are rows of digits, with a sign where one may stand. -/
namespace LedgerSigning

namespace Reader

/-- A row of digits: nonempty, and digits only. -/
structure IsRow (row : List Char) : Prop where
  nonempty : row ≠ []
  digit : ∀ c ∈ row, c.isDigit = true

theorem isRow_toDigits (n : Nat) : IsRow (Nat.toDigits 10 n) where
  nonempty := Nat.toDigits_ne_nil
  digit _ hc := Nat.isDigit_of_mem_toDigits (by decide) (by decide) hc

end Reader

namespace Numeral

theorem digitChar_inj {m n : Nat} (hm : m < 16) (hn : n < 16)
    (h : m.digitChar = n.digitChar) : m = n := by
  have hAll : ∀ m < 16, ∀ n < 16, m.digitChar = n.digitChar → m = n := by decide
  exact hAll m hm n hn h

/-- The digits of a positive number start with no zero. -/
theorem head?_toDigits {b n : Nat} (hb : 1 < b) (hn : 0 < n) :
    (Nat.toDigits b n).head? ≠ some '0' := by
  induction n using Nat.strongRecOn with
  | ind n ih =>
      rcases Nat.lt_or_ge n b with hSmall | hLarge
      · rw [Nat.toDigits_of_lt_base hSmall]
        simpa using Nat.ne_of_gt hn
      · have hHead := ih (n / b) (Nat.div_lt_self hn hb) (Nat.div_pos hLarge (by omega))
        rw [Nat.toDigits_of_base_le hb hLarge, List.head?_append_of_ne_nil _ Nat.toDigits_ne_nil]
        exact hHead

theorem length_toDigits_of_base_le {b n : Nat} (hb : 1 < b) (hn : b ≤ n) :
    1 < (Nat.toDigits b n).length := by
  have hPos : 0 < (Nat.toDigits b (n / b)).length := Nat.length_toDigits_pos
  rw [Nat.toDigits_of_base_le hb hn, List.length_append, List.length_singleton]
  omega

theorem toDigits_inj {b m n : Nat} (hb : 1 < b) (hSymbols : b ≤ 16)
    (h : Nat.toDigits b m = Nat.toDigits b n) : m = n := by
  induction m using Nat.strongRecOn generalizing n with
  | ind m ih =>
      rcases Nat.lt_or_ge m b with hm | hm <;> rcases Nat.lt_or_ge n b with hn | hn
      · rw [Nat.toDigits_of_lt_base hm, Nat.toDigits_of_lt_base hn] at h
        exact digitChar_inj (by omega) (by omega) (List.singleton_inj.mp h)
      · have hLength := length_toDigits_of_base_le hb hn
        rw [← h, Nat.toDigits_of_lt_base hm] at hLength
        exact absurd hLength (by simp)
      · have hLength := length_toDigits_of_base_le hb hm
        rw [h, Nat.toDigits_of_lt_base hn] at hLength
        exact absurd hLength (by simp)
      · rw [Nat.toDigits_of_base_le hb hm, Nat.toDigits_of_base_le hb hn] at h
        obtain ⟨hHigh, hLow⟩ := List.append_inj' h rfl
        have hQuotient := ih (m / b) (Nat.div_lt_self (by omega) hb) hHigh
        have hLowM := Nat.mod_lt m (by omega : 0 < b)
        have hLowN := Nat.mod_lt n (by omega : 0 < b)
        have hRemainder := digitChar_inj (by omega) (by omega) (List.singleton_inj.mp hLow)
        rw [← Nat.div_add_mod m b, ← Nat.div_add_mod n b, hQuotient, hRemainder]

/-- A numeral of one decimal digit. -/
theorem toDigits_eq_digit {b n d : Nat} (hb : 10 ≤ b) (hSymbols : b ≤ 16) (hd : d < 10)
    (h : Nat.toDigits b n = [d.digitChar]) : n = d := by
  apply toDigits_inj (by omega) hSymbols
  rw [h, Nat.toDigits_of_lt_base (by omega)]

theorem ofNat_inj {m n : Nat} (h : ofNat m = ofNat n) : m = n :=
  toDigits_inj (by decide) (by decide) h

theorem hex_inj {m n : Nat} (h : hex m = hex n) : m = n :=
  toDigits_inj (by decide) (by decide) h

theorem digits?_eq_some_iff {text : List Char} {n : Nat} :
    digits? text = some n ↔ Reader.IsRow text ∧ n = Nat.ofDigitChars 10 text 0 := by
  have hRow : Reader.IsRow text ↔ (!text.isEmpty && text.all Char.isDigit) = true := by
    simp only [Bool.and_eq_true, Bool.not_eq_true', List.isEmpty_eq_false_iff, List.all_eq_true]
    exact ⟨fun h => ⟨h.nonempty, h.digit⟩, fun h => ⟨h.1, h.2⟩⟩
  rw [hRow, digits?]
  split_ifs with h
  · simp [h, eq_comm]
  · simp [h]

/-- A decimal numeral is read as its number. -/
theorem digits?_ofNat (n : Nat) : digits? (ofNat n) = some n :=
  digits?_eq_some_iff.mpr ⟨Reader.isRow_toDigits n,
    (Nat.ofDigitChars_toDigits (by decide) (by decide)).symm⟩

theorem natural?_ofNat (n : Nat) : natural? (ofNat n) = some n := by
  rw [natural?, digits?_ofNat]
  intro rest hPlus
  have hMember : '+' ∈ Nat.toDigits 10 n := by
    rw [← ofNat, hPlus]
    simp
  exact absurd (Nat.isDigit_of_mem_toDigits (by decide) (by decide) hMember) (by decide)

/-- A numeral below the bound is read as its number. -/
theorem below?_ofNat {n bound : Nat} (hn : n < bound) : below? bound (ofNat n) = some n := by
  simp [below?, natural?_ofNat, hn]

/-- A text stands for a number: the digits of the number, maybe after leading zeros or a plus
sign. -/
def Denotes (text : List Char) (n : Nat) : Prop :=
  ∃ row, (text = row ∨ text = '+' :: row) ∧ Reader.IsRow row ∧ n = Nat.ofDigitChars 10 row 0

theorem Denotes.ne_minus {text : List Char} {n : Nat} (h : Denotes text n) (rest : List Char) :
    text ≠ '-' :: rest := by
  rintro rfl
  obtain ⟨row, rfl | hRow, hDigits, -⟩ := h
  · exact absurd (hDigits.digit '-' (by simp)) (by decide)
  · exact absurd (List.cons.inj hRow).1 (by decide)

theorem natural?_eq_some_iff {text : List Char} {n : Nat} :
    natural? text = some n ↔ Denotes text n := by
  have hPlus (rest : List Char) : ¬Reader.IsRow ('+' :: rest) := fun h =>
    absurd (h.digit '+' (by simp)) (by decide)
  unfold natural?
  split
  next rest =>
    rw [digits?_eq_some_iff]
    constructor
    · exact fun h => ⟨rest, .inr rfl, h⟩
    · rintro ⟨row, rfl | hRow, hDigits⟩
      · exact absurd hDigits.1 (hPlus _)
      · rwa [(List.cons.inj hRow).2]
  next hHead =>
    rw [digits?_eq_some_iff]
    constructor
    · exact fun h => ⟨text, .inl rfl, h⟩
    · rintro ⟨row, rfl | hRow, hDigits⟩
      · exact hDigits
      · exact absurd hRow (hHead row)

/-- A numeral is read if it stands for a number below the bound. -/
theorem below?_eq_some_iff {bound : Nat} {text : List Char} {n : Nat} :
    below? bound text = some n ↔ Denotes text n ∧ n < bound := by
  simp [below?, Option.filter_eq_some_iff, natural?_eq_some_iff]

end Numeral

end LedgerSigning
