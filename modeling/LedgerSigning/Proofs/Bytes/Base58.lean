import Mathlib.Data.Nat.Digits.Lemmas
import LedgerSigning.Bytes.Base58
import LedgerSigning.Proofs.Bytes.Hex

/-! Base58 text of bytes. After a symbol for each leading zero byte come the digits of the number
that the bytes spell. Of these there are at least as many as the bytes after the zeros ask for. -/
namespace LedgerSigning

namespace Base58

/-- How many zero bytes lead. -/
def zeros (bytes : List UInt8) : Nat := (bytes.takeWhile (· = 0)).length

theorem digitsOnto_eq {steps n : Nat} (hSteps : n ≤ steps) (acc : List Nat) :
    digitsOnto steps n acc = (Nat.digits 58 n).reverse ++ acc := by
  induction steps generalizing n acc with
  | zero =>
      obtain rfl := Nat.le_zero.mp hSteps
      simp [digitsOnto]
  | succ steps ih =>
      rw [digitsOnto]
      split_ifs with hZero
      · simp [hZero]
      · have hPos := Nat.pos_of_ne_zero hZero
        have hLess : n / 58 < n := Nat.div_lt_self hPos (by decide)
        rw [ih (by omega), Nat.digits_def' (by decide) hPos, List.reverse_cons, List.append_assoc,
          List.singleton_append]

/-- The text of bytes is a symbol for each leading zero byte, and the digits of their number from
the most significant on. -/
theorem encode_eq (bytes : List UInt8) : encode bytes = List.replicate (zeros bytes) '1' ++
    (Nat.digits 58 (BigEndian.toNat bytes)).reverse.map symbol := by
  rw [encode, digits, digitsOnto_eq le_rfl, List.append_nil, List.map_const']
  rfl

theorem mem_alphabet_of_mem_encode {bytes : List UInt8} {c : Char} (hc : c ∈ encode bytes) :
    c ∈ alphabet := by
  have hSymbol : ∀ n < 58, symbol n ∈ alphabet := by decide
  rw [encode_eq, List.mem_append, List.mem_map] at hc
  rcases hc with hZero | ⟨n, hDigit, rfl⟩
  · rw [List.eq_of_mem_replicate hZero]
    decide
  · exact hSymbol n (Nat.digits_lt_base (by decide) (List.mem_reverse.mp hDigit))

theorem toNat_lt_of_mem_alphabet : ∀ c ∈ alphabet, c.toNat < 128 := by
  have hAll : alphabet.all (·.toNat < 128) = true := by decide
  simpa using List.all_eq_true.mp hAll

theorem length_encode (bytes : List UInt8) :
    (encode bytes).length = zeros bytes + (Nat.digits 58 (BigEndian.toNat bytes)).length := by
  simp [encode_eq]

/-- A text is longer than the zeros and the digits of a smaller power of the base. -/
theorem lt_length_encode {bytes : List UInt8} {count : Nat}
    (hPower : 58 ^ (count - zeros bytes) ≤ BigEndian.toNat bytes) :
    count < (encode bytes).length := by
  have hDigits := mt (Nat.digits_length_le_iff (by decide) _).mp (not_lt.mpr hPower)
  rw [length_encode]
  omega

/-- Bytes that are not all zero spell a number as large as their places after the zeros. -/
theorem pow_le_toNat {bytes : List UInt8} (hZeros : zeros bytes < bytes.length) :
    256 ^ (bytes.length - 1 - zeros bytes) ≤ BigEndian.toNat bytes := by
  have hLength : zeros bytes + (bytes.dropWhile (· = 0)).length = bytes.length := by
    rw [zeros, ← List.length_append, List.takeWhile_append_dropWhile]
  rw [← BigEndian.toNat_dropWhile]
  cases hRest : bytes.dropWhile (· = 0) with
  | nil =>
      rw [hRest, List.length_nil] at hLength
      omega
  | cons b rest =>
      have hb : b ≠ 0 := by
        rintro rfl
        exact BigEndian.head?_dropWhile_ne bytes (congrArg List.head? hRest)
      rw [hRest, List.length_cons] at hLength
      rw [show bytes.length - 1 - zeros bytes = rest.length by omega, BigEndian.toNat_cons]
      have hByte : 1 ≤ b.toNat := Nat.pos_of_ne_zero fun hZero => hb (UInt8.toNat_inj.mp hZero)
      exact (Nat.le_mul_of_pos_left _ hByte).trans (Nat.le_add_right _ _)

/-- A hash of 32 bytes with at most 20 leading zeros has a text of at least 36 symbols. -/
theorem length_encode_of_zeros {hash : List UInt8} (hLength : hash.length = 32)
    (hZeros : zeros hash ≤ 20) : 36 ≤ (encode hash).length := by
  have hPower : 256 ^ (hash.length - 1 - zeros hash) ≤ BigEndian.toNat hash :=
    pow_le_toNat (by omega)
  refine lt_length_encode (le_trans ?_ hPower)
  -- At 20 zeros the powers are 58^15 and 256^11, and every zero less adds one to both exponents.
  obtain ⟨more, hMore⟩ := Nat.exists_eq_add_of_le hZeros
  rw [hLength, show 35 - zeros hash = 15 + more by omega,
    show 32 - 1 - zeros hash = 11 + more by omega, pow_add, pow_add]
  exact Nat.mul_le_mul (by decide) (Nat.pow_le_pow_left (by decide) more)

/-- One zero more, and a text can be shorter. -/
example : (encode (List.replicate 21 0 ++ 1 :: List.replicate 10 0)).length = 35 := by
  decide +kernel

end Base58

end LedgerSigning
