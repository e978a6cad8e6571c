import Mathlib.Data.List.Induction
import Mathlib.Data.Nat.Digits.Lemmas
import Mathlib.Tactic.Ring
import LedgerSigning.Bytes.BigEndian
import LedgerSigning.Bytes.Hex
import LedgerSigning.Proofs.Outcome
import LedgerSigning.Proofs.Text.Utf8

/-! Bytes as numbers and as hexadecimal text. Both are read as they were written, and a text of
digits in either case is read as bytes of the number that it spells. What is read is, in lower case,
what is written for the bytes. -/
namespace LedgerSigning

namespace BigEndian

theorem foldl_eq (start : Nat) (bytes : List UInt8) :
    bytes.foldl (fun n b => n * 256 + b.toNat) start =
      start * 256 ^ bytes.length + toNat bytes := by
  unfold toNat
  induction bytes generalizing start with
  | nil => simp
  | cons b bytes ih =>
      rw [List.foldl_cons, List.foldl_cons, ih, ih (0 * 256 + b.toNat), Nat.zero_mul, Nat.zero_add,
        Nat.add_mul, Nat.mul_assoc, List.length_cons, Nat.pow_succ', Nat.add_assoc]

theorem toNat_cons (b : UInt8) (bytes : List UInt8) :
    toNat (b :: bytes) = b.toNat * 256 ^ bytes.length + toNat bytes := by
  rw [toNat, List.foldl_cons, foldl_eq, Nat.zero_mul, Nat.zero_add]

@[simp] theorem length_ofNat (count n : Nat) : (ofNat count n).length = count := by
  induction count with
  | zero => rfl
  | succ count ih => simp [ofNat, ih]

/-- Only the lowest bytes of a number are written. -/
theorem toNat_ofNat (count n : Nat) : toNat (ofNat count n) = n % 256 ^ count := by
  induction count with
  | zero => simp [ofNat, toNat, Nat.mod_one]
  | succ count ih =>
      have hByte : (n / 256 ^ count % 256).toUInt8.toNat = n / 256 ^ count % 256 := by
        rw [Nat.toUInt8, Utf8.toNat_octet (Nat.mod_lt _ (by decide))]
      rw [ofNat, toNat_cons, ih, length_ofNat, Nat.pow_eq, hByte, Nat.mod_pow_succ, Nat.add_comm,
        Nat.mul_comm]

/-- Leading zeros do not count. -/
theorem toNat_dropWhile (bytes : List UInt8) : toNat (bytes.dropWhile (· = 0)) = toNat bytes := by
  induction bytes with
  | nil => rfl
  | cons b bytes ih =>
      rw [List.dropWhile_cons]
      split_ifs with hZero
      · rw [ih, toNat_cons, of_decide_eq_true hZero]
        simp
      · rfl

theorem toNat_eq_ofDigits (bytes : List UInt8) :
    toNat bytes = Nat.ofDigits 256 (bytes.map UInt8.toNat).reverse := by
  induction bytes with
  | nil => rfl
  | cons b bytes ih =>
      rw [toNat_cons, ih, List.map_cons, List.reverse_cons, Nat.ofDigits_append,
        Nat.ofDigits_singleton, List.length_reverse, List.length_map, Nat.add_comm, Nat.mul_comm]

/-- Bytes without a leading zero are the digits of their number. -/
theorem digits_toNat {bytes : List UInt8} (hHead : bytes.head? ≠ some 0) :
    Nat.digits 256 (toNat bytes) = (bytes.map UInt8.toNat).reverse := by
  rw [toNat_eq_ofDigits]
  refine Nat.digits_ofDigits 256 (by decide) _ (fun n hn => ?_) fun hSome => ?_
  · obtain ⟨b, -, rfl⟩ := List.mem_map.mp (List.mem_reverse.mp hn)
    exact b.toNat_lt
  · cases bytes with
    | nil => exact absurd rfl hSome
    | cons b bytes =>
        intro hZero
        apply hHead
        rw [List.getLast_reverse] at hZero
        exact congrArg some (UInt8.toNat_inj.mp hZero)

/-- A number has one row of bytes without a leading zero. -/
theorem eq_of_toNat_eq {bytes others : List UInt8} (hHead : bytes.head? ≠ some 0)
    (hOther : others.head? ≠ some 0) (hSame : toNat bytes = toNat others) : bytes = others := by
  have hDigits := digits_toNat hHead
  rw [hSame, digits_toNat hOther, List.reverse_inj] at hDigits
  exact (List.map_injective_iff.mpr fun _ _ => UInt8.toNat_inj.mp) hDigits.symm

theorem head?_dropWhile_ne (bytes : List UInt8) :
    (bytes.dropWhile (· = 0)).head? ≠ some 0 := by
  intro hZero
  have hNot := List.head?_dropWhile_not (· = 0) bytes
  rw [hZero] at hNot
  cases hNot

theorem toNat_lt (bytes : List UInt8) : toNat bytes < 256 ^ bytes.length := by
  induction bytes with
  | nil => simp [toNat]
  | cons b bytes ih =>
      have hByte := Nat.mul_le_mul_right (256 ^ bytes.length) (Nat.le_of_lt_succ b.toNat_lt)
      rw [toNat_cons, List.length_cons, pow_succ]
      omega

/-- Bytes beyond those that are written do not count. -/
theorem ofNat_mul_add (count k m : Nat) : ofNat count (k * 256 ^ count + m) = ofNat count m := by
  induction count generalizing k with
  | zero => rfl
  | succ count ih =>
      have hPower : 0 < 256 ^ count := Nat.pow_pos (by decide)
      rw [pow_succ', ← Nat.mul_assoc, ofNat, ofNat, ih, Nat.pow_eq, Nat.add_comm,
        Nat.add_mul_div_right _ _ hPower, Nat.add_mul_mod_self_right]

/-- Bytes are written for their number. -/
theorem ofNat_toNat (bytes : List UInt8) : ofNat bytes.length (toNat bytes) = bytes := by
  induction bytes with
  | nil => rfl
  | cons b bytes ih =>
      have hPower : 0 < 256 ^ bytes.length := Nat.pow_pos (by decide)
      rw [toNat_cons, List.length_cons, ofNat, ofNat_mul_add, ih, Nat.pow_eq, Nat.add_comm,
        Nat.add_mul_div_right _ _ hPower, Nat.div_eq_of_lt (toNat_lt bytes), Nat.zero_add,
        Nat.mod_eq_of_lt b.toNat_lt, Nat.toUInt8, UInt8.ofNat_toNat]

end BigEndian

namespace Hex

theorem digit_spec {n : Nat} (hn : n < 16) : (digit n).toNat < 128 ∧ isDigit (digit n) = true ∧
    digit? (UInt8.ofNat (digit n).toNat) = some n := by
  revert n
  decide

theorem encode_cons (b : UInt8) (bytes : List UInt8) :
    encode (b :: bytes) = digit (b.toNat / 16) :: digit (b.toNat % 16) :: encode bytes := rfl

theorem length_encode (bytes : List UInt8) : (encode bytes).length = 2 * bytes.length := by
  induction bytes with
  | nil => rfl
  | cons b bytes ih =>
      rw [encode_cons, List.length_cons, List.length_cons, ih, List.length_cons]
      omega

theorem isDigit_of_mem_encode {bytes : List UInt8} {c : Char} (hc : c ∈ encode bytes) :
    isDigit c = true := by
  obtain ⟨b, -, hDigit⟩ := List.mem_flatMap.mp hc
  have hHigh : b.toNat / 16 < 16 := by have := b.toNat_lt; omega
  have hLow : b.toNat % 16 < 16 := Nat.mod_lt _ (by decide)
  rcases List.mem_pair.mp hDigit with rfl | rfl
  · exact (digit_spec hHigh).2.1
  · exact (digit_spec hLow).2.1

theorem encode_octets (b : UInt8) (bytes : List UInt8) : Utf8.encode (encode (b :: bytes)) =
    UInt8.ofNat (digit (b.toNat / 16)).toNat :: UInt8.ofNat (digit (b.toNat % 16)).toNat ::
      Utf8.encode (encode bytes) := by
  have hHigh : b.toNat / 16 < 16 := by have := b.toNat_lt; omega
  have hLow : b.toNat % 16 < 16 := Nat.mod_lt _ (by decide)
  rw [encode_cons, Utf8.encode_cons_ascii (digit_spec hHigh).1,
    Utf8.encode_cons_ascii (digit_spec hLow).1]

theorem length_octets (bytes : List UInt8) :
    (Utf8.encode (encode bytes)).length = 2 * bytes.length := by
  induction bytes with
  | nil => rfl
  | cons b bytes ih =>
      rw [encode_octets, List.length_cons, List.length_cons, ih, List.length_cons]
      omega

theorem decodeFrom_encode (index : Nat) (acc bytes : List UInt8) :
    decodeFrom index acc (Utf8.encode (encode bytes)) = .ok (acc.reverse ++ bytes) := by
  induction bytes generalizing index acc with
  | nil =>
      rw [List.append_nil]
      rfl
  | cons b bytes ih =>
      have hHigh : b.toNat / 16 < 16 := by have := b.toNat_lt; omega
      have hLow : b.toNat % 16 < 16 := Nat.mod_lt _ (by decide)
      have hByte : (b.toNat / 16 * 16 + b.toNat % 16).toUInt8 = b := by
        rw [Nat.mul_comm, Nat.div_add_mod]
        exact UInt8.ofNat_toNat
      have hRead (i : Nat) {n : Nat} (hn : n < 16) :
          read i (UInt8.ofNat (digit n).toNat) = .ok n := by
        rw [read, (digit_spec hn).2.2]
      rw [encode_octets, decodeFrom, hRead _ hHigh, hRead _ hLow]
      change decodeFrom (index + 2) ((b.toNat / 16 * 16 + b.toNat % 16).toUInt8 :: acc) _ = _
      rw [hByte, ih, List.reverse_cons, List.append_assoc, List.singleton_append]

theorem decode_encode (bytes : List UInt8) : decode (Utf8.encode (encode bytes)) = .ok bytes := by
  rw [decode, if_neg, decodeFrom_encode]
  · rfl
  · rw [length_octets]
    omega

/-- The value of a hexadecimal digit of either case. -/
def digitValue (c : Char) : Nat :=
  if c.isDigit then c.toNat - 48 else if 'a' ≤ c then c.toNat - 87 else c.toNat - 55

/-- The number that a row of hexadecimal digits spells. -/
def value (text : List Char) : Nat := text.foldl (fun n c => n * 16 + digitValue c) 0

theorem digit?_of_isDigit {c : Char} (hDigit : isDigit c = true) : c.toNat < 128 ∧
    digitValue c < 16 ∧ digit? (UInt8.ofNat c.toNat) = some (digitValue c) := by
  have hRanges : (48 ≤ c.toNat ∧ c.toNat ≤ 57 ∨ 97 ≤ c.toNat ∧ c.toNat ≤ 102) ∨
      65 ≤ c.toNat ∧ c.toNat ≤ 70 := by
    simpa [isDigit, Char.isDigit, Char.le_def, UInt32.le_iff_toNat_le] using hDigit
  have hAscii : c.toNat < 128 := by omega
  have hAll : ∀ n < 128, isDigit (Char.ofNat n) = true → digitValue (Char.ofNat n) < 16 ∧
      digit? (UInt8.ofNat n) = some (digitValue (Char.ofNat n)) := by decide
  have hChar := hAll c.toNat hAscii
  rw [Char.ofNat_toNat] at hChar
  exact ⟨hAscii, hChar hDigit⟩

/-- Two digits make a byte, and the number goes on by as much as with the digits one by one. -/
theorem decodeFrom_digits {text : List Char} (hDigits : ∀ c ∈ text, isDigit c = true)
    (hEven : text.length % 2 = 0) (index : Nat) (acc : List UInt8) : ∃ bytes,
      decodeFrom index acc (text.map fun c => UInt8.ofNat c.toNat) = .ok (acc.reverse ++ bytes) ∧
      ∀ start, bytes.foldl (fun n b => n * 256 + b.toNat) start =
        text.foldl (fun n c => n * 16 + digitValue c) start := by
  induction text using List.twoStepInduction generalizing index acc with
  | nil => exact ⟨[], by simp [decodeFrom], by simp⟩
  | singleton c => simp at hEven
  | cons_cons a b rest ih =>
      simp only [List.forall_mem_cons] at hDigits
      obtain ⟨ha, hb, hRest⟩ := hDigits
      obtain ⟨-, hHigh, hReadHigh⟩ := digit?_of_isDigit ha
      obtain ⟨-, hLow, hReadLow⟩ := digit?_of_isDigit hb
      have hByte : (digitValue a * 16 + digitValue b).toUInt8.toNat =
          digitValue a * 16 + digitValue b := Utf8.toNat_octet (by omega)
      have hMore : rest.length % 2 = 0 := by
        simp only [List.length_cons] at hEven
        omega
      obtain ⟨bytes, hRead, hValue⟩ := ih hRest hMore (index + 2)
        ((digitValue a * 16 + digitValue b).toUInt8 :: acc)
      refine ⟨(digitValue a * 16 + digitValue b).toUInt8 :: bytes, ?_, fun start => ?_⟩
      · simp only [List.map_cons, decodeFrom, read, hReadHigh, hReadLow, bind, Except.bind, hRead,
          List.reverse_cons, List.append_assoc, List.singleton_append]
      · simp only [List.foldl_cons, hValue, hByte]
        congr 1
        omega

/-- An even number of digits is read, as bytes of the number that they spell. -/
theorem decode_digits {text : List Char} (hDigits : ∀ c ∈ text, isDigit c = true)
    (hEven : text.length % 2 = 0) :
    ∃ bytes, decode (Utf8.encode text) = .ok bytes ∧ BigEndian.toNat bytes = value text := by
  obtain ⟨bytes, hRead, hValue⟩ := decodeFrom_digits hDigits hEven 0 []
  refine ⟨bytes, ?_, hValue 0⟩
  rw [Utf8.encode_ascii fun c hc => (digit?_of_isDigit (hDigits c hc)).1, decode, hRead,
    List.length_map, hEven]
  rfl

theorem encode_injective {bytes others : List UInt8} (h : encode bytes = encode others) :
    bytes = others := by
  have hDecode := decode_encode bytes
  rw [h, decode_encode] at hDecode
  exact (Except.ok.inj hDecode).symm

/-- A character is a digit if it is one in lower case, and a decimal digit has one case. -/
theorem digit_of_toLower {c : Char} (h : isDigit c.toLower = true) :
    isDigit c = true ∧ (c.toLower.isDigit = true → c = c.toLower) := by
  by_cases hAscii : c.toNat < 128
  · have hAll : ∀ n < 128, isDigit (Char.ofNat n).toLower = true → isDigit (Char.ofNat n) = true ∧
        ((Char.ofNat n).toLower.isDigit = true → Char.ofNat n = (Char.ofNat n).toLower) := by decide
    have hChar := hAll c.toNat hAscii
    rw [Char.ofNat_toNat] at hChar
    exact hChar h
  · have hSame : c.toLower = c := by
      refine dif_neg fun hLetter => ?_
      have hMost : c.toNat ≤ 90 := hLetter.2
      omega
    rw [hSame] at h ⊢
    exact ⟨h, fun _ => rfl⟩

theorem eq_digit_of_toLower {c : Char} {n : Nat} (hn : n < 10) (h : c.toLower = digit n) :
    c = digit n := by
  have hDecimal : ∀ m < 10, isDigit (digit m) = true ∧ (digit m).isDigit = true := by decide
  obtain ⟨hDigit, hOne⟩ := hDecimal n hn
  rw [← h] at hDigit hOne ⊢
  exact (digit_of_toLower hDigit).2 hOne

/-- An octet that is read is a digit of either case of its value. -/
theorem toLower_of_digit? {b : UInt8} {n : Nat} (h : digit? b = some n) :
    b.toNat < 128 ∧ n < 16 ∧ (Char.ofNat b.toNat).toLower = digit n := by
  have hAll : ∀ m < 103, ∀ k ∈ digit? (UInt8.ofNat m),
      k < 16 ∧ (Char.ofNat m).toLower = digit k := by decide
  have hLess : b.toNat < 103 := by
    simp only [digit?, UInt8.le_iff_toNat_le] at h
    split_ifs at h with hDecimal hSmall hLarge
    · exact hDecimal.2.trans_lt (by decide)
    · exact hSmall.2.trans_lt (by decide)
    · exact hLarge.2.trans_lt (by decide)
  have hDigit := hAll b.toNat hLess
  rw [UInt8.ofNat_toNat] at hDigit
  exact ⟨hLess.trans (by decide), hDigit n h⟩

theorem digit?_of_read {index : Nat} {b : UInt8} {n : Nat} (h : read index b = .ok n) :
    digit? b = some n := by
  unfold read at h
  split at h
  next hDigit => rw [hDigit, Except.ok.inj h]
  next => cases h

/-- Octets that are read are, in lower case, the text of the bytes that they are read as. -/
theorem exists_of_decodeFrom {index : Nat} {acc bytes octets : List UInt8}
    (h : decodeFrom index acc octets = .ok bytes) : ∃ more, bytes = acc.reverse ++ more ∧
      (∀ b ∈ octets, b.toNat < 128) ∧
      (octets.map fun b => Char.ofNat b.toNat).map Char.toLower = encode more := by
  induction octets using List.twoStepInduction generalizing index acc with
  | nil => exact ⟨[], by simpa using (Except.ok.inj h).symm, by simp, rfl⟩
  | singleton b => cases h
  | cons_cons a b rest ih =>
      obtain ⟨high, hHigh, h⟩ := Except.bind_eq_ok_iff.mp h
      obtain ⟨low, hLow, h⟩ := Except.bind_eq_ok_iff.mp h
      obtain ⟨ha, hHighLess, hHighText⟩ := toLower_of_digit? (digit?_of_read hHigh)
      obtain ⟨hb, hLowLess, hLowText⟩ := toLower_of_digit? (digit?_of_read hLow)
      obtain ⟨more, rfl, hAscii, hText⟩ := ih h
      have hByte : (high * 16 + low).toUInt8.toNat = high * 16 + low := Utf8.toNat_octet (by omega)
      refine ⟨(high * 16 + low).toUInt8 :: more, by simp, by simpa using ⟨ha, hb, hAscii⟩, ?_⟩
      rw [encode_cons, hByte, show (high * 16 + low) / 16 = high by omega,
        show (high * 16 + low) % 16 = low by omega, ← hText, ← hHighText, ← hLowText]
      rfl

/-- A text is read if and only if it is, in lower case, the text of the bytes that it is read as. -/
theorem decode_eq_ok_iff {text : List Char} {bytes : List UInt8} :
    decode (Utf8.encode text) = .ok bytes ↔ text.map Char.toLower = encode bytes := by
  have hForward {bytes : List UInt8} (h : decode (Utf8.encode text) = .ok bytes) :
      text.map Char.toLower = encode bytes := by
    rw [decode] at h
    split_ifs at h
    obtain ⟨more, rfl, hAscii, hLower⟩ := exists_of_decodeFrom h
    rw [Utf8.eq_of_octets hAscii, hLower]
  refine ⟨hForward, fun hLower => ?_⟩
  have hDigits : ∀ c ∈ text, isDigit c = true := fun c hc =>
    (digit_of_toLower (isDigit_of_mem_encode (hLower ▸ List.mem_map_of_mem hc))).1
  have hLength : text.length = 2 * bytes.length := by
    rw [← length_encode, ← hLower, List.length_map]
  obtain ⟨others, hRead, -⟩ := decode_digits hDigits (by omega)
  rw [hRead, encode_injective ((hForward hRead).symm.trans hLower)]

end Hex

theorem Utf8.utf8ByteSize_ofList (text : List Char) :
    (String.ofList text).utf8ByteSize = (Utf8.encode text).length := by
  simp [String.utf8ByteSize, List.utf8Encode, Utf8.encode]

end LedgerSigning
