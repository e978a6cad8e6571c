import LedgerSigning.Curve.Der
import LedgerSigning.Proofs.Bytes.Hex

/-! Signatures as bytes are read back, and nothing else is read. The body of an integer is minimal
and shorter than 128 bytes, so that the strict reader accepts what was written; and a minimal body
is the one that was written for its number. -/
namespace LedgerSigning

namespace Der

/-- Leading zeros are dropped, and one is put back where the highest bit is set. -/
theorem integerBody_spec {n : Nat} (hn : n < 256 ^ 32) :
    BigEndian.toNat (integerBody n) = n ∧ isMinimal (integerBody n) = true ∧
      (integerBody n).length ≤ 33 := by
  have hValue : BigEndian.toNat ((BigEndian.ofNat 32 n).dropWhile (· = 0)) = n := by
    rw [BigEndian.toNat_dropWhile, BigEndian.toNat_ofNat, Nat.mod_eq_of_lt hn]
  have hLength : ((BigEndian.ofNat 32 n).dropWhile (· = 0)).length ≤ 32 := by
    have hSuffix := (List.dropWhile_suffix (l := BigEndian.ofNat 32 n) (· = 0)).length_le
    rwa [BigEndian.length_ofNat] at hSuffix
  have hHead : ∀ b ∈ ((BigEndian.ofNat 32 n).dropWhile (· = 0)).head?, b ≠ 0 := by
    rintro b hb rfl
    exact BigEndian.head?_dropWhile_ne _ hb
  unfold integerBody
  generalize (BigEndian.ofNat 32 n).dropWhile (· = 0) = body at *
  cases body with
  | nil => exact ⟨hValue, rfl, by decide⟩
  | cons b rest =>
      have hb : b ≠ 0 := hHead b rfl
      dsimp only
      split_ifs with hLow
      · refine ⟨hValue, ?_, by omega⟩
        cases rest <;> simp [isMinimal, hLow, hb]
      · refine ⟨?_, ?_, by rw [List.length_cons]; omega⟩
        · rw [BigEndian.toNat_cons, hValue]
          simp
        · simp [isMinimal, UInt8.not_lt.mp hLow]

theorem field?_field (tag : UInt8) {body : List UInt8} (hLength : body.length < 128)
    (rest : List UInt8) : field? tag (field tag body ++ rest) = some (body, rest) := by
  have hByte : (body.length.toUInt8).toNat = body.length := by
    rw [Nat.toUInt8, Utf8.toNat_octet (by omega)]
  have hShort : body.length.toUInt8 < 0x80 := by
    rw [UInt8.lt_iff_toNat_lt, hByte]
    exact hLength
  rw [field, List.cons_append, List.cons_append, field?, if_pos, hByte, List.take_left,
    List.drop_left]
  exact ⟨rfl, hShort, by rw [hByte, List.length_append]; omega⟩

theorem integer?_field {n : Nat} (hn : n < 256 ^ 32) (rest : List UInt8) :
    integer? (field 0x02 (integerBody n) ++ rest) = some (n, rest) := by
  obtain ⟨hValue, hMinimal, hLength⟩ := integerBody_spec hn
  rw [integer?, field?_field 0x02 (by omega)]
  simp [hValue, hMinimal]

theorem bits_of_inRange {sig : Signature} (h : sig.inRange = true) :
    sig.r < 256 ^ 32 ∧ sig.s < 256 ^ 32 := by
  have hBits : Curve.n < 256 ^ 32 := by decide
  simp only [Signature.inRange, Bool.and_eq_true, decide_eq_true_eq] at h
  omega

/-- A signature is read from its bytes if it is in range. -/
theorem decode?_encode {sig : Signature} (h : sig.inRange = true) :
    decode? (encode sig) = some sig := by
  obtain ⟨hr, hs⟩ := bits_of_inRange h
  have hFirst := integer?_field hr (field 0x02 (integerBody sig.s))
  have hSecond := integer?_field hs []
  rw [List.append_nil] at hSecond
  have hLength :
      (field 0x02 (integerBody sig.r) ++ field 0x02 (integerBody sig.s)).length < 128 := by
    have hrLength := (integerBody_spec hr).2.2
    have hsLength := (integerBody_spec hs).2.2
    simp only [field, List.length_append, List.length_cons]
    omega
  have hOuter := field?_field 0x30 hLength []
  rw [List.append_nil] at hOuter
  simp [decode?, encode, hOuter, hFirst, hSecond, h]

/-- A minimal body is the one that is written for its number. -/
theorem eq_integerBody {body : List UInt8} (hMinimal : isMinimal body = true)
    (hRange : BigEndian.toNat body < 256 ^ 32) : body = integerBody (BigEndian.toNat body) := by
  have hSame : (BigEndian.ofNat 32 (BigEndian.toNat body)).dropWhile (· = 0) =
      body.dropWhile (· = 0) := by
    refine BigEndian.eq_of_toNat_eq (BigEndian.head?_dropWhile_ne _)
      (BigEndian.head?_dropWhile_ne _) ?_
    rw [BigEndian.toNat_dropWhile, BigEndian.toNat_dropWhile, BigEndian.toNat_ofNat,
      Nat.mod_eq_of_lt hRange]
  rw [integerBody, hSame]
  match body, hMinimal with
  | [b], hLow =>
      have hShort : b < 0x80 := of_decide_eq_true hLow
      rw [List.dropWhile_cons, List.dropWhile_nil]
      split_ifs with hZero
      · rw [of_decide_eq_true hZero]
      · simp only [if_pos hShort]
  | b :: c :: rest, hMinimal =>
      rw [isMinimal] at hMinimal
      by_cases hZero : b = 0
      · -- After a leading zero the highest bit is set, so this byte is no zero.
        have hHigh : 0x80 ≤ c := by simpa [hZero] using hMinimal
        have hOther : ¬c = 0 := by
          rintro rfl
          exact absurd hHigh (by decide)
        rw [List.dropWhile_cons, if_pos (by simpa using hZero), List.dropWhile_cons,
          if_neg (by simpa using hOther), hZero]
        simp only [if_neg (UInt8.not_lt.mpr hHigh)]
      · have hShort : b < 0x80 := by simpa [hZero] using hMinimal
        rw [List.dropWhile_cons, if_neg (by simpa using hZero)]
        simp only [if_pos hShort]

/-- A field is read if and only if it was written with this tag and a short body. -/
theorem field?_eq_some_iff {tag : UInt8} {bytes body rest : List UInt8} :
    field? tag bytes = some (body, rest) ↔ bytes = field tag body ++ rest ∧ body.length < 128 := by
  refine ⟨fun h => ?_, fun ⟨hBytes, hLength⟩ => hBytes ▸ field?_field tag hLength rest⟩
  match bytes with
  | [] => cases h
  | [_] => cases h
  | t :: length :: more =>
      rw [field?] at h
      split_ifs at h with hFits
      obtain ⟨rfl, hShort, hWhole⟩ := hFits
      obtain ⟨rfl, rfl⟩ := Prod.mk.inj (Option.some.inj h)
      have hLength : (more.take length.toNat).length = length.toNat := by
        rw [List.length_take, Nat.min_eq_left hWhole]
      rw [field, hLength, Nat.toUInt8, UInt8.ofNat_toNat]
      exact ⟨by simp, UInt8.lt_iff_toNat_lt.mp hShort⟩

/-- An integer in range is read if and only if its field was written. -/
theorem integer?_eq_some_iff {bytes rest : List UInt8} {n : Nat} (hRange : n < 256 ^ 32) :
    integer? bytes = some (n, rest) ↔ bytes = field 0x02 (integerBody n) ++ rest := by
  refine ⟨fun h => ?_, fun h => h ▸ integer?_field hRange rest⟩
  obtain ⟨⟨body, more⟩, hField, h⟩ := Option.bind_eq_some_iff.mp h
  dsimp only at h
  split_ifs at h with hMinimal
  cases h
  rw [(field?_eq_some_iff.mp hField).1, ← eq_integerBody hMinimal hRange]

/-- Bytes are read as a signature if and only if they are those that are written for it, and it is
in range. -/
theorem decode?_eq_some_iff {bytes : List UInt8} {sig : Signature} :
    decode? bytes = some sig ↔ bytes = encode sig ∧ sig.inRange = true := by
  refine ⟨fun h => ?_, fun ⟨hBytes, hRange⟩ => hBytes ▸ decode?_encode hRange⟩
  simp only [decode?, Option.bind_eq_bind, Option.bind_eq_some_iff, Prod.exists] at h
  obtain ⟨body, rest, hBody, r, first, hFirst, s, second, hSecond, h⟩ := h
  split_ifs at h with hWhole
  cases h
  simp only [Bool.and_eq_true, List.isEmpty_iff] at hWhole
  obtain ⟨⟨rfl, rfl⟩, hRange⟩ := hWhole
  obtain ⟨hr, hs⟩ := bits_of_inRange hRange
  rw [integer?_eq_some_iff hr] at hFirst
  rw [integer?_eq_some_iff hs, List.append_nil] at hSecond
  rw [(field?_eq_some_iff.mp hBody).1, List.append_nil, hFirst, hSecond]
  exact ⟨rfl, hRange⟩

end Der

end LedgerSigning
