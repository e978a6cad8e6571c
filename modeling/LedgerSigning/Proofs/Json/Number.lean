import LedgerSigning.Json.Canonical
import LedgerSigning.Proofs.Json.Numeral

/-! JSON numbers up to the binary64 number they denote. A written number is read as one that
denotes the same, and canonical texts of numbers agree exactly when the numbers denote the
same. -/
namespace LedgerSigning

open Reader

namespace Binary64

/-- Zero without its sign, and every other number as it is. -/
def unsignedZero (x : Binary64) : Binary64 := if x.code = 0 then zero false else x

theorem ext {x y : Binary64} (hSign : x.negative = y.negative) (hCode : x.code = y.code) :
    x = y := by
  cases x
  cases y
  simp_all

theorem unsignedZero_zero {x : Binary64} (hCode : x.code = 0) : x.unsignedZero = zero false :=
  if_pos hCode

theorem unsignedZero_of_pos {x : Binary64} (hCode : 0 < x.code) : x.unsignedZero = x :=
  if_neg hCode.ne'

@[simp] theorem unsignedZero_code (x : Binary64) : x.unsignedZero.code = x.code := by
  unfold unsignedZero
  split_ifs with hZero
  · exact hZero.symm
  · rfl

/-- The sign of a number matters unless the number is zero. -/
theorem unsignedZero_congr {x y : Binary64} (hCode : x.code = y.code)
    (hSign : 0 < x.code → x.negative = y.negative) : x.unsignedZero = y.unsignedZero := by
  rcases Nat.eq_zero_or_pos x.code with hZero | hPos
  · rw [unsignedZero_zero hZero, unsignedZero_zero (hCode ▸ hZero)]
  · rw [unsignedZero_of_pos hPos, unsignedZero_of_pos (hCode ▸ hPos)]
    exact ext (hSign hPos) hCode

@[simp] theorem ofInt_negative (n : Int) : (ofInt n).negative = decide (n < 0) := rfl

theorem codeNear_pos_of_one_le {v : ℚ} (hOne : 1 ≤ v) : 0 < codeNear v := by
  have hMono := codeNear_mono (by norm_num) hOne
  have hUnit : value (codeNear ((1 : Nat) : ℚ)) = (1 : Nat) := value_codeNear_natCast (by norm_num)
  rw [Nat.cast_one] at hUnit
  by_contra hZero
  have hCode : codeNear 1 = 0 := by omega
  rw [hCode] at hUnit
  rw [value_zero] at hUnit
  norm_num at hUnit

/-- The number of an integer has no signed zero. -/
@[simp] theorem ofInt_unsignedZero (n : Int) : (ofInt n).unsignedZero = ofInt n := by
  rcases eq_or_ne n 0 with rfl | hNonzero
  · have hCode : (ofInt 0).code = 0 := by simp [ofInt_code]
    rw [unsignedZero_zero hCode]
    exact ext rfl hCode.symm
  · apply unsignedZero_of_pos
    rw [ofInt_code]
    exact codeNear_pos_of_one_le (by exact_mod_cast Nat.one_le_iff_ne_zero.mpr (by omega))

end Binary64

namespace Number

/-- The binary64 number that a JSON number denotes; zero has no sign. -/
def double : Number → Binary64
  | .integer n _ => .ofInt n
  | .float x _ => x.unsignedZero

/-- Whether a number has a canonical text: integers must be exact in binary64. -/
def Safe : Number → Prop
  | .integer n _ => n.natAbs ≤ Json.maxSafe
  | .float _ _ => True

/-- The token that the text of a number in a layout is read as. -/
def token (l : Layout) : Number → Tree
  | .integer n _ => .integer (n < 0) n.natAbs
  | .float x _ =>
    if x.code = 0 then
      if l.pointed then .decimal (x.negative && l.signsZero) 0 (-1)
      else .integer (x.negative && l.signsZero) 0
    else l.token x.negative (l.digitsOf x.code) (l.pointOf x.code)

end Number

/-- The number that a token is read as. -/
def Tree.number? : Tree → Option Number
  | .integer negative magnitude => Number.ofInteger? negative magnitude
  | .decimal negative significand exponent => Number.ofDecimal? negative significand exponent
  | _ => none

namespace Layout

/-- The text of a finite number other than zero. -/
theorem text_of_pos (l : Layout) {x : Binary64} (hFinite : x.isFinite = true) (hPos : 0 < x.code) :
    l.text x = (if x.negative then ['-'] else []) ++ l.magnitude x.code := by
  have hCode := Binary64.code_lt_of_isFinite hFinite
  have hNaN : x.isNaN = false := by
    simp only [Binary64.isNaN, decide_eq_false_iff_not]
    omega
  rw [text, hNaN]
  simp [hFinite, hPos.ne']

/-- The text of either zero. -/
theorem text_of_zero (l : Layout) {x : Binary64} (hCode : x.code = 0) :
    l.text x = (if x.negative && l.signsZero then ['-'] else []) ++
      '0' :: (if l.pointed then ['.', '0'] else []) := by
  have hNaN : x.isNaN = false := by simp [Binary64.isNaN, hCode]
  have hFinite : x.isFinite = true := by simp [Binary64.isFinite, hCode, Binary64.infinityCode,
    Binary64.fractions]
  rw [text, hNaN]
  simp [hFinite, hCode, magnitude]

end Layout

namespace Reader

/-- A text that is read without its sign starts with a digit. -/
theorem unsigned?_head {negative : Bool} {text : List Char}
    (hSome : (unsigned? negative text).isSome) : ∃ c rest, text = c :: rest ∧ c.isDigit = true := by
  cases text with
  | nil => simp [unsigned?, whole?, row?] at hSome
  | cons c rest =>
      refine ⟨c, rest, rfl, ?_⟩
      by_contra hDigit
      have hZero : c ≠ '0' := fun hEq => hDigit (by rw [hEq]; rfl)
      have hRow : row? (c :: rest) = none := by simp [row?, hDigit]
      have hWhole : whole? (c :: rest) = none := by
        rw [whole?, hRow]
        intro tail hEq
        exact hZero (List.cons.inj hEq).1
      simp [unsigned?, hWhole] at hSome

theorem numeral?_of_digit {text : List Char} (hHead : ∀ c ∈ text.head?, c ≠ '-') :
    numeral? text = unsigned? false text := by
  unfold numeral?
  split
  · exact absurd rfl (hHead '-' (by simp))
  · rfl

/-- A sign before digits is read as the sign of their token. -/
theorem numeral?_signed {negative : Bool} {text : List Char} {token : Tree × List Char}
    (hRead : unsigned? negative text = some token) :
    numeral? ((if negative then ['-'] else []) ++ text) = some token := by
  cases negative with
  | true => exact hRead
  | false =>
      rw [← hRead, if_neg (by simp), List.nil_append]
      apply numeral?_of_digit
      obtain ⟨c, rest, rfl, hDigit⟩ := unsigned?_head (hRead ▸ rfl : (unsigned? false text).isSome)
      intro d hd
      obtain rfl : c = d := by simpa using hd
      rintro rfl
      exact absurd hDigit (by decide)

theorem ofInt_eq (n : Int) :
    Numeral.ofInt n = (if n < 0 then ['-'] else []) ++ Nat.toDigits 10 n.natAbs := by
  unfold Numeral.ofInt Numeral.ofNat
  split_ifs <;> rfl

/-- Digits of a natural number are a zero alone or start with no zero. -/
theorem toDigits_lead (n : Nat) :
    Nat.toDigits 10 n = ['0'] ∨ (Nat.toDigits 10 n).head? ≠ some '0' := by
  rcases Nat.eq_zero_or_pos n with rfl | hPos
  · exact .inl rfl
  · exact .inr (Numeral.head?_toDigits (by decide) hPos)

theorem numeral?_ofInt (n : Int) {rest : List Char} (hEnds : Ends rest) :
    numeral? (Numeral.ofInt n ++ rest) = some (.integer (n < 0) n.natAbs, rest) := by
  have hRead := unsigned?_integer (decide (n < 0)) (isRow_toDigits n.natAbs)
    (toDigits_lead n.natAbs) hEnds
  rw [Nat.ofDigitChars_ten_toDigits] at hRead
  rw [ofInt_eq, List.append_assoc]
  simpa using numeral?_signed hRead

/-- The text of a zero. -/
theorem unsigned?_zero (negative pointed : Bool) {rest : List Char} (hEnds : Ends rest) :
    unsigned? negative ('0' :: (if pointed then ['.', '0'] else []) ++ rest) =
      some (if pointed then .decimal negative 0 (-1) else .integer negative 0, rest) := by
  have hZero : IsRow ['0'] := ⟨by simp, by simp⟩
  cases pointed with
  | true => exact unsigned?_point negative hZero (.inl rfl) hZero hEnds
  | false => exact unsigned?_integer negative hZero (.inl rfl) hEnds

/-- The text of a number is read as its token, whatever follows it that cannot continue it. -/
theorem numeral?_number {l : Layout} (hBounded : l.Bounded) (n : Number) {rest : List Char}
    (hEnds : Ends rest) : numeral? (Writer.number l n ++ rest) = some (n.token l, rest) := by
  cases n with
  | integer n range => exact numeral?_ofInt n hEnds
  | float x finite =>
      have hCode := (Binary64.code_lt_of_isFinite finite).le
      simp only [Writer.number, Number.token]
      rcases Nat.eq_zero_or_pos x.code with hZero | hPos
      · rw [Layout.text_of_zero l hZero, if_pos hZero, List.append_assoc]
        exact numeral?_signed (unsigned?_zero (x.negative && l.signsZero) l.pointed hEnds)
      · rw [Layout.text_of_pos l finite hPos, if_neg hPos.ne', List.append_assoc]
        exact numeral?_signed (Layout.unsigned?_magnitude l x.negative hBounded hCode hPos hEnds)

/-- The text of a number starts with a minus sign or a digit. -/
theorem number_head {l : Layout} (hBounded : l.Bounded) (n : Number) :
    ∃ c rest, Writer.number l n = c :: rest ∧ (c = '-' ∨ c.isDigit = true) := by
  have hRead := numeral?_number hBounded n ends_nil
  rw [List.append_nil] at hRead
  generalize Writer.number l n = text at hRead
  cases text with
  | nil => simp [numeral?, unsigned?, whole?, row?] at hRead
  | cons c rest =>
      refine ⟨c, rest, rfl, ?_⟩
      by_cases hMinus : c = '-'
      · exact .inl hMinus
      · rw [numeral?_of_digit (by simpa using hMinus)] at hRead
        obtain ⟨d, tail, hEq, hDigit⟩ := unsigned?_head (hRead ▸ rfl :
          (unsigned? false (c :: rest)).isSome)
        rw [(List.cons.inj hEq).1]
        exact .inr hDigit

end Reader

namespace Number

theorem double_integer (n : Int) (range : -0x8000000000000000 ≤ n ∧ n < 0x10000000000000000) :
    (integer n range).double = .ofInt n := rfl

theorem ofBinary64?_eq {x : Binary64} (hFinite : x.isFinite = true) :
    ofBinary64? x = some (.float x hFinite) := dif_pos hFinite

theorem ofInt?_eq {n : Int} (range : -0x8000000000000000 ≤ n ∧ n < 0x10000000000000000) :
    ofInt? n = some (.integer n range) := dif_pos range

/-- Reading an integer token gives the nearest number to its value, be it a float or not. -/
theorem ofInteger?_double (negative : Bool) (magnitude : Nat)
    (hFinite : Binary64.codeNear magnitude < Binary64.infinityCode) :
    ∃ n, ofInteger? negative magnitude = some n ∧
      n.double = (Binary64.ofDecimal negative magnitude 0).unsignedZero := by
  have hCode : (Binary64.ofDecimal negative magnitude 0).code = Binary64.codeNear magnitude := by
    rw [Binary64.ofDecimal_code, zpow_zero, mul_one]
  have hFloat : (Binary64.ofDecimal negative magnitude 0).isFinite = true := by
    simpa [Binary64.isFinite, hCode] using hFinite
  have hAbs : (if negative then -(magnitude : Int) else magnitude).natAbs = magnitude := by
    split_ifs <;> omega
  have hSign (hPos : magnitude ≠ 0) :
      decide ((if negative then -(magnitude : Int) else magnitude) < 0) = negative := by
    cases negative with
    | true =>
        simp only [if_true, decide_eq_true_eq]
        omega
    | false => simp
  unfold ofInteger?
  simp only
  generalize (if negative then -(magnitude : Int) else magnitude) = n at *
  split_ifs with hMinus
  · obtain ⟨-, rfl⟩ := hMinus
    refine ⟨.float (.zero true) (by decide), rfl, ?_⟩
    rw [Binary64.unsignedZero_zero (by simp [hCode])]
    rfl
  · by_cases range : -0x8000000000000000 ≤ n ∧ n < 0x10000000000000000
    · refine ⟨.integer n range, by rw [ofInt?_eq range]; rfl, ?_⟩
      rw [double_integer, ← Binary64.ofInt_unsignedZero]
      apply Binary64.unsignedZero_congr
      · rw [Binary64.ofInt_code, hCode, hAbs]
      · intro hPos
        rw [Binary64.ofInt_negative, Binary64.ofDecimal_negative]
        apply hSign
        rintro rfl
        simp [Binary64.ofInt_code, hAbs] at hPos
    · refine ⟨.float _ hFloat, ?_, rfl⟩
      rw [ofInt?, dif_neg range, ofBinary64?_eq hFloat]
      rfl

/-- A token that denotes a finite value is read as the number nearest to it. -/
theorem double_of_denotes {t : Tree} {negative : Bool} {v : ℚ} (hDenotes : t.Denotes negative v)
    (hFinite : Binary64.codeNear v < Binary64.infinityCode) :
    ∃ n, t.number? = some n ∧ n.double.code = Binary64.codeNear v ∧
      (0 < Binary64.codeNear v → n.double.negative = negative) := by
  cases t with
  | integer sign magnitude =>
      obtain ⟨rfl, rfl⟩ := hDenotes
      obtain ⟨n, hRead, hDouble⟩ := ofInteger?_double sign magnitude hFinite
      have hCode : (Binary64.ofDecimal sign magnitude 0).code = Binary64.codeNear magnitude := by
        rw [Binary64.ofDecimal_code, zpow_zero, mul_one]
      refine ⟨n, hRead, by rw [hDouble, Binary64.unsignedZero_code, hCode], fun hPos => ?_⟩
      rw [hDouble, Binary64.unsignedZero_of_pos (hCode ▸ hPos), Binary64.ofDecimal_negative]
  | decimal sign significand exponent =>
      obtain ⟨rfl, rfl⟩ := hDenotes
      have hCode := Binary64.ofDecimal_code sign significand exponent
      have hFloat : (Binary64.ofDecimal sign significand exponent).isFinite = true := by
        simpa [Binary64.isFinite, hCode] using hFinite
      refine ⟨_, ofBinary64?_eq hFloat, ?_, fun hPos => ?_⟩
      · rw [double, Binary64.unsignedZero_code, hCode]
      · rw [double, Binary64.unsignedZero_of_pos (hCode ▸ hPos), Binary64.ofDecimal_negative]
  | _ => exact hDenotes.elim

/-- An integer is read back as it is. -/
theorem token_integer (l : Layout) (n : Int)
    (range : -0x8000000000000000 ≤ n ∧ n < 0x10000000000000000) :
    ((integer n range).token l).number? = some (.integer n range) := by
  have hValue : (if decide (n < 0) then -(n.natAbs : Int) else n.natAbs) = n := by
    simp only [decide_eq_true_eq]
    split_ifs <;> omega
  have hMinus : ¬(decide (n < 0) = true ∧ n.natAbs = 0) := by
    simp only [decide_eq_true_eq]
    omega
  simp only [token, Tree.number?, ofInteger?, hValue]
  rw [if_neg hMinus, ofInt?_eq range]
  rfl

/-- The token of a float other than zero denotes its shortest decimal. -/
theorem token_float_denotes (l : Layout) {x : Binary64} (hFinite : x.isFinite = true)
    (hPos : 0 < x.code) : ((float x hFinite).token l).Denotes x.negative
      (Decimal.shortest l.ties x.code).value := by
  have hCode := Binary64.code_lt_of_isFinite hFinite
  rw [token, if_neg hPos.ne', ← Layout.digitsOf_value l hCode.le hPos]
  exact Layout.token_denotes l x.negative _ _

/-- What is read from the text of a number denotes the same as the number. -/
theorem token_double (l : Layout) (n : Number) :
    ∃ m, (n.token l).number? = some m ∧ m.double = n.double := by
  cases n with
  | integer n range => exact ⟨.integer n range, token_integer l n range, rfl⟩
  | float x finite =>
      have hCode := Binary64.code_lt_of_isFinite finite
      rcases Nat.eq_zero_or_pos x.code with hZero | hPos
      · have hDenotes : ((float x finite).token l).Denotes (x.negative && l.signsZero) 0 := by
          rw [token, if_pos hZero]
          split_ifs <;> simp [Tree.Denotes]
        obtain ⟨m, hRead, hDouble, -⟩ := double_of_denotes hDenotes (by simp; decide)
        refine ⟨m, hRead, ?_⟩
        rw [Binary64.codeNear_zero] at hDouble
        have hUnsigned : m.double = m.double.unsignedZero := by
          cases m with
          | integer n range => exact (Binary64.ofInt_unsignedZero n).symm
          | float y _ =>
              rw [double, Binary64.unsignedZero_code] at hDouble
              simp only [double, Binary64.unsignedZero_zero hDouble]
              rfl
        rw [hUnsigned, double, Binary64.unsignedZero_zero hZero, Binary64.unsignedZero_zero hDouble]
      · have hNear := (Decimal.shortest_spec l.ties hCode.le hPos).1
        have hFinite : Binary64.codeNear (Decimal.shortest l.ties x.code).value <
            Binary64.infinityCode := by
          rw [hNear]
          exact hCode
        obtain ⟨m, hRead, hDouble, hSign⟩ :=
          double_of_denotes (token_float_denotes l finite hPos) hFinite
        rw [hNear] at hDouble hSign
        refine ⟨m, hRead, ?_⟩
        rw [double, Binary64.unsignedZero_of_pos hPos]
        exact Binary64.ext (hSign hPos) hDouble

/-- Numbers with one text denote the same. -/
theorem double_eq_of_text_eq {l : Layout} (hBounded : l.Bounded) {m n : Number}
    (hText : Writer.number l m = Writer.number l n) : m.double = n.double := by
  have hm := Reader.numeral?_number hBounded m Reader.ends_nil
  have hn := Reader.numeral?_number hBounded n Reader.ends_nil
  rw [hText, hn] at hm
  have hToken : n.token l = m.token l := (Prod.mk.inj (Option.some.inj hm)).1
  obtain ⟨m', hReadM, hDoubleM⟩ := token_double l m
  obtain ⟨n', hReadN, hDoubleN⟩ := token_double l n
  rw [hToken, hReadM] at hReadN
  rw [← hDoubleM, ← hDoubleN, Option.some.inj hReadN]

end Number

/-- A token that denotes a finite value is read as the binary64 number nearest to it. -/
theorem Tree.binary64?_of_denotes {t : Tree} {x : Binary64} {v : ℚ}
    (hDenotes : t.Denotes x.negative v) (hCode : x.code = Binary64.codeNear v)
    (hFinite : Binary64.codeNear v < Binary64.infinityCode) : t.binary64? = some x := by
  have hRead (digits : Nat) (exponent : Int) (hValue : (digits : ℚ) * 10 ^ exponent = v) :
      (Binary64.ofDecimal x.negative digits exponent).finite? = some x := by
    have hSame : Binary64.ofDecimal x.negative digits exponent = x := by
      apply Binary64.ext (Binary64.ofDecimal_negative ..)
      rw [Binary64.ofDecimal_code, hValue, hCode]
    have hLess : x.isFinite = true := by simpa [Binary64.isFinite, hCode] using hFinite
    rw [hSame, Binary64.finite?, if_pos hLess]
  cases t with
  | integer sign magnitude =>
      obtain ⟨rfl, hValue⟩ := hDenotes
      exact hRead magnitude 0 (by rw [zpow_zero, mul_one, hValue])
  | decimal sign significand exponent =>
      obtain ⟨rfl, hValue⟩ := hDenotes
      exact hRead significand exponent hValue
  | _ => exact hDenotes.elim

/-- A zero after the digits of a positive number multiplies it by ten. -/
theorem toDigits_mul_ten_pow {n : Nat} (hn : 0 < n) (zeros : Nat) :
    Nat.toDigits 10 (n * 10 ^ zeros) = Nat.toDigits 10 n ++ List.replicate zeros '0' := by
  induction zeros with
  | zero => simp
  | succ zeros ih =>
      have hPos : 0 < n * 10 ^ zeros := Nat.mul_pos hn (Nat.pow_pos (by decide))
      rw [Nat.pow_succ, ← Nat.mul_assoc, Nat.toDigits_of_base_le (by decide) (by omega),
        Nat.mul_div_cancel _ (by decide), Nat.mul_mod_left, ih, List.replicate_succ',
        List.append_assoc]
      rfl

namespace Layout

theorem isPositional_canonical (point : Int) :
    canonical.isPositional point = true ↔ -6 < point ∧ point ≤ 21 := by
  simp [isPositional, canonical]

/-- Whole decimals of at most 21 digits are written without point and exponent, and read as
integers. -/
theorem magnitude_whole {code n : Nat} (hCode : code ≤ Binary64.infinityCode) (hPos : 0 < code)
    (hExponent : 0 ≤ (Decimal.shortest canonical.ties code).exponent)
    (hValue : (Decimal.shortest canonical.ties code).value = n) (hSmall : n < 10 ^ 21) :
    canonical.magnitude code = Nat.toDigits 10 n ∧ ∀ negative,
      canonical.token negative (canonical.digitsOf code) (canonical.pointOf code) =
        .integer negative n := by
  obtain ⟨e, hE⟩ : ∃ e : Nat, (Decimal.shortest canonical.ties code).exponent = e :=
    ⟨_, (Int.toNat_of_nonneg hExponent).symm⟩
  obtain ⟨zeros, hTrim, hDigits⟩ := digitsOf_spec canonical hCode hPos
  have hn : (Decimal.shortest canonical.ties code).significand * 10 ^ e = n := by
    rw [Decimal.value, hE, zpow_natCast] at hValue
    exact_mod_cast hValue
  have hText : Nat.toDigits 10 n =
      canonical.digitsOf code ++ List.replicate (zeros + e) '0' := by
    rw [← hn, toDigits_mul_ten_pow (Decimal.shortest_significand_pos _ hCode hPos), hTrim,
      List.append_assoc, List.replicate_append_replicate]
  have hPoint :
      canonical.pointOf code = ((canonical.digitsOf code).length + (zeros + e) : Nat) := by
    rw [pointOf, hE, hTrim, List.length_append, List.length_replicate]
    push_cast
    ring
  have hLength : (canonical.digitsOf code).length + (zeros + e) ≤ 21 := by
    have hFew := (Nat.length_toDigits_le_iff (b := 10) (by decide) (by decide)).mpr hSmall
    rwa [hText, List.length_append, List.length_replicate] at hFew
  have hSome := hDigits.length_pos
  have hPositional : canonical.isPositional (canonical.pointOf code) = true := by
    rw [isPositional_canonical]
    omega
  constructor
  · rw [magnitude_eq _ hPos.ne', if_pos hPositional, positional, if_neg (by omega), hPoint,
      Int.toNat_natCast, if_pos (by omega), Nat.add_sub_cancel_left, hText]
    simp [canonical]
  · intro negative
    have hZeros :
        (canonical.pointOf code - (canonical.digitsOf code).length).toNat = zeros + e := by
      omega
    rw [token, if_pos ⟨hPositional, by omega⟩, hZeros, ← ofDigitChars_append_zeros, ← hText,
      Nat.ofDigitChars_ten_toDigits]
    simp [canonical]

/-- The canonical text of an exact integer is that of its binary64 number. -/
theorem text_ofInt {n : Int} (hSafe : n.natAbs ≤ Json.maxSafe) :
    canonical.text (.ofInt n) = Numeral.ofInt n := by
  have hLess : n.natAbs < 2 ^ 53 := by
    simp only [Json.maxSafe] at hSafe
    omega
  have hValue := Binary64.value_codeNear_natCast hLess.le
  have hOfInt := Binary64.ofInt_code n
  have hCode : (Binary64.ofInt n).code ≤ Binary64.infinityCode := hOfInt ▸ Binary64.codeNear_le _
  rw [← hOfInt] at hValue
  rcases Nat.eq_zero_or_pos (Binary64.ofInt n).code with hZero | hPos
  · have hn : n = 0 := by
      rw [hZero, Binary64.value_zero] at hValue
      have hAbs : n.natAbs = 0 := by exact_mod_cast hValue.symm
      omega
    rw [text_of_zero _ hZero, hn]
    rfl
  · have hExponent := Decimal.shortest_exponent_nonneg canonical.ties hCode hPos hValue
    have hNear := (Decimal.shortest_spec canonical.ties hCode hPos).1
    obtain ⟨m, hm⟩ : ∃ m : Nat,
        (Decimal.shortest canonical.ties (Binary64.ofInt n).code).value = m := by
      refine ⟨(Decimal.shortest canonical.ties (Binary64.ofInt n).code).significand *
        10 ^ (Decimal.shortest canonical.ties (Binary64.ofInt n).code).exponent.toNat, ?_⟩
      rw [Decimal.value]
      push_cast
      rw [← zpow_natCast, Int.toNat_of_nonneg hExponent]
    -- Below 2^53 no two integers share a code, so the shortest decimal is the integer itself.
    have hSame : m = n.natAbs := by
      apply Binary64.codeNear_natCast_inj hLess
      rw [← hm, hNear, hOfInt]
    have hFinite : (Binary64.ofInt n).isFinite = true := by
      simp only [Binary64.isFinite, decide_eq_true_eq, hOfInt]
      exact Binary64.codeNear_natCast_lt (by omega)
    rw [hSame] at hm
    rw [text_of_pos _ hFinite hPos, (magnitude_whole hCode hPos hExponent hm (by omega)).1,
      Reader.ofInt_eq, Binary64.ofInt_negative]
    simp

/-- Canonical texts do not tell the zeros apart. -/
theorem text_unsignedZero (x : Binary64) : canonical.text x.unsignedZero = canonical.text x := by
  rcases Nat.eq_zero_or_pos x.code with hZero | hPos
  · rw [Binary64.unsignedZero_zero hZero, text_of_zero _ hZero, text_of_zero _ rfl]
    simp [canonical]
  · rw [Binary64.unsignedZero_of_pos hPos]

end Layout

namespace Number

/-- The canonical text of a safe number is that of its binary64 number. -/
theorem text_double {n : Number} (hSafe : n.Safe) :
    Writer.number .canonical n = Layout.canonical.text n.double := by
  cases n with
  | integer n range => exact (Layout.text_ofInt hSafe).symm
  | float x finite => exact (Layout.text_unsignedZero x).symm

/-- Safe numbers have one canonical text exactly when they denote the same. -/
theorem text_eq_iff {m n : Number} (hm : m.Safe) (hn : n.Safe) :
    Writer.number .canonical m = Writer.number .canonical n ↔ m.double = n.double := by
  constructor
  · intro hText
    exact double_eq_of_text_eq Layout.bounded_canonical hText
  · intro hDouble
    rw [text_double hm, text_double hn, hDouble]

end Number

end LedgerSigning
