import Mathlib
import LedgerSigning.Proofs.Address
import LedgerSigning.Proofs.Text.Numeral
import LedgerSigning.Proofs.Text.Utf8
import LedgerSigning.Transaction.Create

/-! Which transactions have the same text. Lengths are written without an end mark, so a field
of one digit can pass for the second digit of a length. Where that happens is told exactly. -/
namespace LedgerSigning

namespace Salt

/-- A decimal numeral of at most 128 bits is written in hexadecimal. -/
theorem hex_ofNat {n : Nat} (hn : n < Numeral.words * Numeral.words) :
    hex (String.ofList (Numeral.ofNat n)) = .ok (Numeral.hex n) := by
  have hMinus : ∀ digits, Numeral.ofNat n ≠ '-' :: digits := by
    intro digits hDigits
    have hMember : '-' ∈ Nat.toDigits 10 n := by
      rw [← Numeral.ofNat, hDigits]
      simp
    exact absurd (Nat.isDigit_of_mem_toDigits (by decide) (by decide) hMember) (by decide)
  rw [hex, String.toList_ofList]
  split
  · rename_i digits hDigits
    exact absurd hDigits (hMinus digits)
  · rw [Numeral.below?_ofNat hn]

/-- A salt stands for an integer: a minus sign and the digits of a number that 64 bits with a sign
hold, or a numeral of 128 bits. -/
def Denotes (salt : String) (n : Int) : Prop :=
  (∃ row, salt.toList = '-' :: row ∧ Reader.IsRow row ∧ n = -(Nat.ofDigitChars 10 row 0 : Int) ∧
    -2 ^ 63 ≤ n) ∨
  ∃ m : Nat, n = m ∧ Numeral.Denotes salt.toList m ∧ m < 2 ^ 128

theorem words_mul_words : Numeral.words * Numeral.words = 2 ^ 128 := by decide

/-- A salt that stands for an integer is written in hexadecimal, a negative one modulo 2^64. -/
theorem hex_of_denotes {salt : String} {n : Int} (h : Denotes salt n) :
    hex salt = .ok (Numeral.hex (if n < 0 then (n + 2 ^ 64).toNat else n.toNat)) := by
  rcases h with ⟨row, hText, hRow, rfl, hBound⟩ | ⟨m, rfl, hDenotes, hBound⟩
  · have hRead := Numeral.digits?_eq_some_iff.mpr ⟨hRow, rfl⟩
    generalize Nat.ofDigitChars 10 row 0 = m at *
    have hFits : 2 * m ≤ Numeral.words := by
      simp only [Numeral.words]
      omega
    have hValue : (Numeral.words - m) % Numeral.words =
        if -(m : Int) < 0 then (-(m : Int) + 2 ^ 64).toNat else (-(m : Int)).toNat := by
      simp only [Numeral.words] at hFits ⊢
      split_ifs <;> omega
    rw [hex, hText]
    simp only [hRead, Option.filter_some, hFits, decide_true, if_true, hValue]
  · have hRead := Numeral.below?_eq_some_iff.mpr ⟨hDenotes, hBound⟩
    rw [hex]
    split
    next row hText => exact absurd hText (hDenotes.ne_minus row)
    next =>
      rw [words_mul_words, hRead, if_neg (by omega)]
      rfl

/-- Any other salt is refused. -/
theorem hex_of_not_denotes {salt : String} (h : ¬∃ n, Denotes salt n) :
    hex salt = .error (.badSalt salt) := by
  rw [hex]
  split
  next row hText =>
    have hNone : (Numeral.digits? row).filter (2 * · ≤ Numeral.words) = none := by
      rw [Option.eq_none_iff_forall_ne_some]
      intro m hm
      obtain ⟨hRead, hFits⟩ := Option.filter_eq_some_iff.mp hm
      obtain ⟨hRow, rfl⟩ := Numeral.digits?_eq_some_iff.mp hRead
      have hBound := of_decide_eq_true hFits
      simp only [Numeral.words] at hBound
      exact h ⟨_, .inl ⟨row, hText, hRow, rfl, by omega⟩⟩
    rw [hNone]
  next =>
    have hNone : Numeral.below? (Numeral.words * Numeral.words) salt.toList = none := by
      rw [Option.eq_none_iff_forall_ne_some, words_mul_words]
      intro m hm
      obtain ⟨hDenotes, hBound⟩ := Numeral.below?_eq_some_iff.mp hm
      exact h ⟨m, .inr ⟨m, rfl, hDenotes, hBound⟩⟩
    rw [hNone]

/-- The number of a drawn salt. -/
def drawn (bits : UInt64) : Nat := least + bits.toNat / 0x10000

theorem hex_ofRandom (bits : UInt64) : hex (ofRandom bits) = .ok (Numeral.hex (drawn bits)) := by
  have hBits := bits.toNat_lt
  apply hex_ofNat
  simp only [least, Numeral.words]
  omega

theorem length_hex_drawn (bits : UInt64) : (Numeral.hex (drawn bits)).length = 14 := by
  have hBits := bits.toNat_lt
  have hUpper : (Nat.toDigits 16 (drawn bits)).length ≤ 14 := by
    rw [Nat.length_toDigits_le_iff (by decide) (by decide)]
    simp only [drawn, least]
    omega
  have hLower : ¬(Nat.toDigits 16 (drawn bits)).length ≤ 13 := by
    rw [Nat.length_toDigits_le_iff (by decide) (by decide)]
    simp only [drawn, least]
    omega
  simp only [Numeral.hex]
  omega

end Salt

namespace Body

/-- Nothing but the salt can keep a body from having a hash. -/
theorem exists_hash {b : Body} {salt : List Char} (hSalt : Salt.hex b.salt = .ok salt) :
    ∃ hash, b.hash = .ok hash := by
  simp only [hash, encode, fields, hSalt, bind, Except.bind]
  exact ⟨_, rfl⟩

/-- The text of `f` before `s` is also the text of `g` before `t`: the only digit of `f` passes
for the second digit of the length of `g`. -/
def Misread (f s g t : List Char) : Prop :=
  ∃ d < 10, f = [d.digitChar] ∧ g.length = 10 + d ∧ s = g ++ t

/-- A number as a field: at most twenty digits, with no zero before others. -/
structure IsNumber (f : List Char) : Prop where
  nonempty : f ≠ []
  short : f.length ≤ 20
  lead : 1 < f.length → f.head? ≠ some '0'

theorem isNumber_toDigits {b n : Nat} (hb : 10 ≤ b) (hn : n < Numeral.words) :
    IsNumber (Nat.toDigits b n) where
  nonempty := Nat.toDigits_ne_nil
  short := by
    rw [Nat.length_toDigits_le_iff (by omega) (by decide)]
    calc n < 10 ^ 20 := Nat.lt_trans hn (by decide)
      _ ≤ b ^ 20 := Nat.pow_le_pow_left hb 20
  lead hLength := by
    cases n with
    | zero => simp at hLength
    | succ n => exact Numeral.head?_toDigits (by omega) (by omega)

theorem counted_of_lt {f : List Char} (hShort : f.length < 10) :
    counted f = f.length.digitChar :: f := by
  rw [counted, Numeral.ofNat, Nat.toDigits_of_lt_base hShort]
  rfl

theorem counted_of_ge {f : List Char} (hLong : 10 ≤ f.length) (hBound : f.length < 100) :
    counted f = (f.length / 10).digitChar :: (f.length % 10).digitChar :: f := by
  rw [counted, Numeral.ofNat, Nat.toDigits_of_base_le (by decide) hLong,
    Nat.toDigits_of_lt_base (by omega)]
  rfl

/-- One digit of length against two: only a field of one digit is followed by the same text. -/
theorem misread_of_lt_of_ge {f s g t : List Char} (hf : IsNumber f) (hg : IsNumber g)
    (hShort : f.length < 10) (hLong : 10 ≤ g.length)
    (h : counted f ++ s = counted g ++ t) : Misread f s g t := by
  have hBound := hg.short
  rw [counted_of_lt hShort, counted_of_ge hLong (by omega)] at h
  obtain ⟨hTens, hRest⟩ := List.cons.inj h
  have hLength : f.length = g.length / 10 :=
    Numeral.digitChar_inj (by omega) (by omega) hTens
  cases f with
  | nil => exact absurd rfl hf.nonempty
  | cons c f =>
      obtain ⟨rfl, hAfter⟩ := List.cons.inj hRest
      cases f with
      | nil =>
          rw [List.length_singleton] at hLength
          exact ⟨g.length % 10, by omega, rfl, by omega, hAfter⟩
      | cons c' f =>
          have hZero : g.length % 10 = 0 := by
            simp only [List.length_cons] at hLength
            omega
          have hLead := hf.lead (by simp)
          rw [hZero] at hLead
          exact absurd rfl hLead

theorem counted_append_of_misread {f s g t : List Char} (h : Misread f s g t) :
    counted f ++ s = counted g ++ t := by
  obtain ⟨d, hd, rfl, hLength, rfl⟩ := h
  have hTens : g.length / 10 = 1 := by omega
  have hUnits : g.length % 10 = d := by omega
  rw [counted_of_lt (by simp), counted_of_ge (by omega) (by omega), hTens, hUnits]
  rfl

/-- Two numbers with their lengths start the same text just where they are the same or one is
misread. -/
theorem counted_append_eq_iff {f s g t : List Char} (hf : IsNumber f) (hg : IsNumber g) :
    counted f ++ s = counted g ++ t ↔
      (f = g ∧ s = t) ∨ Misread f s g t ∨ Misread g t f s := by
  constructor
  · intro h
    have hBoundF := hf.short
    have hBoundG := hg.short
    rcases Nat.lt_or_ge f.length 10 with hF | hF <;> rcases Nat.lt_or_ge g.length 10 with hG | hG
    · rw [counted_of_lt hF, counted_of_lt hG] at h
      obtain ⟨hUnits, hRest⟩ := List.cons.inj h
      have hLength := Numeral.digitChar_inj (by omega) (by omega) hUnits
      exact .inl (List.append_inj hRest hLength)
    · exact .inr (.inl (misread_of_lt_of_ge hf hg hF hG h))
    · exact .inr (.inr (misread_of_lt_of_ge hg hf hG hF h.symm))
    · rw [counted_of_ge hF (by omega), counted_of_ge hG (by omega)] at h
      obtain ⟨hTens, hRest⟩ := List.cons.inj h
      obtain ⟨hUnits, hRest⟩ := List.cons.inj hRest
      have hHigh := Numeral.digitChar_inj (by omega) (by omega) hTens
      have hLow := Numeral.digitChar_inj (by omega) (by omega) hUnits
      exact .inl (List.append_inj hRest (by omega))
  · rintro (⟨rfl, rfl⟩ | h | h)
    · rfl
    · exact counted_append_of_misread h
    · exact (counted_append_of_misread h).symm

/-- Longer fields have longer texts, and so a field that ends a text is read without doubt. -/
theorem counted_inj {f g : List Char} (h : counted f = counted g) : f = g := by
  have hDigits {m n : Nat} (hLess : m ≤ n) : (Numeral.ofNat m).length ≤ (Numeral.ofNat n).length := by
    have hBound := (Nat.length_toDigits_le_iff (by decide) Nat.length_toDigits_pos).mp
      (le_refl (Nat.toDigits 10 n).length)
    exact (Nat.length_toDigits_le_iff (by decide) Nat.length_toDigits_pos).mpr
      (lt_of_le_of_lt hLess hBound)
  have hLength := congrArg List.length h
  simp only [counted, List.length_append] at hLength
  refine (List.append_inj' h ?_).2
  rcases Nat.le_total f.length g.length with hLess | hLess
  · have hMore := hDigits hLess
    omega
  · have hMore := hDigits hLess
    omega

/-- What the creation of a transaction promises of its body: valid addresses, an amount, a hash in
lower case, a salt that was drawn. -/
structure Drawn (b : Body) : Prop where
  source : Address.isValid b.source = true
  destination : Address.isValid b.destination = true
  amount : 1 ≤ b.amount
  hashLength : b.parent.hash.toList.length = 64
  hashDigit : b.parent.hash.toList.all "0123456789abcdef".toList.contains = true
  salt : ∃ bits, b.salt = Salt.ofRandom bits

def amountText (b : Body) : List Char := Numeral.hex b.amount.toNat

def ordinalText (b : Body) : List Char := Numeral.ofNat b.parent.ordinal.toNat

def feeText (b : Body) : List Char := Numeral.ofNat b.fee.toNat

/-- The part of the text between the addresses and the salt. -/
def middle (b : Body) : List Char :=
  counted b.amountText ++ (counted b.parent.hash.toList ++
    (counted b.ordinalText ++ counted b.feeText))

theorem isNumber_amountText (b : Body) : IsNumber b.amountText :=
  isNumber_toDigits (by decide) b.amount.toNat_lt

theorem isNumber_ordinalText (b : Body) : IsNumber b.ordinalText :=
  isNumber_toDigits (by decide) b.parent.ordinal.toNat_lt

theorem length_amountText_le (b : Body) : b.amountText.length ≤ 16 := by
  rw [amountText, Numeral.hex, Nat.length_toDigits_le_iff (by decide) (by decide)]
  exact b.amount.toNat_lt

theorem counted_of_length_64 {f : List Char} (hLength : f.length = 64) :
    counted f = '6' :: '4' :: f := by
  rw [counted_of_ge (by omega) (by omega), hLength]
  rfl

/-- The text of a drawn body: addresses and salt stand around the middle at fixed places. -/
theorem encode_of_drawn {b : Body} (hDrawn : b.Drawn) : ∃ salt, salt.length = 14 ∧
    Salt.hex b.salt = .ok salt ∧
    b.encode = .ok ('2' :: (counted b.source.toList ++ (counted b.destination.toList ++
      (b.middle ++ counted salt)))) := by
  obtain ⟨bits, hSalt⟩ := hDrawn.salt
  have hHex : Salt.hex b.salt = .ok (Numeral.hex (Salt.drawn bits)) := by
    rw [hSalt, Salt.hex_ofRandom]
  refine ⟨_, Salt.length_hex_drawn bits, hHex, ?_⟩
  simp only [encode, fields, hHex, bind, Except.bind, List.flatMap_cons, List.flatMap_nil,
    List.append_nil, List.append_assoc, middle, amountText, ordinalText, feeText]

theorem salt_eq_of_hex_eq {b c : Body} (hB : b.Drawn) (hC : c.Drawn)
    (h : Salt.hex b.salt = Salt.hex c.salt) : b.salt = c.salt := by
  obtain ⟨bits, hBits⟩ := hB.salt
  obtain ⟨bits', hBits'⟩ := hC.salt
  rw [hBits, hBits', Salt.hex_ofRandom, Salt.hex_ofRandom] at h
  have hNumber := Numeral.hex_inj (Except.ok.inj h)
  rw [hBits, hBits']
  exact congrArg (fun n => String.ofList (Numeral.ofNat n)) hNumber

theorem counted_inj_of_length {f g s t : List Char} (hLength : f.length = g.length)
    (h : counted f ++ s = counted g ++ t) : f = g ∧ s = t := by
  rw [counted, counted, hLength, List.append_assoc, List.append_assoc] at h
  exact List.append_inj (List.append_cancel_left h) hLength

/-- Addresses and salt are read without doubt; only the middle can be misread. -/
theorem encode_eq_iff_middle {b c : Body} (hB : b.Drawn) (hC : c.Drawn) :
    (∃ text, b.encode = .ok text ∧ c.encode = .ok text) ↔
      b.source = c.source ∧ b.destination = c.destination ∧ b.salt = c.salt ∧
        b.middle = c.middle := by
  obtain ⟨salt, hLength, hHex, hText⟩ := encode_of_drawn hB
  obtain ⟨salt', hLength', hHex', hText'⟩ := encode_of_drawn hC
  constructor
  · rintro ⟨text, hEqB, hEqC⟩
    have hSame := Except.ok.inj ((hText.symm.trans hEqB).trans (hEqC.symm.trans hText'))
    obtain ⟨-, hSame⟩ := List.cons.inj hSame
    obtain ⟨hSource, hSame⟩ := counted_inj_of_length
      ((Address.length_of_isValid hB.source).trans (Address.length_of_isValid hC.source).symm) hSame
    obtain ⟨hDestination, hSame⟩ := counted_inj_of_length
      ((Address.length_of_isValid hB.destination).trans
        (Address.length_of_isValid hC.destination).symm) hSame
    have hTail : (counted salt).length = (counted salt').length := by
      rw [counted, counted, List.length_append, List.length_append, hLength, hLength']
    obtain ⟨hMiddle, hSalt⟩ := List.append_inj' hSame hTail
    have hDigits : salt = salt' := by
      have hAppend : counted salt ++ [] = counted salt' ++ [] := by rw [hSalt]
      exact (counted_inj_of_length (hLength.trans hLength'.symm) hAppend).1
    have hSaltText := salt_eq_of_hex_eq hB hC (by rw [hHex, hHex', hDigits])
    exact ⟨String.toList_inj.mp hSource, String.toList_inj.mp hDestination, hSaltText, hMiddle⟩
  · rintro ⟨hSource, hDestination, hSalt, hMiddle⟩
    have hDigits : salt = salt' := by
      rw [hSalt, hHex'] at hHex
      exact (Except.ok.inj hHex).symm
    refine ⟨_, hText, ?_⟩
    rw [hText', hSource, hDestination, hMiddle, hDigits]

/-- Two bodies whose middles differ but are the same text. -/
inductive Slip (b c : Body) : Prop where
  /-- The amount of `b` is one digit. With its length it passes for the length of the amount of
  `c`, whose digits are read from the length and the start of the parent hash of `b`. -/
  | amount (p q r : List Char) (hDigit : b.amount.toNat ≤ 6)
      (hLength : c.amountText.length = 10 + b.amount.toNat)
      (hAmount : c.amountText = '6' :: '4' :: p)
      (hHash : b.parent.hash.toList = p ++ '6' :: '4' :: q)
      (hOther : c.parent.hash.toList = q ++ r)
      (hRest : counted b.ordinalText ++ counted b.feeText =
        r ++ (counted c.ordinalText ++ counted c.feeText))
  /-- The ordinal of `b` is one digit. With its length it passes for the length of the ordinal of
  `c`, whose digits are read from the length and the start of the fee of `b`. -/
  | ordinal (hAmount : b.amount = c.amount) (hHash : b.parent.hash = c.parent.hash)
      (hDigit : b.parent.ordinal.toNat ≤ 9)
      (hLength : c.ordinalText.length = 10 + b.parent.ordinal.toNat)
      (hRest : counted b.feeText = c.ordinalText ++ counted c.feeText)

/-- A misread amount is made up by the parent hashes. -/
theorem slip_of_misread_amount {b c : Body} (hB : b.Drawn) (hC : c.Drawn)
    (h : Misread b.amountText
      (counted b.parent.hash.toList ++ (counted b.ordinalText ++ counted b.feeText)) c.amountText
      (counted c.parent.hash.toList ++ (counted c.ordinalText ++ counted c.feeText))) :
    Slip b c := by
  obtain ⟨d, hd, hText, hLength, hAfter⟩ := h
  have hSmall : d ≤ 6 := by
    have hBound := length_amountText_le c
    omega
  have hAmount : b.amount.toNat = d :=
    Numeral.toDigits_eq_digit (by decide) (by decide) hd hText
  rw [counted_of_length_64 hB.hashLength, counted_of_length_64 hC.hashLength] at hAfter
  obtain ⟨x, text, hHead⟩ := List.exists_cons_of_length_pos (by omega : 0 < c.amountText.length)
  rw [hHead, List.length_cons] at hLength
  obtain ⟨y, p, hTail⟩ := List.exists_cons_of_length_pos (by omega : 0 < text.length)
  rw [hTail, List.length_cons] at hLength
  rw [hHead, hTail] at hAfter
  simp only [List.cons_append, List.cons.injEq] at hAfter
  obtain ⟨hFirst, hSecond, hAfter⟩ := hAfter
  have hSplit : c.amountText = '6' :: '4' :: p := by rw [hHead, hTail, hFirst, hSecond]
  -- The hash of `b` ends 10 + d characters before that of `c`.
  have hTakeDrop := List.take_append_drop (54 - d) c.parent.hash.toList
  have hRegroup : b.parent.hash.toList ++ (counted b.ordinalText ++ counted b.feeText) =
      (p ++ '6' :: '4' :: c.parent.hash.toList.take (54 - d)) ++
        (c.parent.hash.toList.drop (54 - d) ++ (counted c.ordinalText ++ counted c.feeText)) := by
    rw [hAfter]
    nth_rewrite 1 [← hTakeDrop]
    simp only [List.cons_append, List.append_assoc]
  obtain ⟨hHash, hRest⟩ := List.append_inj hRegroup (by
    have hHashLength := hC.hashLength
    rw [hB.hashLength, List.length_append, List.length_cons, List.length_cons, List.length_take]
    omega)
  exact .amount p _ _ (by omega) (by rw [hSplit, List.length_cons, List.length_cons]; omega) hSplit
    hHash hTakeDrop.symm hRest

theorem slip_of_misread_ordinal {b c : Body} (hAmount : b.amount = c.amount)
    (hHash : b.parent.hash = c.parent.hash)
    (h : Misread b.ordinalText (counted b.feeText) c.ordinalText (counted c.feeText)) :
    Slip b c := by
  obtain ⟨d, hd, hText, hLength, hAfter⟩ := h
  have hOrdinal : b.parent.ordinal.toNat = d :=
    Numeral.toDigits_eq_digit (by decide) (by decide) hd hText
  exact .ordinal hAmount hHash (by omega) (by omega) hAfter

/-- The numbers and the hash between addresses and salt, as one value. -/
theorem middle_eq_of_slip {b c : Body} (hB : b.Drawn) (hC : c.Drawn) (h : Slip b c) :
    b.middle = c.middle := by
  cases h with
  | amount p q r hDigit hLength hAmount hHash hOther hRest =>
      have hText : b.amountText = [b.amount.toNat.digitChar] :=
        Nat.toDigits_of_lt_base (by omega)
      apply counted_append_of_misread
      refine ⟨_, by omega, hText, hLength, ?_⟩
      rw [counted_of_length_64 hB.hashLength, counted_of_length_64 hC.hashLength, hHash, hOther,
        hAmount, hRest]
      simp only [List.cons_append, List.append_assoc]
  | ordinal hAmount hHash hDigit hLength hRest =>
      have hText : b.ordinalText = [b.parent.ordinal.toNat.digitChar] :=
        Nat.toDigits_of_lt_base (by omega)
      have hSame : counted b.ordinalText ++ counted b.feeText =
          counted c.ordinalText ++ counted c.feeText :=
        counted_append_of_misread ⟨_, by omega, hText, hLength, hRest⟩
      rw [middle, middle, hSame, hHash, amountText, amountText, hAmount]

theorem middle_eq_iff {b c : Body} (hB : b.Drawn) (hC : c.Drawn) : b.middle = c.middle ↔
    (b.amount = c.amount ∧ b.parent = c.parent ∧ b.fee = c.fee) ∨ Slip b c ∨ Slip c b := by
  constructor
  · intro h
    rcases (counted_append_eq_iff (isNumber_amountText b) (isNumber_amountText c)).mp h with
      ⟨hAmountText, h⟩ | hMisread | hMisread
    · have hAmount : b.amount = c.amount := UInt64.toNat_inj.mp (Numeral.hex_inj hAmountText)
      obtain ⟨hHashText, h⟩ := counted_inj_of_length (hB.hashLength.trans hC.hashLength.symm) h
      have hHash : b.parent.hash = c.parent.hash := String.toList_inj.mp hHashText
      rcases (counted_append_eq_iff (isNumber_ordinalText b) (isNumber_ordinalText c)).mp h with
        ⟨hOrdinalText, h⟩ | hMisread | hMisread
      · have hOrdinal : b.parent.ordinal = c.parent.ordinal :=
          UInt64.toNat_inj.mp (Numeral.ofNat_inj hOrdinalText)
        have hFeeText := counted_inj h
        have hFee : b.fee = c.fee := UInt64.toNat_inj.mp (Numeral.ofNat_inj hFeeText)
        have hParent : b.parent = c.parent := by
          cases hReference : b.parent
          cases hReference' : c.parent
          simp_all
        exact .inl ⟨hAmount, hParent, hFee⟩
      · exact .inr (.inl (slip_of_misread_ordinal hAmount hHash hMisread))
      · exact .inr (.inr (slip_of_misread_ordinal hAmount.symm hHash.symm hMisread))
    · exact .inr (.inl (slip_of_misread_amount hB hC hMisread))
    · exact .inr (.inr (slip_of_misread_amount hC hB hMisread))
  · rintro (⟨hAmount, hParent, hFee⟩ | h | h)
    · rw [middle, middle, amountText, amountText, ordinalText, ordinalText, feeText, feeText,
        hAmount, hParent, hFee]
    · exact middle_eq_of_slip hB hC h
    · exact (middle_eq_of_slip hC hB h).symm

/-- Two drawn bodies have the same text just when they agree in addresses and salt, and in
everything else as well unless one slips into the other. -/
theorem encode_eq_iff {b c : Body} (hB : b.Drawn) (hC : c.Drawn) :
    (∃ text, b.encode = .ok text ∧ c.encode = .ok text) ↔
      b.source = c.source ∧ b.destination = c.destination ∧ b.salt = c.salt ∧
        (b = c ∨ Slip b c ∨ Slip c b) := by
  rw [encode_eq_iff_middle hB hC, middle_eq_iff hB hC]
  constructor
  · rintro ⟨hSource, hDestination, hSalt, ⟨hAmount, hParent, hFee⟩ | hSlip⟩
    · cases b
      cases c
      simp_all
    · exact ⟨hSource, hDestination, hSalt, .inr hSlip⟩
  · rintro ⟨hSource, hDestination, hSalt, rfl | hSlip⟩
    · exact ⟨rfl, rfl, rfl, .inl ⟨rfl, rfl, rfl⟩⟩
    · exact ⟨hSource, hDestination, hSalt, .inr hSlip⟩

/-- Six units, with a hash and a fee that make up a larger amount. -/
def sixUnits : Body :=
  ⟨"DAG1vTmrhDPkNkUEb5yGbH9i5R9xTDNMFpHQwRvR", "DAG4o41NzhfX6DyYBTTXu6sJa6awm36abJpv89jB", 6,
    1111111111111010, ⟨"0000000000000064aaaaaaaaaaaaaaaaaaaaaaaaaaaaaaaaaaaaaaaaaaaaaaaa", 0⟩,
    "9007199254740991"⟩

/-- Over seventy million tokens, in the same text. -/
def millions : Body :=
  { sixUnits with
    amount := 7205759403792793600
    fee := 0
    parent := ⟨"aaaaaaaaaaaaaaaaaaaaaaaaaaaaaaaaaaaaaaaaaaaaaaaa1016111111111111", 0⟩ }

theorem drawn_sixUnits : sixUnits.Drawn where
  source := by decide +kernel
  destination := by decide +kernel
  amount := by decide
  hashLength := by decide +kernel
  hashDigit := by decide +kernel
  salt := ⟨0xFFFFFFFFFFFFFFFF, by decide +kernel⟩

theorem drawn_millions : millions.Drawn where
  source := drawn_sixUnits.source
  destination := drawn_sixUnits.destination
  amount := by decide
  hashLength := by decide +kernel
  hashDigit := by decide +kernel
  salt := drawn_sixUnits.salt

theorem encode_not_injective : ¬∀ b c : Body, b.Drawn → c.Drawn → b.encode = c.encode → b = c := by
  intro hInjective
  have hText : sixUnits.encode = millions.encode := by decide +kernel
  have hSame := hInjective sixUnits millions drawn_sixUnits drawn_millions hText
  exact absurd (congrArg Body.amount hSame) (by decide)

theorem encode_eq_iff_millions : sixUnits.Drawn ∧ millions.Drawn ∧
    ((∃ text, sixUnits.encode = .ok text ∧ millions.encode = .ok text) ↔
      sixUnits.source = millions.source ∧ sixUnits.destination = millions.destination ∧
        sixUnits.salt = millions.salt ∧
          (sixUnits = millions ∨ Slip sixUnits millions ∨ Slip millions sixUnits)) :=
  ⟨drawn_sixUnits, drawn_millions, encode_eq_iff drawn_sixUnits drawn_millions⟩

end Body

end LedgerSigning
