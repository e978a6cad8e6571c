import LedgerSigning.Address
import LedgerSigning.Proofs.Bytes.Base58

/-! Which texts are addresses. The checks are made on octets, but they accept exactly the texts of
40 characters that have the shape of an address. The address of a key is such a text if the text of
the key's hash has 36 symbols or more, of which it holds the last. -/
namespace LedgerSigning

namespace Address

/-- The characters of an address: the fixed letters, a check digit of at most eight, and the symbols
of its body. -/
def Shaped (text : List Char) : Prop :=
  ∃ check body, text = 'D' :: 'A' :: 'G' :: check :: body ∧ '0' ≤ check ∧ check ≤ '8' ∧
    body.length = bodyLength ∧ ∀ c ∈ body, c ∈ Base58.alphabet

theorem Shaped.ascii {text : List Char} (h : Shaped text) : ∀ c ∈ text, c.toNat < 128 := by
  obtain ⟨check, body, rfl, -, hHigh, -, hBody⟩ := h
  have hCheck : check.toNat ≤ 56 := hHigh
  simp only [List.forall_mem_cons]
  exact ⟨by decide, by decide, by decide, by omega,
    fun c hc => Base58.toNat_lt_of_mem_alphabet c (hBody c hc)⟩

/-- A check digit is one octet, which no other character begins with. -/
theorem check_octet_iff {text : List Char} {b : UInt8} {octets : List UInt8}
    (hOctets : Utf8.encode text = b :: octets) : 0x30 ≤ b ∧ b ≤ 0x38 ↔
      ∃ check rest, text = check :: rest ∧ '0' ≤ check ∧ check ≤ '8' ∧
        Utf8.encode rest = octets := by
  rw [UInt8.le_iff_toNat_le, UInt8.le_iff_toNat_le]
  constructor
  · rintro ⟨hLow, hHigh⟩
    have hDigit : ∀ n ≤ 56, 48 ≤ n → '0' ≤ Char.ofNat n ∧ Char.ofNat n ≤ '8' := by decide
    obtain ⟨hLeast, hMost⟩ := hDigit b.toNat hHigh hLow
    cases text with
    | nil => cases hOctets
    | cons c rest =>
        obtain ⟨rfl, hRest⟩ :=
          Utf8.of_encode_cons_eq hOctets (UInt8.lt_iff_toNat_lt.mpr (hHigh.trans_lt (by decide)))
        exact ⟨_, rest, rfl, hLeast, hMost, hRest⟩
  · rintro ⟨check, rest, rfl, hLow, hHigh, -⟩
    have hLeast : 48 ≤ check.toNat := hLow
    have hMost : check.toNat ≤ 56 := hHigh
    rw [Utf8.encode_cons_ascii (by omega)] at hOctets
    rw [← (List.cons.inj hOctets).1, Utf8.toNat_octet (by omega)]
    exact ⟨hLeast, hMost⟩

/-- Octets of symbols are the octets of characters that are symbols. -/
theorem symbol_octets_iff {text : List Char} :
    (∀ b ∈ Utf8.encode text, ∃ c ∈ Base58.alphabet, c.toNat = b.toNat) ↔
      ∀ c ∈ text, c ∈ Base58.alphabet := by
  constructor
  · intro hOctets
    have hAscii : ∀ b ∈ Utf8.encode text, b.toNat < 128 := by
      intro b hb
      obtain ⟨c, hc, hSame⟩ := hOctets b hb
      rw [← hSame]
      exact Base58.toNat_lt_of_mem_alphabet c hc
    rw [Utf8.eq_of_octets hAscii, List.forall_mem_map]
    intro b hb
    obtain ⟨c, hc, hSame⟩ := hOctets b hb
    rwa [← hSame, Char.ofNat_toNat]
  · intro hText
    have hAscii := fun c hc => Base58.toNat_lt_of_mem_alphabet c (hText c hc)
    rw [Utf8.encode_ascii hAscii, List.forall_mem_map]
    intro c hc
    exact ⟨c, hText c hc, (Utf8.toNat_octet ((hAscii c hc).trans (by decide))).symm⟩

/-- Characters that are symbols have one octet each. -/
theorem length_encode_symbols {text : List Char} (hText : ∀ c ∈ text, c ∈ Base58.alphabet) :
    (Utf8.encode text).length = text.length := by
  rw [Utf8.encode_ascii fun c hc => Base58.toNat_lt_of_mem_alphabet c (hText c hc),
    List.length_map]

/-- An address is valid by its octets if and only if its characters are those of an address. -/
theorem isValid_eq_true_iff {text : String} : isValid text = true ↔ Shaped text.toList := by
  unfold isValid
  constructor
  · intro hValid
    split at hValid
    next check body hOctets =>
      simp only [Bool.and_eq_true, decide_eq_true_iff, beq_iff_eq, List.all_eq_true,
        List.any_eq_true] at hValid
      obtain ⟨⟨hCheck, hLength⟩, hBody⟩ := hValid
      obtain ⟨rest, hText, hRest⟩ :=
        Utf8.exists_of_encode_eq [0x44, 0x41, 0x47] (by simp) hOctets
      obtain ⟨digit, symbols, rfl, hLow, hHigh, rfl⟩ := (check_octet_iff hRest).mp hCheck
      have hSymbols := symbol_octets_iff.mp hBody
      exact ⟨digit, symbols, hText, hLow, hHigh,
        (length_encode_symbols hSymbols).symm.trans hLength, hSymbols⟩
    next => cases hValid
  · rintro ⟨check, body, hText, hLow, hHigh, hLength, hBody⟩
    have hMost : check.toNat ≤ 56 := hHigh
    have hOctets : Utf8.encode (check :: body) = UInt8.ofNat check.toNat :: Utf8.encode body :=
      Utf8.encode_cons_ascii (by omega) body
    have hFront : Utf8.encode text.toList = 0x44 :: 0x41 :: 0x47 :: UInt8.ofNat check.toNat ::
        Utf8.encode body := by
      rw [hText, ← hOctets]
      exact Utf8.encode_append "DAG".toList (check :: body)
    rw [hFront]
    change (_ && _ && _ && _) = true
    simp only [Bool.and_eq_true, decide_eq_true_iff, beq_iff_eq, List.all_eq_true,
      List.any_eq_true]
    exact ⟨⟨(check_octet_iff hOctets).mpr ⟨check, body, rfl, hLow, hHigh, rfl⟩,
      (length_encode_symbols hBody).trans hLength⟩, symbol_octets_iff.mpr hBody⟩

/-- The same checks one after the other: the number of octets, the fixed letters, the octet at
offset three, and the characters from offset four on. There is no answer where an offset is out of
range or inside a character. -/
def validity? (text : String) : Option Bool :=
  let octets := Utf8.encode text.toList
  if octets.length ≠ 40 ∨ ¬"DAG".toList.isPrefixOf text.toList then some false
  else do
    let check ← octets[3]?
    if 0x30 ≤ check ∧ check ≤ 0x38 then
      let body ← Utf8.dropOctets? 4 text.toList
      some (body.all (Base58.alphabet.contains ·))
    else some false

theorem Shaped.length_eq {text : List Char} (h : Shaped text) : text.length = 40 := by
  obtain ⟨check, body, rfl, -, -, hLength, -⟩ := h
  simp [hLength, bodyLength]

theorem Shaped.length_octets {text : List Char} (h : Shaped text) :
    (Utf8.encode text).length = 40 := by
  rw [Utf8.encode_ascii h.ascii, List.length_map, h.length_eq]

theorem length_of_isValid {text : String} (hValid : isValid text = true) :
    text.toList.length = 40 :=
  (isValid_eq_true_iff.mp hValid).length_eq

theorem Shaped.check_octet {rest : List Char} {b : UInt8} {octets : List UInt8}
    (h : Shaped ("DAG".toList ++ rest)) (hRest : Utf8.encode rest = b :: octets) :
    0x30 ≤ b ∧ b ≤ 0x38 := by
  obtain ⟨check, body, hText, hLow, hHigh, -⟩ := h
  obtain rfl : rest = check :: body := List.append_cancel_left hText
  have hMost : check.toNat ≤ 56 := hHigh
  have hBody := (Utf8.encode_cons_ascii (by omega) body).symm.trans hRest
  exact (check_octet_iff hRest).mpr ⟨check, body, rfl, hLow, hHigh, (List.cons.inj hBody).2⟩

theorem shaped_append_iff {check : Char} {body : List Char} (hLow : '0' ≤ check)
    (hHigh : check ≤ '8') (hLength : (Utf8.encode body).length = bodyLength) :
    Shaped ("DAG".toList ++ check :: body) ↔ ∀ c ∈ body, c ∈ Base58.alphabet := by
  constructor
  · rintro ⟨digit, symbols, hText, -, -, -, hSymbols⟩
    obtain rfl : body = symbols := (List.cons.inj (List.append_cancel_left hText)).2
    exact hSymbols
  · intro hSymbols
    exact ⟨check, body, rfl, hLow, hHigh, (length_encode_symbols hSymbols).symm.trans hLength,
      hSymbols⟩

/-- The checks always find an answer. The letters have three octets, so the offset three is at the
next character; and if its octet is a digit, the offset four is at the end of this character. -/
theorem validity?_eq (text : String) : validity? text = some (isValid text) := by
  have hInvalid (h : ¬Shaped text.toList) : some false = some (isValid text) :=
    congrArg some (Bool.eq_false_iff.mpr (mt isValid_eq_true_iff.mp h)).symm
  unfold validity?
  dsimp only
  split_ifs with hFront
  · refine hInvalid fun hShaped => hFront.elim (· hShaped.length_octets) ?_
    obtain ⟨check, body, hText, -⟩ := hShaped
    simp [hText]
  · rw [not_or, not_not, not_not] at hFront
    obtain ⟨hLength, hPrefix⟩ := hFront
    obtain ⟨rest, hText⟩ := List.isPrefixOf_iff_prefix.mp hPrefix
    have hOctets : Utf8.encode text.toList = 0x44 :: 0x41 :: 0x47 :: Utf8.encode rest := by
      rw [← hText]
      exact Utf8.encode_append "DAG".toList rest
    cases hRest : Utf8.encode rest with
    | nil => simp [hOctets, hRest] at hLength
    | cons b octets =>
        have hThird : (Utf8.encode text.toList)[3]? = some b := by rw [hOctets, hRest]; rfl
        rw [hThird, Option.bind_eq_bind, Option.bind_some]
        split_ifs with hCheck
        · obtain ⟨check, body, rfl, hLow, hHigh, rfl⟩ := (check_octet_iff hRest).mp hCheck
          have hBody : Utf8.dropOctets? 4 text.toList = some body := by
            refine Utf8.dropOctets?_eq_some_iff.mpr ⟨['D', 'A', 'G', check], hText.symm, ?_⟩
            have hMost : check.toNat ≤ 56 := hHigh
            rw [Utf8.encode_ascii (by simpa using hMost.trans_lt (by decide))]
            rfl
          have hMore : (Utf8.encode body).length = bodyLength := by
            simpa [hOctets, hRest, bodyLength] using hLength
          rw [hBody, Option.bind_eq_bind, Option.bind_some, Option.some.injEq, Bool.eq_iff_iff,
            isValid_eq_true_iff, ← hText, shaped_append_iff hLow hHigh hMore, List.all_eq_true]
          simp only [List.contains_iff_mem]
        · exact hInvalid (hText ▸ mt (Shaped.check_octet · hRest) hCheck)

/-- A text is an address if and only if it has 40 characters, the fixed letters, a digit of at most
eight and 36 symbols, whatever characters it has. The checks by offset answer so for every text, so
no offset is ever out of range or inside a character. -/
theorem isValid_iff_shaped (text : String) :
    (isValid text = true ↔ text.toList.length = 40 ∧ Shaped text.toList) ∧
      validity? text = some (isValid text) := by
  refine ⟨?_, validity?_eq text⟩
  rw [isValid_eq_true_iff, iff_and_self]
  exact Shaped.length_eq

/-- The decimal digits of a text, added up. -/
def digitSum (text : List Char) : Nat := ((text.filter Char.isDigit).map fun c => c.toNat - 48).sum

theorem checkDigit_eq (body : List Char) : checkDigit body = digitSum body % 9 := by
  rw [checkDigit, digitSum, List.sum_eq_foldl, List.foldl_map]

/-- The body of an address: the last symbols of the text of a hash, or all of it if it is short. -/
def bodyOf (hash : List UInt8) : List Char :=
  (Base58.encode hash).drop ((Base58.encode hash).length - bodyLength)

theorem mem_alphabet_of_mem_bodyOf {hash : List UInt8} {c : Char} (hc : c ∈ bodyOf hash) :
    c ∈ Base58.alphabet :=
  Base58.mem_alphabet_of_mem_encode (List.mem_of_mem_drop hc)

theorem length_bodyOf (hash : List UInt8) :
    (bodyOf hash).length = min bodyLength (Base58.encode hash).length := by
  rw [bodyOf, List.length_drop]
  omega

/-- The offset that is computed from the octets of a text of symbols is where its body begins. -/
theorem dropOctets?_encode (hash : List UInt8) :
    Utf8.dropOctets? ((Utf8.encode (Base58.encode hash)).length - bodyLength)
      (Base58.encode hash) = some (bodyOf hash) := by
  have hSymbols : ∀ c ∈ Base58.encode hash, c ∈ Base58.alphabet :=
    fun _ => Base58.mem_alphabet_of_mem_encode
  refine Utf8.dropOctets?_eq_some_iff.mpr ⟨_, (List.take_append_drop _ _).symm, ?_⟩
  rw [length_encode_symbols fun c hc => hSymbols c (List.mem_of_mem_take hc),
    length_encode_symbols hSymbols, List.length_take]
  omega

theorem toList_ofHash (hash : List UInt8) : (ofHash hash).toList =
    'D' :: 'A' :: 'G' :: Nat.digitChar (digitSum (bodyOf hash) % 9) :: bodyOf hash := by
  rw [ofHash, String.toList_ofList, ← checkDigit_eq]
  rfl

theorem digitChar_bounds {n : Nat} (hn : n < 9) :
    '0' ≤ Nat.digitChar n ∧ Nat.digitChar n ≤ '8' := by
  revert n
  decide

/-- The address of a hash is valid if and only if the body is not cut short. -/
theorem isValid_ofHash_iff {hash : List UInt8} :
    isValid (ofHash hash) = true ↔ bodyLength ≤ (Base58.encode hash).length := by
  rw [isValid_eq_true_iff, toList_ofHash, Shaped]
  obtain ⟨hLow, hHigh⟩ :=
    digitChar_bounds (Nat.mod_lt (digitSum (bodyOf hash)) (y := 9) (by decide))
  have hLength := length_bodyOf hash
  constructor
  · rintro ⟨check, body, hText, -, -, hBody, -⟩
    simp only [List.cons.injEq, true_and] at hText
    rw [← hText.2] at hBody
    omega
  · intro hLong
    exact ⟨_, _, rfl, hLow, hHigh, by omega, fun c hc => mem_alphabet_of_mem_bodyOf hc⟩

theorem length_sha256 (message : List UInt8) : (sha256 message).length = 32 := by
  simp [sha256, Sha2.digest, Sha2.State.bytes, Sha2.Word.width]

/-- The address of a key. The text of its hash is a symbol for each leading zero byte and the digits
of the number in base 58; the body is cut off from it at an offset that is never out of range. It is
made of the letters, the sum of the decimal digits in the body modulo nine, and the body. It is
valid if and only if the text of the hash has 36 symbols or more, as it has with at most 20 leading
zero bytes, and is 40 characters long then. -/
theorem isValid_ofBytes_iff (publicKey : List UInt8) :
    let hash := sha256 (keyHeader ++ publicKey)
    let symbols := Base58.encode hash
    let address := ofBytes publicKey
    symbols = List.replicate (Base58.zeros hash) '1' ++
      (Nat.digits 58 (BigEndian.toNat hash)).reverse.map Base58.symbol ∧
    ∃ body, Utf8.dropOctets? ((Utf8.encode symbols).length - 36) symbols = some body ∧
      body <:+ symbols ∧ body.length = min 36 symbols.length ∧
      address.toList = 'D' :: 'A' :: 'G' :: Nat.digitChar (digitSum body % 9) :: body ∧
      (isValid address = true ↔ 36 ≤ symbols.length) ∧
      (Base58.zeros hash ≤ 20 → isValid address = true ∧ address.toList.length = 40) := by
  intro hash symbols address
  have hValid : isValid address = true ↔ 36 ≤ symbols.length := isValid_ofHash_iff
  refine ⟨Base58.encode_eq hash, bodyOf hash, dropOctets?_encode hash, List.drop_suffix _ _,
    length_bodyOf hash, toList_ofHash hash, hValid, fun hZeros => ?_⟩
  have hLong : 36 ≤ symbols.length := Base58.length_encode_of_zeros (length_sha256 _) hZeros
  exact ⟨hValid.mpr hLong, length_of_isValid (hValid.mpr hLong)⟩

/-- The hash of the generator has no leading zero. -/
theorem isValid_ofBytes_generator :
    Base58.zeros (sha256 (keyHeader ++ PublicKey.bytes Curve.generator)) ≤ 20 ∧
      isValid (ofBytes (PublicKey.bytes Curve.generator)) = true ∧
      (ofBytes (PublicKey.bytes Curve.generator)).toList.length = 40 := by
  have hZeros : Base58.zeros (sha256 (keyHeader ++ PublicKey.bytes Curve.generator)) ≤ 20 := by
    decide +kernel
  obtain ⟨-, body, -, -, -, -, -, hWhole⟩ := isValid_ofBytes_iff (PublicKey.bytes Curve.generator)
  exact ⟨hZeros, hWhole hZeros⟩

end Address

end LedgerSigning
