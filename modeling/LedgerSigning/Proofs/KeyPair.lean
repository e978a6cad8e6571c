import LedgerSigning.Proofs.Address
import LedgerSigning.Proofs.Transaction.Creation

/-! Key pairs. What is made from the text of a private key depends on the scalar that the text
spells, and not on the case of its digits. The two forms of the public key, its compressed form, the
text that names the signer and the address are made in ways of their own, and belong together. -/
namespace LedgerSigning

namespace Hex

variable {text : String} {count : Nat}

/-- Hexadecimal digits, two for each byte, spell bytes. -/
theorem exists_spells_iff :
    (∃ bytes : List UInt8, bytes.length = count ∧ Spells text bytes) ↔
      LedgerSigning.isHexOf (2 * count) text = true := by
  constructor
  · rintro ⟨bytes, rfl, hSpells⟩
    exact hSpells.isHexOf
  · intro hText
    obtain ⟨hLength, hDigits⟩ : text.toList.length = 2 * count ∧
        ∀ c ∈ text.toList, isDigit c = true := by
      simpa [LedgerSigning.isHexOf] using hText
    obtain ⟨bytes, hRead, -⟩ := decode_digits hDigits (by omega)
    have hSpells : Spells text bytes := spells_iff.mpr (decode_eq_ok_iff.mp hRead)
    have hBytes := hSpells.length_eq
    exact ⟨bytes, by omega, hSpells⟩

/-- Bytes are spelled by digits of their number. -/
theorem Spells.value_eq {bytes : List UInt8} (h : Spells text bytes) :
    value text.toList = BigEndian.toNat bytes := by
  have hLength := h.length_eq
  obtain ⟨others, hRead, hValue⟩ := decode_digits h.digits (by omega)
  rw [← hValue, h.unique (spells_iff.mpr (decode_eq_ok_iff.mp hRead))]

/-- A number of 32 bytes in digits. -/
def word (n : Nat) : String := String.ofList (encode (BigEndian.ofNat 32 n))

theorem spells_word (n : Nat) : Spells (word n) (BigEndian.ofNat 32 n) := spells_encode _

theorem Spells.value_word {n : Nat} (hn : n < 256 ^ 32) (h : Spells text (BigEndian.ofNat 32 n)) :
    value text.toList = n := by
  rw [h.value_eq, BigEndian.toNat_ofNat, Nat.mod_eq_of_lt hn]

theorem isHexOf_word (n : Nat) : LedgerSigning.isHexOf 64 (word n) = true := by
  simpa using (spells_word n).isHexOf

end Hex

namespace PublicKey

variable {key : String} {point : Curve.Affine}

theorem text_eq_mark (point : Curve.Affine) : text point = "04" ++ id point := by
  rw [id_eq]
  apply String.toList_injective
  rw [text_eq, bytes_eq, Hex.encode_cons]
  simp only [String.toList_append, String.toList_ofList]
  rfl

/-- A text that has a mark, or is too short or too long for one, keeps its form. -/
theorem withMark_withMark (key : String) : withMark (withMark key) = withMark key := by
  by_cases hSize : key.utf8ByteSize = 128
  · have hLonger : ("04" ++ key).utf8ByteSize ≠ 128 := by
      rw [String.utf8ByteSize_append, hSize]
      decide
    have hMarked : withMark key = "04" ++ key := if_pos hSize
    rw [hMarked, withMark, if_neg hLonger]
  · have hSame : withMark key = key := if_neg hSize
    rw [hSame, hSame]

theorem withoutMark_of_size_ne (hSize : key.utf8ByteSize ≠ 130) : withoutMark key = key := by
  unfold withoutMark
  split
  · rw [if_neg hSize]
  · rfl

theorem size_id (point : Curve.Affine) : (id point).utf8ByteSize = 128 := by
  rw [id_eq, (Hex.spells_encode _).utf8ByteSize, length_coordinates]

end PublicKey

namespace Address

variable {publicKey address : String}

/-- A text has an address if it spells two coordinates, maybe after the mark. They need not be those
of a point of the curve. -/
theorem ofText_eq_ok_iff : ofText publicKey = .ok address ↔ ∃ octets : List UInt8,
    octets.length = 64 ∧ (Hex.Spells publicKey octets ∨ Hex.Spells publicKey (4 :: octets)) ∧
      address = ofBytes (4 :: octets) := by
  rw [ofText, Except.bind_eq_ok_iff]
  simp only [hexBytes_eq_ok_iff]
  constructor
  · rintro ⟨bytes, hSpells, hAddress⟩
    split_ifs at hAddress with hForm
    obtain ⟨hLength, hHead⟩ := hForm
    obtain ⟨octets, rfl⟩ := List.head?_eq_some_iff.mp hHead
    have hOctets : octets.length = 64 := by simpa using hLength
    exact ⟨octets, hOctets, (PublicKey.spells_withMark_iff hOctets).mp hSpells,
      (Except.ok.inj hAddress).symm⟩
  · rintro ⟨octets, hLength, hSpells, rfl⟩
    refine ⟨4 :: octets, (PublicKey.spells_withMark_iff hLength).mpr hSpells, ?_⟩
    rw [if_pos ⟨by simp [hLength], rfl⟩]

theorem exists_ofText_iff : (∃ address, ofText publicKey = .ok address) ↔
    isHexOf 128 publicKey = true ∨
      ∃ digits, publicKey = "04" ++ digits ∧ isHexOf 128 digits = true := by
  have hShape (text : String) : isHexOf 128 text = true ↔
      ∃ octets : List UInt8, octets.length = 64 ∧ Hex.Spells text octets :=
    (@Hex.exists_spells_iff text 64).symm
  simp only [ofText_eq_ok_iff, PublicKey.spells_mark_iff, hShape]
  constructor
  · rintro ⟨address, octets, hLength, hBare | ⟨digits, hMarked, hSpells⟩, -⟩
    · exact .inl ⟨octets, hLength, hBare⟩
    · exact .inr ⟨digits, hMarked, octets, hLength, hSpells⟩
  · rintro (⟨octets, hLength, hBare⟩ | ⟨digits, hMarked, octets, hLength, hSpells⟩)
    · exact ⟨_, octets, hLength, .inl hBare, rfl⟩
    · exact ⟨_, octets, hLength, .inr ⟨digits, hMarked, hSpells⟩, rfl⟩

end Address

namespace PrivateKey

variable {text : String} {key : PrivateKey}

/-- The signature of a digest by the key of a text. -/
def signDigest (text : String) (digest : List UInt8) : Except Error String := do
  let key ← (ofText text).mapError .key
  key.sign digest

/-- 64 hexadecimal digits of a scalar between zero and the number of points. -/
def Spelled (text : String) : Prop :=
  isHexOf 64 text = true ∧ 0 < Hex.value text.toList ∧ Hex.value text.toList < Curve.n

/-- A text is read as the key that has this text in lower case. -/
theorem ofText_eq_ok_iff : ofText text = .ok key ↔ text.toLower = key.text := by
  have hBits : Curve.n < 256 ^ 32 := by decide
  have hText : text.toLower = key.text ↔ Hex.Spells text (BigEndian.ofNat 32 key.scalar) := Iff.rfl
  rw [hText]
  constructor
  · intro h
    unfold ofText at h
    split_ifs at h with hShape
    obtain ⟨bytes, hRead, h⟩ := Except.bind_eq_ok_iff.mp h
    have hSpells := hexBytes_eq_ok_iff.mp hRead
    have hLength : bytes.length = 32 := by
      have hDigits : text.toList.length = 64 := by
        simp only [isShaped, isHexOf, Bool.and_eq_true, beq_iff_eq] at hShape
        exact hShape.1
      have hBytes := hSpells.length_eq
      omega
    split at h
    next found hFound =>
      obtain rfl := Except.ok.inj h
      unfold ofScalar? at hFound
      split_ifs at hFound with hRange
      obtain rfl := Option.some.inj hFound
      have hBytes := BigEndian.ofNat_toNat bytes
      rw [hLength] at hBytes
      rwa [hBytes]
    next => cases h
  · intro hSpells
    have hShape : isShaped text = true := by simpa [isShaped] using hSpells.isHexOf
    have hScalar : BigEndian.toNat (BigEndian.ofNat 32 key.scalar) = key.scalar := by
      rw [BigEndian.toNat_ofNat, Nat.mod_eq_of_lt (key.inRange.2.trans hBits)]
    rw [ofText, if_pos hShape, hexBytes_eq_ok_iff.mpr hSpells]
    simp only [bind, Except.bind, hScalar, ofScalar?, dif_pos key.inRange]

theorem value_of_ofText (h : ofText text = .ok key) : Hex.value text.toList = key.scalar :=
  Hex.Spells.value_word (key.inRange.2.trans (by decide)) (ofText_eq_ok_iff.mp h)

theorem exists_ofText_iff : (∃ key, ofText text = .ok key) ↔ Spelled text := by
  constructor
  · rintro ⟨key, hKey⟩
    have hSpells : Hex.Spells text (BigEndian.ofNat 32 key.scalar) := ofText_eq_ok_iff.mp hKey
    refine ⟨by simpa using hSpells.isHexOf, ?_⟩
    rw [value_of_ofText hKey]
    exact key.inRange
  · rintro ⟨hShape, hRange⟩
    obtain ⟨key, hKey, -⟩ := (ofText_guarded text).passed (by simpa using ⟨hShape, hRange⟩)
    exact ⟨key, hKey⟩

/-- A text that is no key is refused for its shape or else for its number. -/
theorem ofText_eq_error_iff {fault : KeyError} : ofText text = .error fault ↔ ¬Spelled text ∧
    fault = if isHexOf 64 text = true then .privateRange else .privateShape := by
  by_cases hSpelled : Spelled text
  · obtain ⟨key, hKey⟩ := exists_ofText_iff.mpr hSpelled
    simp [hKey, hSpelled]
  · have hError : ofText text =
        .error (if isHexOf 64 text = true then .privateRange else .privateShape) := by
      refine (ofText_guarded text).refused _ ?_
      split_ifs with hShape
      · exact .later hShape (.here fun hRange => hSpelled ⟨hShape, hRange⟩)
      · exact .here hShape
    rw [hError, Except.error.injEq, eq_comm, iff_and_self]
    exact fun _ => hSpelled

/-- The case of the digits does not matter. -/
theorem ofText_congr {other : String} (hLower : other.toLower = text.toLower) :
    ofText other = ofText text := by
  have hShape : isHexOf 64 other = isHexOf 64 text := by
    rw [Bool.eq_iff_iff, ← @Hex.exists_spells_iff other 32, ← @Hex.exists_spells_iff text 32]
    simp only [Hex.Spells, hLower]
  cases hKey : ofText text with
  | ok key => exact ofText_eq_ok_iff.mpr (hLower.trans (ofText_eq_ok_iff.mp hKey))
  | error fault =>
      obtain ⟨hSpelled, rfl⟩ := ofText_eq_error_iff.mp hKey
      refine ofText_eq_error_iff.mpr ⟨fun hOther => hSpelled ?_, by rw [hShape]⟩
      obtain ⟨key, hOther⟩ := exists_ofText_iff.mpr hOther
      exact exists_ofText_iff.mp ⟨key, ofText_eq_ok_iff.mpr (hLower ▸ ofText_eq_ok_iff.mp hOther)⟩

theorem ofText_text (key : PrivateKey) : ofText key.text = .ok key :=
  ofText_eq_ok_iff.mpr (Hex.spells_encode _)

/-- The public point is the multiple of the generator by the scalar. -/
theorem coordinates?_eq (key : PrivateKey) :
    Curve.coordinates? (key.scalar • Curve.generatorPoint) = some key.point := by
  obtain ⟨point, hPoint, -, -⟩ := Curve.exists_toAffine? key.inRange
  have hBits : key.scalar < 2 ^ 256 := key.inRange.2.trans (by decide)
  rw [← (Curve.represents_generator.mul key.scalar hBits).toAffine?, PrivateKey.point, hPoint,
    Option.getD_some]

end PrivateKey

namespace PublicKey

variable {point : Curve.Affine}

/-- The text that names a signer is the digits of both coordinates, and the compressed form has
those of the first after a mark for the parity of the second. -/
theorem exists_digits (hCurve : point.isOnCurve = true) : ∃ x y,
    id point = x ++ y ∧ isHexOf 64 x = true ∧ isHexOf 64 y = true ∧
      Hex.value x.toList = point.x ∧ Hex.value y.toList = point.y ∧
      compressed point = (if Even point.y then "02" else "03") ++ x := by
  have hBits : Curve.p < 256 ^ 32 := by decide
  obtain ⟨hx, hy, -⟩ := Curve.Affine.isOnCurve_iff.mp hCurve
  refine ⟨Hex.word point.x, Hex.word point.y, ?_, Hex.isHexOf_word _, Hex.isHexOf_word _,
    (Hex.spells_word _).value_word (hx.trans hBits),
    (Hex.spells_word _).value_word (hy.trans hBits), ?_⟩
  · rw [id_eq, coordinates, Hex.encode, List.flatMap_append, String.ofList_append]
    rfl
  · apply String.toList_injective
    rw [compressed, Hex.encode_cons, String.toList_append, String.toList_ofList]
    simp only [Nat.even_iff, Hex.word, String.toList_ofList]
    split_ifs
    · rfl
    · rfl

end PublicKey

namespace PrivateKey

variable {text : String} {key : PrivateKey}

theorem signDigest_eq_ok_iff {digest : List UInt8} {signature : String} :
    signDigest text digest = .ok signature ↔
      ∃ key, ofText text = .ok key ∧ key.sign digest = .ok signature := by
  rw [signDigest, Except.bind_eq_ok_iff]
  simp only [Except.mapError_eq_ok_iff]

theorem signDigest_eq_error_iff {digest : List UInt8} {cause : Error} :
    signDigest text digest = .error cause ↔
      (∃ fault, ofText text = .error fault ∧ cause = .key fault) ∨
      ∃ key, ofText text = .ok key ∧ Signature.sign? key.scalar digest = none ∧
        cause = .unsignable := by
  rw [signDigest, Except.bind_eq_error_iff]
  simp only [Except.mapError_eq_ok_iff, Except.mapError_eq_error_iff, sign_eq_error_iff]

/-- A digest is signed by a text that is a key unless the signer finds no signature. -/
theorem signDigest_outcome (text : String) (digest : List UInt8) :
    ((∃ signature, signDigest text digest = .ok signature) ↔
      Spelled text ∧ ¬Signature.Missed (Hex.value text.toList) digest) ∧
    (signDigest text digest = .error .unsignable ↔
      Spelled text ∧ Signature.Missed (Hex.value text.toList) digest) ∧
    ∀ fault, signDigest text digest = .error (.key fault) ↔ ofText text = .error fault := by
  simp only [signDigest_eq_ok_iff, signDigest_eq_error_iff, sign_eq_ok_iff]
  cases hKey : ofText text with
  | error fault =>
      have hSpelled : ¬Spelled text := (ofText_eq_error_iff.mp hKey).1
      simp [hSpelled, eq_comm]
  | ok key =>
      have hSpelled : Spelled text := exists_ofText_iff.mp ⟨key, hKey⟩
      rw [value_of_ofText hKey, ← Signature.sign?_eq_none_iff]
      simp [hSpelled, Option.eq_none_iff_forall_ne_some]

/-- What is made from a text in its several ways belongs to the one scalar that the text spells. -/
structure Coherent (text : String) (key : PrivateKey) : Prop where
  scalar : key.scalar = Hex.value text.toList
  point : Curve.coordinates? (key.scalar • Curve.generatorPoint) = some key.point
  lower : key.pair.privateKey = text.toLower
  again : (ofText key.pair.privateKey).map pair = .ok key.pair
  publicKey : key.pair.publicKey = PublicKey.text key.point
  mark : PublicKey.text key.point = "04" ++ key.id
  /-- The second coordinate is in the compressed form by its parity only. -/
  digits : ∃ x y, key.id = x ++ y ∧ isHexOf 64 x = true ∧ isHexOf 64 y = true ∧
    Hex.value x.toList = key.point.x ∧ Hex.value y.toList = key.point.y ∧
    PublicKey.compressed key.point = (if Even key.point.y then "02" else "03") ++ x
  length : key.id.toList.length = 128
  withMark : ∀ form ∈ [key.id, key.pair.publicKey], PublicKey.withMark form = key.pair.publicKey
  withoutMark : ∀ form ∈ [key.id, key.pair.publicKey], PublicKey.withoutMark form = key.id
  address : ∀ form ∈ [key.id, key.pair.publicKey], Address.ofText form = .ok key.pair.address
  proof : ∀ hash proof, Proof.make hash text = .ok proof ↔
    proof.id = key.id ∧ signDigest text (digestOf hash) = .ok proof.signature
  source : ∀ transfer parent salt tx, Transaction.create transfer text parent salt = .ok tx →
    tx.value.source = key.pair.address

theorem coherent_of_ofText (h : ofText text = .ok key) : Coherent text key where
  scalar := (value_of_ofText h).symm
  point := key.coordinates?_eq
  lower := (ofText_eq_ok_iff.mp h).symm
  again := by rw [pair, ofText_text]; rfl
  publicKey := rfl
  mark := PublicKey.text_eq_mark _
  digits := PublicKey.exists_digits key.point_spec.1
  length := by
    rw [PrivateKey.id, PublicKey.id_eq, String.toList_ofList, Hex.length_encode,
      PublicKey.length_coordinates]
  withMark := by
    have hMarked : PublicKey.withMark key.id = key.pair.publicKey :=
      (if_pos (PublicKey.size_id _)).trans (PublicKey.text_eq_mark _).symm
    simp only [List.forall_mem_cons, hMarked, List.not_mem_nil, false_implies, implies_true,
      and_true, true_and]
    rw [← hMarked, PublicKey.withMark_withMark]
  withoutMark := by
    have hSize : key.id.utf8ByteSize = 128 := PublicKey.size_id _
    have hBare : PublicKey.withoutMark key.id = key.id :=
      PublicKey.withoutMark_of_size_ne (by rw [hSize]; decide)
    simp only [List.forall_mem_cons, hBare, List.not_mem_nil, false_implies, implies_true,
      and_true, true_and]
    rfl
  address := by
    have hSpells : Hex.Spells key.id (PublicKey.coordinates key.point) := by
      rw [PrivateKey.id, PublicKey.id_eq]
      exact Hex.spells_encode _
    simp only [List.forall_mem_cons, Address.ofText_eq_ok_iff, List.not_mem_nil, false_implies,
      implies_true, and_true]
    exact ⟨⟨_, PublicKey.length_coordinates, .inl hSpells, rfl⟩,
      ⟨_, PublicKey.length_coordinates, .inr (Hex.spells_encode _), rfl⟩⟩
  proof := by
    intro hash proof
    rw [Proof.make_eq_ok_iff, signDigest_eq_ok_iff, h]
    simp only [Except.ok.injEq, exists_eq_left']
  source := by
    intro transfer parent salt tx hTx
    obtain ⟨other, hOther, hRecords⟩ := Transaction.records_of_create hTx
    cases h.symm.trans hOther
    exact hRecords.source

end PrivateKey

end LedgerSigning
