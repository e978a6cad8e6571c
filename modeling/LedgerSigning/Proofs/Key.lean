import LedgerSigning.Key
import LedgerSigning.Proof
import LedgerSigning.Proofs.Curve.Der
import LedgerSigning.Proofs.Curve.Signature
import LedgerSigning.Proofs.Outcome

/-! Keys, and proofs made with them. A text is a public key if it spells a point of the curve in
digits of either case. The text that identifies a signer is read as the signer's point, and what a
private key signs verifies under the public key that goes with it. -/
namespace LedgerSigning

/-- In lower case the text is the hexadecimal text of the bytes. -/
def Hex.Spells (text : String) (bytes : List UInt8) : Prop :=
  text.toLower = String.ofList (Hex.encode bytes)

namespace Hex

variable {text : String} {bytes : List UInt8}

theorem spells_iff : Spells text bytes ↔ text.toList.map Char.toLower = encode bytes := by
  change text.map Char.toLower = String.ofList (encode bytes) ↔ _
  rw [← String.toList_inj, String.toList_map, String.toList_ofList]

theorem spells_encode (bytes : List UInt8) : Spells (String.ofList (encode bytes)) bytes := by
  rw [spells_iff, String.toList_ofList]
  exact decode_eq_ok_iff.mp (decode_encode bytes)

theorem Spells.unique {others : List UInt8} (h : Spells text bytes) (h' : Spells text others) :
    bytes = others :=
  encode_injective ((spells_iff.mp h).symm.trans (spells_iff.mp h'))

theorem Spells.digits (h : Spells text bytes) : ∀ c ∈ text.toList, isDigit c = true := by
  intro c hc
  exact (digit_of_toLower (isDigit_of_mem_encode (spells_iff.mp h ▸ List.mem_map_of_mem hc))).1

theorem Spells.length_eq (h : Spells text bytes) : text.toList.length = 2 * bytes.length := by
  rw [← length_encode, ← spells_iff.mp h, List.length_map]

theorem Spells.isHexOf (h : Spells text bytes) : isHexOf (2 * bytes.length) text = true := by
  simp [LedgerSigning.isHexOf, h.length_eq, List.all_eq_true.mpr h.digits]

theorem Spells.utf8ByteSize (h : Spells text bytes) : text.utf8ByteSize = 2 * bytes.length := by
  rw [← String.ofList_toList (s := text), Utf8.utf8ByteSize_ofList,
    Utf8.encode_ascii fun c hc => (digit?_of_isDigit (h.digits c hc)).1, List.length_map,
    h.length_eq]

end Hex

/-- A text is read as the bytes that it spells in either case. -/
theorem hexBytes_eq_ok_iff {text : String} {bytes : List UInt8} :
    hexBytes text = .ok bytes ↔ Hex.Spells text bytes := by
  rw [hexBytes, Except.mapError_eq_ok_iff, Hex.decode_eq_ok_iff, Hex.spells_iff]

namespace PublicKey

variable {key : String} {point : Curve.Affine}

/-- Both coordinates of a point. -/
def coordinates (point : Curve.Affine) : List UInt8 :=
  BigEndian.ofNat 32 point.x ++ BigEndian.ofNat 32 point.y

@[simp] theorem length_coordinates : (coordinates point).length = 64 := by simp [coordinates]

theorem bytes_eq : bytes point = 4 :: coordinates point := rfl

@[simp] theorem length_bytes : (bytes point).length = 65 := by simp [bytes_eq]

theorem text_eq : text point = String.ofList (Hex.encode (bytes point)) := rfl

theorem id_eq : id point = String.ofList (Hex.encode (coordinates point)) := by
  have hSize : (text point).utf8ByteSize = 130 := by
    rw [text_eq, (Hex.spells_encode _).utf8ByteSize, length_bytes]
  rw [id, withoutMark, text_eq, String.toList_ofList]
  rw [text_eq] at hSize
  exact if_pos hSize

theorem point?_bytes (hCurve : point.isOnCurve = true) : point? (bytes point) = some point := by
  have hBits : Curve.p < 256 ^ 32 := by decide
  obtain ⟨hx, hy, -⟩ := Curve.Affine.isOnCurve_iff.mp hCurve
  have hFirst : BigEndian.toNat ((coordinates point).take 32) = point.x := by
    rw [coordinates, List.take_left' (by simp), BigEndian.toNat_ofNat,
      Nat.mod_eq_of_lt (hx.trans hBits)]
  have hSecond : BigEndian.toNat ((coordinates point).drop 32) = point.y := by
    rw [coordinates, List.drop_left' (by simp), BigEndian.toNat_ofNat,
      Nat.mod_eq_of_lt (hy.trans hBits)]
  simp [bytes_eq, point?, hFirst, hSecond, hCurve]

/-- The bytes of a point on the curve are those that are written for it. -/
theorem point?_eq_some_iff {octets : List UInt8} :
    point? octets = some point ↔ octets = bytes point ∧ point.isOnCurve = true := by
  constructor
  · intro h
    unfold point? at h
    split at h
    next others =>
      dsimp only at h
      split_ifs at h with hPoint
      obtain ⟨hLength, hCurve⟩ := hPoint
      obtain rfl := Option.some.inj h
      have hFirst : (others.take 32).length = 32 := by simp [hLength]
      have hSecond : (others.drop 32).length = 32 := by simp [hLength]
      have hx := BigEndian.ofNat_toNat (others.take 32)
      have hy := BigEndian.ofNat_toNat (others.drop 32)
      rw [hFirst] at hx
      rw [hSecond] at hy
      exact ⟨by rw [bytes, hx, hy, List.take_append_drop], hCurve⟩
    next => cases h
  · rintro ⟨rfl, hCurve⟩
    exact point?_bytes hCurve

section Mark

variable {octets : List UInt8}

/-- Bytes after the mark are spelled by `04` before a text that spells these bytes. -/
theorem spells_mark_iff : Hex.Spells key (4 :: octets) ↔
    ∃ digits, key = "04" ++ digits ∧ Hex.Spells digits octets := by
  constructor
  · intro h
    have hText := Hex.spells_iff.mp h
    rw [Hex.encode_cons] at hText
    obtain ⟨a, more, hKey, ha, hMore⟩ := List.map_eq_cons_iff.mp hText
    obtain ⟨b, rest, rfl, hb, hRest⟩ := List.map_eq_cons_iff.mp hMore
    obtain rfl := Hex.eq_digit_of_toLower (by decide) ha
    obtain rfl := Hex.eq_digit_of_toLower (by decide) hb
    exact ⟨String.ofList rest, String.toList_injective (by simp [hKey, Hex.digit]),
      Hex.spells_iff.mpr (by rw [String.toList_ofList, hRest])⟩
  · rintro ⟨digits, rfl, h⟩
    rw [Hex.spells_iff, String.toList_append, List.map_append, Hex.spells_iff.mp h,
      Hex.encode_cons]
    rfl

/-- A mark before a text that spells two coordinates, and none before one that has it. -/
theorem spells_withMark_iff (hLength : octets.length = 64) :
    Hex.Spells (withMark key) (4 :: octets) ↔
      Hex.Spells key octets ∨ Hex.Spells key (4 :: octets) := by
  rw [withMark]
  split_ifs with hSize
  · have hNone : ¬Hex.Spells key (4 :: octets) := fun h => by
      have hBytes := h.utf8ByteSize
      rw [List.length_cons, hLength] at hBytes
      omega
    rw [or_iff_left hNone, spells_mark_iff]
    simp
  · have hNone : ¬Hex.Spells key octets := fun h => by
      have hBytes := h.utf8ByteSize
      rw [hLength] at hBytes
      omega
    rw [or_iff_right hNone]

theorem exists_digits_iff :
    (∃ digits, (key = digits ∨ key = "04" ++ digits) ∧ Hex.Spells digits octets) ↔
      Hex.Spells key octets ∨ Hex.Spells key (4 :: octets) := by
  rw [spells_mark_iff]
  simp only [or_and_right, exists_or, exists_eq_left']

end Mark

/-- A text is a public key if and only if it spells the coordinates of a point on the curve, maybe
after the mark. -/
theorem point_eq_ok_iff : PublicKey.point key = .ok point ↔ point.isOnCurve = true ∧
    (Hex.Spells key (coordinates point) ∨ Hex.Spells key (bytes point)) := by
  rw [bytes_eq, ← spells_withMark_iff length_coordinates, ← bytes_eq, ← hexBytes_eq_ok_iff]
  constructor
  · intro h
    unfold PublicKey.point at h
    split_ifs at h
    obtain ⟨octets, hRead, h⟩ := Except.bind_eq_ok_iff.mp h
    split at h
    next found hFound =>
      obtain rfl := Except.ok.inj h
      obtain ⟨rfl, hCurve⟩ := point?_eq_some_iff.mp hFound
      exact ⟨hCurve, hRead⟩
    next => cases h
  · rintro ⟨hCurve, hRead⟩
    have hShaped : isShaped key = true := by
      rw [isShaped, Bool.or_eq_true]
      refine ((spells_withMark_iff length_coordinates).mp (hexBytes_eq_ok_iff.mp hRead)).imp
        (fun h => ?_) fun h => ?_
      · simpa using h.isHexOf
      · simpa using h.isHexOf
    rw [PublicKey.point, if_pos hShaped, hRead]
    simp only [bind, Except.bind, point?_bytes hCurve]

/-- The identifying text of a point on the curve is read as this point. -/
theorem point_id (hCurve : point.isOnCurve = true) : PublicKey.point (id point) = .ok point :=
  point_eq_ok_iff.mpr ⟨hCurve, .inl (id_eq ▸ Hex.spells_encode _)⟩

/-- The mark does not change which point it is. -/
theorem point_mark_iff (hSize : key.utf8ByteSize = 128) :
    PublicKey.point ("04" ++ key) = .ok point ↔ PublicKey.point key = .ok point := by
  have hMarked : withMark key = "04" ++ key := if_pos hSize
  have hLonger : withMark ("04" ++ key) = "04" ++ key := by
    rw [withMark, String.utf8ByteSize_append, hSize]
    exact if_neg (by decide)
  rw [point_eq_ok_iff, point_eq_ok_iff, bytes_eq, ← spells_withMark_iff length_coordinates,
    ← spells_withMark_iff length_coordinates, hLonger, hMarked]

end PublicKey

/-- A signature verifies for a digest if both texts are read, the signature with its lower value
satisfies the equation, and nothing else counts. -/
theorem verifies_eq_true_iff {digest : List UInt8} {signature key : String} :
    verifies digest signature key = true ↔ ∃ point sig, PublicKey.point key = .ok point ∧
      Hex.Spells signature (Der.encode sig) ∧ sig.inRange = true ∧
      sig.lowS.satisfies point digest = true := by
  have hSignature (octets : List UInt8) (sig : Signature) :
      (hexBytes signature = .ok octets ∧ Der.decode? octets = some sig) ↔
        (Hex.Spells signature octets ∧ octets = Der.encode sig ∧ sig.inRange = true) := by
    rw [hexBytes_eq_ok_iff, Der.decode?_eq_some_iff]
  unfold verifies
  constructor
  · intro h
    split at h
    next point octets hPoint hOctets =>
      split at h
      next sig hSig =>
        obtain ⟨hSpells, rfl, hRange⟩ := (hSignature octets sig).mp ⟨hOctets, hSig⟩
        exact ⟨point, sig, hPoint, hSpells, hRange, h⟩
      next => cases h
    next => cases h
  · rintro ⟨point, sig, hPoint, hSpells, hRange, hSatisfies⟩
    rw [hPoint, hexBytes_eq_ok_iff.mpr hSpells]
    simp only [Der.decode?_encode hRange, hSatisfies]

namespace PrivateKey

/-- The public point of a private key is on the curve and is the key's multiple of the
generator. -/
theorem point_spec (key : PrivateKey) : key.point.isOnCurve = true ∧
    key.point.toProjective.Represents (key.scalar • Curve.generatorPoint) := by
  obtain ⟨point, hPoint, hCurve, hRepresents⟩ := Curve.exists_toAffine? key.inRange
  rw [PrivateKey.point, hPoint]
  exact ⟨hCurve, hRepresents⟩

/-- The private key of the scalar one. -/
def one : PrivateKey := ⟨1, by decide⟩

/-- A text is a private key if it is 64 hexadecimal digits of a number in range. -/
theorem ofText_guarded (text : String) :
    Guarded [⟨isHexOf 64 text = true, .privateShape⟩,
        ⟨0 < Hex.value text.toList ∧ Hex.value text.toList < Curve.n, .privateRange⟩]
      (ofText text) (∃ key, ofText text = .ok key ∧ key.scalar = Hex.value text.toList) := by
  refine .cons (fun hShape => if_neg hShape) fun hShape => ?_
  obtain ⟨hLength, hDigits⟩ : text.toList.length = 64 ∧
      ∀ c ∈ text.toList, Hex.isDigit c = true := by simpa [isHexOf] using hShape
  obtain ⟨bytes, hRead, hValue⟩ := Hex.decode_digits hDigits (by rw [hLength])
  have hKey : ofText text =
      (ofScalar? (Hex.value text.toList)).elim (.error .privateRange) .ok := by
    rw [ofText, isShaped, if_pos hShape, hexBytes, hRead, ← hValue]
    cases hScalar : ofScalar? (BigEndian.toNat bytes) with
    | none => simp only [Except.mapError_ok, bind, Except.bind, hScalar, Option.elim]
    | some key => simp only [Except.mapError_ok, bind, Except.bind, hScalar, Option.elim]
  refine .cons (fun hRange => ?_) fun hRange => .nil ⟨⟨_, hRange⟩, ?_, rfl⟩
  · rw [hKey, ofScalar?, dif_neg hRange]
    rfl
  · rw [hKey, ofScalar?, dif_pos hRange]
    rfl

theorem ofText_one :
    ofText "0000000000000000000000000000000000000000000000000000000000000001" = .ok one := by
  decide +kernel

/-- Equal as functions: with arguments given, comparing the two sides would run the signer. -/
theorem sign_def : sign = fun key digest => match Signature.sign? key.scalar digest with
    | some sig => .ok (String.ofList (Hex.encode (Der.encode sig)))
    | none => .error .unsignable := by
  delta sign
  rfl

theorem sign_eq_ok_iff {key : PrivateKey} {digest : List UInt8} {signature : String} :
    key.sign digest = .ok signature ↔ ∃ sig, Signature.sign? key.scalar digest = some sig ∧
      signature = String.ofList (Hex.encode (Der.encode sig)) := by
  simp only [sign_def]
  generalize Signature.sign? key.scalar digest = result
  cases result <;> simp [eq_comm]

/-- Signing fails only where the signer finds no signature. -/
theorem sign_eq_error_iff {key : PrivateKey} {digest : List UInt8} {cause : Error} :
    key.sign digest = .error cause ↔
      Signature.sign? key.scalar digest = none ∧ cause = .unsignable := by
  simp only [sign_def]
  generalize Signature.sign? key.scalar digest = result
  cases result <;> simp [eq_comm]

/-- What a private key signs verifies under the text of its public key. -/
theorem verifies_sign {key : PrivateKey} {digest : List UInt8} {signature : String}
    (h : key.sign digest = .ok signature) : verifies digest signature key.id = true := by
  obtain ⟨hCurve, hRepresents⟩ := key.point_spec
  obtain ⟨sig, hSign, rfl⟩ := sign_eq_ok_iff.mp h
  obtain ⟨hRange, hSatisfies⟩ := Signature.sign?_spec hSign hRepresents
  exact verifies_eq_true_iff.mpr
    ⟨_, sig, PublicKey.point_id hCurve, Hex.spells_encode _, hRange, hSatisfies⟩

end PrivateKey

/-- The text is a private key that does not miss the hash. -/
def Hash.Signable (hash : Hash) (key : String) : Prop :=
  ∃ k, PrivateKey.ofText key = .ok k ∧ ¬Signature.Missed k.scalar hash.digest

/-- The text is a private key that misses the hash: its nonce is not found in few tries, or makes a
value that is zero. -/
def Hash.Missed (hash : Hash) (key : String) : Prop :=
  ∃ k, PrivateKey.ofText key = .ok k ∧ Signature.Missed k.scalar hash.digest

theorem Hash.not_missed_of_signable {hash : Hash} {key : String} (h : hash.Signable key) :
    ¬hash.Missed key := by
  rintro ⟨k, hKey, hMissed⟩
  obtain ⟨other, hOther, hFound⟩ := h
  cases hKey.symm.trans hOther
  exact hFound hMissed

/-- Signing in stages, each of which can be computed by itself: the digest, two states of the
generator, the nonce. -/
theorem Hash.signable_of_states {hash : Hash} {key : String} {k : PrivateKey} (digest : Nat)
    (first second : Nonce.Generator) (nonce : Nat) (hKey : PrivateKey.ofText key = .ok k)
    (hDigest : hash.digest = BigEndian.ofNat 32 digest)
    (hFirst : Nonce.Generator.mix ⟨List.replicate 32 0, List.replicate 32 1⟩ 0
      (BigEndian.ofNat 32 k.scalar ++ BigEndian.ofNat 32 digest) = first)
    (hSecond : first.mix 1 (BigEndian.ofNat 32 k.scalar ++ BigEndian.ofNat 32 digest) = second)
    (hDraw : Nonce.draw? 16 second = some nonce)
    (hSig : (Signature.withNonce? k.scalar nonce (BigEndian.ofNat 32 digest)).isSome = true) :
    hash.Signable key := by
  refine ⟨k, hKey, ?_⟩
  rw [← Signature.exists_sign?_iff, hDigest, Signature.sign?_of_states hFirst hSecond hDraw]
  exact Option.isSome_iff_exists.mp hSig

namespace Proof

/-- A proof is made from a key that is read and a signature by it. -/
theorem make_eq_ok_iff {hash key : String} {proof : Proof} : Proof.make hash key = .ok proof ↔
    ∃ k, PrivateKey.ofText key = .ok k ∧ proof.id = k.id ∧
      k.sign (digestOf hash) = .ok proof.signature := by
  rw [Proof.make, Except.bind_eq_ok_iff]
  simp only [Except.mapError_eq_ok_iff, Except.bind_eq_ok_iff]
  constructor
  · rintro ⟨k, hKey, signature, hSign, hProof⟩
    cases hProof
    exact ⟨k, hKey, rfl, hSign⟩
  · rintro ⟨k, hKey, hId, hSign⟩
    exact ⟨k, hKey, _, hSign, by rw [← hId]⟩

/-- A proof is made exactly where the hash is signable by the key. -/
theorem exists_make_iff {hash : Hash} {key : String} :
    (∃ proof, Proof.make hash.text key = .ok proof) ↔ hash.Signable key := by
  simp only [make_eq_ok_iff, PrivateKey.sign_eq_ok_iff, Hash.Signable,
    ← Signature.exists_sign?_iff, Hash.digest]
  constructor
  · rintro ⟨proof, k, hKey, -, sig, hSig, -⟩
    exact ⟨k, hKey, sig, hSig⟩
  · rintro ⟨k, hKey, sig, hSig⟩
    exact ⟨⟨k.id, _⟩, k, hKey, rfl, sig, hSig, rfl⟩

/-- No proof is made with a text that is no key, or where the signer finds no signature. -/
theorem make_eq_error_iff {hash key : String} {cause : Error} :
    Proof.make hash key = .error cause ↔
      (∃ fault, PrivateKey.ofText key = .error fault ∧ cause = .key fault) ∨
      ∃ k, PrivateKey.ofText key = .ok k ∧ Signature.Missed k.scalar (digestOf hash) ∧
        cause = .unsignable := by
  rw [Proof.make, Except.bind_eq_error_iff]
  simp only [Except.mapError_eq_ok_iff, Except.mapError_eq_error_iff, Except.bind_eq_error_iff,
    PrivateKey.sign_eq_error_iff, Signature.sign?_eq_none_iff, reduceCtorEq, and_false,
    exists_false, or_false]

theorem make_of_missed {hash : Hash} {key : String} {k : PrivateKey}
    (hKey : PrivateKey.ofText key = .ok k) (h : Signature.Missed k.scalar hash.digest) :
    Proof.make hash.text key = .error .unsignable :=
  make_eq_error_iff.mpr (.inr ⟨k, hKey, h, rfl⟩)

/-- A key makes a proof for a hash, unless it misses the hash. -/
theorem make_spec (hash : Hash) {key : String} {k : PrivateKey}
    (hKey : PrivateKey.ofText key = .ok k) :
    (∃ proof, Proof.make hash.text key = .ok proof) ∨
      Proof.make hash.text key = .error .unsignable ∧ Signature.Missed k.scalar hash.digest := by
  by_cases hMissed : Signature.Missed k.scalar hash.digest
  · exact .inr ⟨make_of_missed hKey hMissed, hMissed⟩
  · exact .inl (exists_make_iff.mpr ⟨k, hKey, hMissed⟩)

/-- A proof that was made carries the identifying text of its key. -/
theorem id_of_make {hash key : String} {proof : Proof} (h : Proof.make hash key = .ok proof) :
    (PrivateKey.ofText key).map PrivateKey.id = .ok proof.id := by
  obtain ⟨k, hKey, hId, -⟩ := make_eq_ok_iff.mp h
  rw [hKey, hId]
  rfl

/-- A proof that was made verifies for the hash it was made for. -/
theorem verifiesFor_make {hash key : String} {proof : Proof}
    (h : Proof.make hash key = .ok proof) : proof.verifiesFor hash = true := by
  obtain ⟨k, -, hId, hSign⟩ := make_eq_ok_iff.mp h
  rw [verifiesFor, hId]
  exact k.verifies_sign hSign

end Proof

end LedgerSigning
