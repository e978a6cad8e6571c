import LedgerSigning.Proofs.Signing.Batch

/-! Verification. A signature verifies by what its text and the text of the key spell, whatever the
spelling; and a verdict on a row of proofs is made up of those on each of them. -/
namespace LedgerSigning

section Content

variable {digest : List UInt8} {signature key : String}

/-- A text that spells a signature is looked at as this signature alone. -/
theorem verifies_of_spells {sig : Signature} (hRange : sig.inRange = true)
    (hSpells : Hex.Spells signature (Der.encode sig)) : verifies digest signature key = true ↔
      ∃ point, PublicKey.point key = .ok point ∧ sig.lowS.satisfies point digest = true := by
  rw [verifies_eq_true_iff]
  constructor
  · rintro ⟨point, other, hPoint, hOther, hOtherRange, hSatisfies⟩
    have hSame := Der.decode?_encode hOtherRange
    rw [hOther.unique hSpells, Der.decode?_encode hRange] at hSame
    exact ⟨point, hPoint, Option.some.inj hSame ▸ hSatisfies⟩
  · rintro ⟨point, hPoint, hSatisfies⟩
    exact ⟨point, sig, hPoint, hSpells, hRange, hSatisfies⟩

theorem verifies_congr {other : String}
    (h : ∀ point, PublicKey.point key = .ok point ↔ PublicKey.point other = .ok point) :
    verifies digest signature key = verifies digest signature other := by
  rw [Bool.eq_iff_iff, verifies_eq_true_iff, verifies_eq_true_iff]
  simp only [h]

/-- The text of a key is the coordinates of a point of the curve in hexadecimal, maybe after `04`,
the text of a signature is the strict encoding of two values in range in hexadecimal, and they
satisfy the equation of the curve for a digest, with the lower of the two second values. -/
structure Attests (digest : List UInt8) (signature key : String) (Q : Curve.curve.Point)
    (sig : Signature) : Prop where
  key : ∃ point digits, Curve.coordinates? Q = some point ∧
    (key = digits ∨ key = "04" ++ digits) ∧ Hex.Spells digits (PublicKey.coordinates point)
  signature : Hex.Spells signature (Der.encode sig)
  bounds : 0 < sig.r ∧ sig.r < Curve.n ∧ 0 < sig.s ∧ sig.s < Curve.n
  equation : Signature.Equation sig.r (min sig.s (Curve.n - sig.s)) digest Q

theorem verifies_iff_attests :
    verifies digest signature key = true ↔ ∃ Q sig, Attests digest signature key Q sig := by
  rw [verifies_eq_true_iff]
  constructor
  · rintro ⟨point, sig, hPoint, hSpells, hRange, hSatisfies⟩
    obtain ⟨hCurve, hKey⟩ := PublicKey.point_eq_ok_iff.mp hPoint
    obtain ⟨digits, hKey⟩ := PublicKey.exists_digits_iff.mpr hKey
    obtain ⟨Q, hQ⟩ := Curve.Affine.isOnCurve_iff_exists.mp hCurve
    exact ⟨Q, sig, ⟨point, digits, hQ, hKey⟩, hSpells, Signature.inRange_iff.mp hRange,
      (Signature.lowS_satisfies_iff hRange hQ).mp hSatisfies⟩
  · rintro ⟨Q, sig, ⟨point, digits, hQ, hKey⟩, hSpells, hBounds, hEquation⟩
    have hRange := Signature.inRange_iff.mpr hBounds
    have hCurve := Curve.Affine.isOnCurve_iff_exists.mpr ⟨Q, hQ⟩
    have hKey := PublicKey.exists_digits_iff.mp ⟨digits, hKey⟩
    exact ⟨point, sig, PublicKey.point_eq_ok_iff.mpr ⟨hCurve, hKey⟩, hSpells, hRange,
      (Signature.lowS_satisfies_iff hRange hQ).mpr hEquation⟩

end Content

/-- A signature verifies for a digest if and only if the texts of the key and of the signature spell
a point of the curve and two values that attest it. So neither the mark of the key nor capital
digits matter, nor which of the two second values is given. Texts of any other shape verify
nothing. -/
theorem verifies_content (digest : List UInt8) :
    (∀ signature key,
      verifies digest signature key = true ↔ ∃ Q sig, Attests digest signature key Q sig) ∧
    (∀ signature digits, digits.utf8ByteSize = 128 →
      verifies digest signature ("04" ++ digits) = verifies digest signature digits) ∧
    (∀ signature other key otherKey, signature.toLower = other.toLower →
      key.toLower = otherKey.toLower →
      verifies digest signature key = verifies digest other otherKey) ∧
    (∀ signature other key sig, sig.inRange = true → Hex.Spells signature (Der.encode sig) →
      Hex.Spells other (Der.encode sig.opposite) →
      verifies digest signature key = verifies digest other key) ∧
    ∀ signature key, verifies digest signature key = true →
      (∃ digits, (key = digits ∨ key = "04" ++ digits) ∧ isHexOf 128 digits = true) ∧
      ∃ count, isHexOf (2 * count) signature = true := by
  refine ⟨fun signature key => verifies_iff_attests, fun signature digits hSize => ?_,
    fun signature other key otherKey hSame hSameKey => ?_,
    fun signature other key sig hRange hSpells hOther => ?_, fun signature key hVerifies => ?_⟩
  · exact verifies_congr fun point => PublicKey.point_mark_iff hSize
  · rw [Bool.eq_iff_iff, verifies_eq_true_iff, verifies_eq_true_iff]
    simp only [PublicKey.point_eq_ok_iff, Hex.Spells, hSame, hSameKey]
  · rw [Bool.eq_iff_iff, verifies_of_spells hRange hSpells,
      verifies_of_spells (Signature.opposite_inRange hRange) hOther, Signature.lowS_opposite hRange]
  · obtain ⟨Q, sig, hAttests⟩ := verifies_iff_attests.mp hVerifies
    obtain ⟨point, digits, -, hKey, hDigits⟩ := hAttests.key
    exact ⟨⟨digits, hKey, hDigits.isHexOf⟩, _, hAttests.signature.isHexOf⟩

/-- The key of the scalar one signs the value true. The signature verifies under the public key in
capital digits after the mark, and so does the signature with the opposite of its second value. -/
theorem verifies_content_capital :
    let capital := "79BE667EF9DCBBAC55A06295CE870B07029BFCDB2DCE28D959F2815B16F81798" ++
      "483ADA7726A3C4655DA4FBFC0E1108A8FD17B448A68554199C47D08FFB10D4B8"
    let text (sig : Signature) := String.ofList (Hex.encode (Der.encode sig))
    ∃ sig : Signature, sig.inRange = true ∧
      verifies Signed.hashTrue.digest (text sig) ("04" ++ capital) = true ∧
      verifies Signed.hashTrue.digest (text sig.opposite) ("04" ++ capital) = true ∧
      ∃ count, isHexOf (2 * count) (text sig) = true := by
  intro capital text
  obtain ⟨-, hMark, hCase, hOpposite, hShape⟩ := verifies_content Signed.hashTrue.digest
  obtain ⟨k, hKey, hFound⟩ := Signed.signable_true
  cases PrivateKey.ofText_one.symm.trans hKey
  obtain ⟨sig, hSig⟩ := Signature.exists_sign?_iff.mpr hFound
  have hRange := (Signature.sign?_spec hSig PrivateKey.one.point_spec.2).1
  have hPoint : PrivateKey.one.point = Curve.generator := by decide +kernel
  have hSpells : Hex.Spells capital (PublicKey.coordinates PrivateKey.one.point) := by
    rw [hPoint, Hex.spells_iff]
    decide +kernel
  have hLower : capital.toLower = PrivateKey.one.id.toLower := by
    rw [PrivateKey.id, PublicKey.id_eq]
    exact hSpells.trans (Hex.spells_encode _).symm
  have hVerifies : verifies Signed.hashTrue.digest (text sig) ("04" ++ capital) = true := by
    rw [hMark _ _ hSpells.utf8ByteSize, hCase _ _ _ _ rfl hLower]
    exact PrivateKey.verifies_sign (PrivateKey.sign_eq_ok_iff.mpr ⟨sig, hSig, rfl⟩)
  refine ⟨sig, hRange, hVerifies, ?_, (hShape _ _ hVerifies).2⟩
  rw [← hOpposite _ _ _ sig hRange (Hex.spells_encode _) (Hex.spells_encode _)]
  exact hVerifies

namespace Verdict

variable {check : Proof → Bool} {proofs : List Proof}

/-- Verdicts on lists of proofs that look at each proof by itself. Both parts of a verdict are in
order, and every proof of the list is in one of them as often as in the list. The verdict on two
lists is made up of the verdicts on each. It is valid if there are proofs and none is invalid. -/
structure Decides (check : Proof → Bool) (verdict : List Proof → Verdict) : Prop where
  ordered (proofs : List Proof) :
    (verdict proofs).valid.Sublist proofs ∧ (verdict proofs).invalid.Sublist proofs
  perm (proofs : List Proof) : ((verdict proofs).valid ++ (verdict proofs).invalid).Perm proofs
  valid (proofs : List Proof) : ∀ proof ∈ (verdict proofs).valid, check proof = true
  invalid (proofs : List Proof) : ∀ proof ∈ (verdict proofs).invalid, check proof = false
  append (proofs more : List Proof) : verdict (proofs ++ more) =
    ⟨(verdict proofs).valid ++ (verdict more).valid,
      (verdict proofs).invalid ++ (verdict more).invalid⟩
  isValid_iff (proofs : List Proof) :
    (verdict proofs).isValid = true ↔ proofs ≠ [] ∧ (verdict proofs).invalid = []

theorem decides_ofCheck (check : Proof → Bool) : Decides check (ofCheck check) where
  ordered proofs := ⟨List.filter_sublist, List.filter_sublist⟩
  perm proofs := List.filter_append_perm check proofs
  valid proofs := by simp [ofCheck]
  invalid proofs := by simp [ofCheck]
  append proofs more := by simp [ofCheck]
  isValid_iff proofs := isValid_ofCheck_iff.trans and_comm

/-- A part in order that holds what passes a check, and nothing else, is what the check leaves. -/
theorem eq_filter_of_perm {part rest : List Proof} (hOrdered : part.Sublist proofs)
    (hPerm : (part ++ rest).Perm proofs) (hPart : ∀ proof ∈ part, check proof = true)
    (hRest : ∀ proof ∈ rest, check proof = false) : part = proofs.filter check := by
  have hSame : part.filter check = part := List.filter_eq_self.mpr hPart
  have hNone : rest.filter check = [] := by simpa [List.filter_eq_nil_iff] using hRest
  have hFiltered := hPerm.filter check
  rw [List.filter_append, hSame, hNone, List.append_nil] at hFiltered
  have hSublist := hOrdered.filter check
  rw [hSame] at hSublist
  exact hSublist.eq_of_length hFiltered.length_eq

/-- There is one such verdict on each list. -/
theorem decides_iff {verdict : List Proof → Verdict} :
    Decides check verdict ↔ verdict = ofCheck check := by
  constructor
  · intro h
    funext proofs
    have hValid := eq_filter_of_perm (h.ordered proofs).1 (h.perm proofs) (h.valid proofs)
      (h.invalid proofs)
    have hInvalid : (verdict proofs).invalid = proofs.filter (!check ·) :=
      eq_filter_of_perm (h.ordered proofs).2 (List.perm_append_comm.trans (h.perm proofs))
        (by simpa using h.invalid proofs) (by simpa using h.valid proofs)
    rw [ofCheck, ← hValid, ← hInvalid]
  · rintro rfl
    exact decides_ofCheck check

theorem ofHash_error {ε : Type} (fault : ε) (proofs : List Proof) :
    ofHash (.error fault) proofs = ⟨[], proofs⟩ := by
  simp [ofHash, ofCheck]

end Verdict

namespace Signed

variable {mode : Mode} {doc : Json}

theorem decides_verdict (mode : Mode) (doc : Json) :
    Verdict.Decides (doc.verifiesProof mode) fun proofs => verdict mode ⟨doc, proofs⟩ := by
  rw [Verdict.decides_iff]
  exact funext fun proofs => verdict_eq ⟨doc, proofs⟩

/-- A document without canonical text has no valid proof. -/
theorem verdict_of_canonical_error {fault : CanonicalError} (hText : doc.canonical = .error fault)
    (proofs : List Proof) : verdict mode ⟨doc, proofs⟩ = ⟨[], proofs⟩ := by
  rw [verdict, Json.hash_eq_error_iff.mpr ⟨fault, hText, rfl⟩, Verdict.ofHash_error]

end Signed

end LedgerSigning
