import LedgerSigning.Proofs.Signing

/-! Signing with several keys at once and one after the other. Both ways make the same object, and
where one is refused so is the other with the same cause. -/
namespace LedgerSigning

namespace Json

variable {doc : Json} {mode : Mode} {key : String} {hash : Hash}

/-- A document has no hash exactly where it has no canonical text. -/
theorem hash_eq_error_iff {cause : EncodingError} : doc.hash mode = .error cause ↔
    ∃ fault, doc.canonical = .error fault ∧ cause = .canonical fault := by
  rw [hash, preimage]
  cases hText : doc.canonical with
  | error fault => simp [Except.map, bind, Except.bind, eq_comm]
  | ok text => cases mode <;> simp [Except.map, bind, Except.bind]

theorem sign_of_hash (hHash : doc.hash mode = .ok hash) :
    doc.sign mode key = Proof.make hash.text key := by
  rw [sign, hHash]
  rfl

theorem exists_sign_iff (hHash : doc.hash mode = .ok hash) :
    (∃ proof, doc.sign mode key = .ok proof) ↔ hash.Signable key := by
  rw [sign_of_hash hHash, Proof.exists_make_iff]

end Json

namespace Signed

variable {mode : Mode} {doc : Json} {keys : List String}

/-- Why signing with a row of keys is refused: first because the document has no canonical text, and
else by the first key that makes no proof, either because it is no key or because the signer finds no
signature with it. -/
inductive Refusal (mode : Mode) (doc : Json) (keys : List String) : Error → Prop
  | encoding {fault : CanonicalError} (hText : doc.canonical = .error fault) :
      Refusal mode doc keys (.encoding (.canonical fault))
  | key {hash : Hash} {before after : List String} {bad : String} {fault : KeyError}
      (hHash : doc.hash mode = .ok hash) (hKeys : keys = before ++ bad :: after)
      (hBefore : ∀ key ∈ before, hash.Signable key) (hKey : PrivateKey.ofText bad = .error fault) :
      Refusal mode doc keys (.key fault)
  | unsignable {hash : Hash} {before after : List String} {bad : String} {k : PrivateKey}
      (hHash : doc.hash mode = .ok hash) (hKeys : keys = before ++ bad :: after)
      (hBefore : ∀ key ∈ before, hash.Signable key) (hKey : PrivateKey.ofText bad = .ok k)
      (hMissed : Signature.Missed k.scalar hash.digest) : Refusal mode doc keys .unsignable

theorem Refusal.of_mapM_sign {cause : Error} (h : keys.mapM (doc.sign mode) = .error cause) :
    Refusal mode doc keys cause := by
  obtain ⟨before, bad, after, hKeys, hBefore, hBad⟩ := Except.mapM_eq_error_iff.mp h
  cases hHash : doc.hash mode with
  | error fault =>
      obtain ⟨fault, hText, rfl⟩ := Json.hash_eq_error_iff.mp hHash
      rw [Json.sign, hHash] at hBad
      cases hBad
      exact .encoding hText
  | ok hash =>
      have hSigned : ∀ key ∈ before, hash.Signable key := fun key hMem =>
        (Json.exists_sign_iff hHash).mp (hBefore key hMem)
      rw [Json.sign_of_hash hHash] at hBad
      rcases Proof.make_eq_error_iff.mp hBad with ⟨fault, hKey, rfl⟩ | ⟨k, hKey, hMissed, rfl⟩
      · exact .key hHash hKeys hSigned hKey
      · exact .unsignable hHash hKeys hSigned hKey hMissed

theorem Refusal.mapM_sign {cause : Error} (hSome : keys ≠ []) (h : Refusal mode doc keys cause) :
    keys.mapM (doc.sign mode) = .error cause := by
  have hSigned {hash : Hash} {before : List String} (hHash : doc.hash mode = .ok hash)
      (hBefore : ∀ key ∈ before, hash.Signable key) :
      ∀ key ∈ before, ∃ proof, doc.sign mode key = .ok proof := fun key hMem =>
    (Json.exists_sign_iff hHash).mpr (hBefore key hMem)
  rw [Except.mapM_eq_error_iff]
  cases h with
  | encoding hText =>
      obtain ⟨key, others, rfl⟩ := List.exists_cons_of_ne_nil hSome
      have hHash : doc.hash mode = .error _ := Json.hash_eq_error_iff.mpr ⟨_, hText, rfl⟩
      exact ⟨[], key, others, rfl, by simp, by rw [Json.sign, hHash]; rfl⟩
  | @key hash before after bad fault hHash hKeys hBefore hKey =>
      refine ⟨before, bad, after, hKeys, hSigned hHash hBefore, ?_⟩
      rw [Json.sign_of_hash hHash]
      exact Proof.make_eq_error_iff.mpr (.inl ⟨fault, hKey, rfl⟩)
  | @unsignable hash before after bad k hHash hKeys hBefore hKey hMissed =>
      refine ⟨before, bad, after, hKeys, hSigned hHash hBefore, ?_⟩
      rw [Json.sign_of_hash hHash]
      exact Proof.make_of_missed hKey hMissed

/-- Signatures that are added one after the other are those that are made in one go. -/
theorem foldlM_addSignature (signed : Signed Json) (keys : List String) :
    keys.foldlM (addSignature mode) signed =
      (keys.mapM (signed.value.sign mode)).map fun added =>
        ⟨signed.value, signed.proofs ++ added⟩ := by
  induction keys generalizing signed with
  | nil => simp [pure, Except.pure, Except.map]
  | cons key keys ih =>
      rw [List.foldlM_cons, List.mapM_cons, addSignature]
      cases signed.value.sign mode key with
      | error cause => rfl
      | ok proof =>
          change keys.foldlM (addSignature mode) (signed.withProof proof) = _
          rw [ih, withProof]
          cases keys.mapM (signed.value.sign mode) with
          | error cause => rfl
          | ok others =>
              simp [bind, Except.bind, pure, Except.pure, Except.map]

theorem batch_cons (mode : Mode) (doc : Json) (key : String) (keys : List String) :
    batch mode doc (key :: keys) =
      ((key :: keys).mapM (doc.sign mode)).map fun proofs => ⟨doc, proofs⟩ := by
  rw [batch, if_neg (by simp)]
  cases (key :: keys).mapM (doc.sign mode) <;> rfl

/-- Signing with one key or more at once has the outcome of signing with the first and adding the
signatures of the others in order, up to the first step that fails: the same object, or the same
cause. The cause is that the document has no canonical text, whatever the keys are, and else it is
found at the first key that makes no proof. Without keys nothing is signed. -/
theorem batch_eq_create_addSignature (mode : Mode) (doc : Json) (key : String)
    (keys : List String) :
    batch mode doc (key :: keys) =
        (create mode doc key >>= fun signed => keys.foldlM (addSignature mode) signed) ∧
      (∀ cause, batch mode doc (key :: keys) = .error cause ↔
        Refusal mode doc (key :: keys) cause) ∧
      batch mode doc [] = .error (.argument .noKeys) := by
  refine ⟨?_, fun cause => ?_, rfl⟩
  · rw [batch_cons, List.mapM_cons, create]
    cases doc.sign mode key with
    | error cause => rfl
    | ok proof =>
        change _ = keys.foldlM (addSignature mode) ⟨doc, [proof]⟩
        rw [foldlM_addSignature]
        cases keys.mapM (doc.sign mode) <;> rfl
  · rw [batch_cons, Except.map_eq_error_iff]
    exact ⟨.of_mapM_sign, fun h => h.mapM_sign (by simp)⟩

end Signed

end LedgerSigning
