import LedgerSigning.Proofs.Key
import LedgerSigning.Signing

/-! Objects that are signed by several keys. Adding signatures never changes the value, and every
proof that was added verifies, whatever the proofs were that the object had before. -/
namespace LedgerSigning

namespace Verdict

variable {check : Proof → Bool} {proofs : List Proof}

theorem ofCheck_append_of_all {added : List Proof} (h : ∀ proof ∈ added, check proof = true) :
    ofCheck check (proofs ++ added) =
      ⟨(ofCheck check proofs).valid ++ added, (ofCheck check proofs).invalid⟩ := by
  have hValid : added.filter check = added := List.filter_eq_self.mpr h
  have hInvalid : added.filter (!check ·) = [] := by
    rw [List.filter_eq_nil_iff]
    intro proof hMem
    simp [h proof hMem]
  simp only [ofCheck, List.filter_append, hValid, hInvalid, List.append_nil]

theorem ofCheck_of_all (h : ∀ proof ∈ proofs, check proof = true) :
    ofCheck check proofs = ⟨proofs, []⟩ :=
  @ofCheck_append_of_all check [] proofs h

/-- A verdict without invalid proofs has all proofs valid. -/
theorem isValid_ofCheck_iff : (ofCheck check proofs).isValid = true ↔
    (ofCheck check proofs).invalid = [] ∧ proofs ≠ [] := by
  rw [isValid, Bool.and_eq_true, List.isEmpty_iff]
  refine and_congr_right fun hInvalid => ?_
  have hAll : ∀ proof ∈ proofs, check proof = true := by
    simpa [ofCheck, List.filter_eq_nil_iff] using hInvalid
  rw [ofCheck_of_all hAll]
  simp

end Verdict

namespace Json

variable {doc : Json} {mode : Mode} {key : String} {proof : Proof}

theorem sign_eq_ok_iff : doc.sign mode key = .ok proof ↔
    ∃ hash, doc.hash mode = .ok hash ∧ Proof.make hash.text key = .ok proof := by
  rw [sign, Except.bind_eq_ok_iff]
  simp only [Except.mapError_eq_ok_iff]

/-- A proof that was made for a document verifies for it. -/
theorem verifiesProof_of_sign (h : doc.sign mode key = .ok proof) :
    doc.verifiesProof mode proof = true := by
  obtain ⟨hash, hHash, hMake⟩ := sign_eq_ok_iff.mp h
  rw [verifiesProof, hHash]
  exact Proof.verifiesFor_make hMake

theorem id_of_sign (h : doc.sign mode key = .ok proof) :
    (PrivateKey.ofText key).map PrivateKey.id = .ok proof.id := by
  obtain ⟨hash, -, hMake⟩ := sign_eq_ok_iff.mp h
  exact Proof.id_of_make hMake

/-- Signing with several keys makes one proof a key, and they all verify. -/
theorem verifiesProof_of_mapM {keys : List String} {proofs : List Proof}
    (h : keys.mapM (doc.sign mode) = .ok proofs) : proofs.length = keys.length ∧
      ∀ proof ∈ proofs, doc.verifiesProof mode proof = true := by
  induction keys generalizing proofs with
  | nil =>
      rw [List.mapM_nil] at h
      cases h
      simp
  | cons key keys ih =>
      rw [List.mapM_cons] at h
      obtain ⟨proof, hSign, hRest⟩ := Except.bind_eq_ok_iff.mp h
      obtain ⟨others, hOthers, hProofs⟩ := Except.bind_eq_ok_iff.mp hRest
      cases hProofs
      obtain ⟨hLength, hAll⟩ := ih hOthers
      exact ⟨congrArg (· + 1) hLength, List.forall_mem_cons.mpr ⟨verifiesProof_of_sign hSign, hAll⟩⟩

end Json

namespace Signed

section Extends

variable {α : Type} {check : Proof → Bool}

/-- The second object is the first with proofs added, one for each key in order, that all pass a
check. -/
structure Extends (check : Proof → Bool) (signed last : Signed α) (keys : List String)
    (added : List Proof) : Prop where
  value : last.value = signed.value
  proofs : last.proofs = signed.proofs ++ added
  ids : List.Forall₂ (fun key proof => (PrivateKey.ofText key).map PrivateKey.id = .ok proof.id)
    keys added
  checked : ∀ proof ∈ added, check proof = true

theorem Extends.refl (signed : Signed α) : Extends check signed signed [] [] :=
  ⟨rfl, (List.append_nil _).symm, .nil, by simp⟩

theorem Extends.trans {first second third : Signed α} {keys more : List String}
    {added others : List Proof} (h : Extends check first second keys added)
    (h' : Extends check second third more others) :
    Extends check first third (keys ++ more) (added ++ others) where
  value := h'.value.trans h.value
  proofs := by rw [h'.proofs, h.proofs, List.append_assoc]
  ids := List.rel_append h.ids h'.ids
  checked proof hMem := (List.mem_append.mp hMem).elim (h.checked proof) (h'.checked proof)

/-- Steps that add a proof each, one for each key, and go on as long as none fails. -/
theorem extends_foldlM {step : Signed α → String → Except Error (Signed α)}
    {check : α → Proof → Bool}
    (hStep : ∀ signed next key, step signed key = .ok next →
      ∃ proof, Extends (check signed.value) signed next [key] [proof])
    {keys : List String} {signed last : Signed α} (h : keys.foldlM step signed = .ok last) :
    ∃ added, Extends (check signed.value) signed last keys added := by
  induction keys generalizing signed with
  | nil =>
      cases h
      exact ⟨[], .refl last⟩
  | cons key keys ih =>
      obtain ⟨next, hFirst, hRest⟩ := Except.bind_eq_ok_iff.mp h
      obtain ⟨proof, hNext⟩ := hStep signed next key hFirst
      obtain ⟨added, hLast⟩ := ih hRest
      exact ⟨proof :: added, hNext.trans (hNext.value ▸ hLast)⟩

end Extends

variable {mode : Mode}

theorem verdict_eq (signed : Signed Json) :
    signed.verdict mode = .ofCheck (signed.value.verifiesProof mode) signed.proofs := by
  unfold verdict Verdict.ofHash Json.verifiesProof
  cases signed.value.hash mode <;> rfl

/-- Adds signatures one after the other, where a step that fails leaves the object as it is. The
keys of the other steps are listed. -/
def cosign (mode : Mode) (signed : Signed Json) : List String → Signed Json × List String
  | [] => (signed, [])
  | key :: keys =>
    match signed.addSignature mode key with
    | .ok next => ((next.cosign mode keys).1, key :: (next.cosign mode keys).2)
    | .error _ => signed.cosign mode keys

theorem addSignature_eq_ok_iff {signed next : Signed Json} {key : String} :
    signed.addSignature mode key = .ok next ↔
      ∃ proof, signed.value.sign mode key = .ok proof ∧ next = signed.withProof proof := by
  rw [addSignature, Except.bind_eq_ok_iff]
  simp only [Except.ok.injEq, eq_comm]

/-- One step adds a proof that verifies for the value. -/
theorem extends_of_addSignature {signed next : Signed Json} {key : String}
    (h : signed.addSignature mode key = .ok next) :
    ∃ proof, Extends (signed.value.verifiesProof mode) signed next [key] [proof] := by
  obtain ⟨proof, hSign, rfl⟩ := addSignature_eq_ok_iff.mp h
  refine ⟨proof, rfl, rfl, .cons (Json.id_of_sign hSign) .nil, ?_⟩
  simpa using Json.verifiesProof_of_sign hSign

/-- A key adds its proof, unless the signer finds no signature with it. -/
theorem addSignature_spec {signed : Signed Json} {hash : Hash} {key : String} {k : PrivateKey}
    (hHash : signed.value.hash mode = .ok hash) (hKey : PrivateKey.ofText key = .ok k) :
    (∃ next proof, signed.addSignature mode key = .ok next ∧
      Extends (signed.value.verifiesProof mode) signed next [key] [proof]) ∨
    signed.addSignature mode key = .error .unsignable ∧
      Signature.Missed k.scalar hash.digest := by
  rcases Proof.make_spec hash hKey with ⟨proof, hMake⟩ | ⟨hMake, hMissed⟩
  · have hSign := Json.sign_eq_ok_iff.mpr ⟨hash, hHash, hMake⟩
    have hNext := addSignature_eq_ok_iff.mpr ⟨proof, hSign, rfl⟩
    obtain ⟨other, hExtends⟩ := extends_of_addSignature hNext
    exact .inl ⟨_, other, hNext, hExtends⟩
  · have hSign : signed.value.sign mode key = .error .unsignable :=
      Except.bind_eq_error_iff.mpr (.inr ⟨hash, Except.mapError_eq_ok_iff.mpr hHash, hMake⟩)
    exact .inr ⟨Except.bind_eq_error_iff.mpr (.inl hSign), hMissed⟩

/-- A whole run, by induction on its steps. -/
theorem extends_cosign (signed : Signed Json) (keys : List String) :
    ∃ added, Extends (signed.value.verifiesProof mode) signed (signed.cosign mode keys).1
      (signed.cosign mode keys).2 added := by
  induction keys generalizing signed with
  | nil => exact ⟨[], .refl signed⟩
  | cons key keys ih =>
      rw [cosign]
      cases hStep : signed.addSignature mode key with
      | error cause => exact ih signed
      | ok next =>
          obtain ⟨proof, hNext⟩ := extends_of_addSignature hStep
          obtain ⟨added, hRest⟩ := ih next
          rw [hNext.value] at hRest
          exact ⟨proof :: added, hNext.trans hRest⟩

/-- Whether a step succeeds is decided by its key alone. -/
theorem cosign_keys (signed : Signed Json) (keys : List String) :
    (signed.cosign mode keys).2 = keys.filter fun key => (signed.value.sign mode key).isOk := by
  induction keys generalizing signed with
  | nil => rfl
  | cons key keys ih =>
      rw [cosign, List.filter_cons]
      cases hSign : signed.value.sign mode key with
      | error cause =>
          have hStep : signed.addSignature mode key = .error cause := by
            rw [addSignature, hSign]
            rfl
          simp [hStep, ih, Except.isOk, Except.toBool]
      | ok proof =>
          have hStep := addSignature_eq_ok_iff.mpr ⟨proof, hSign, rfl⟩
          simp [hStep, ih, withProof, Except.isOk, Except.toBool]

theorem batch_eq_ok_iff {doc : Json} {keys : List String} {signed : Signed Json} :
    batch mode doc keys = .ok signed ↔
      keys ≠ [] ∧ ∃ proofs, keys.mapM (doc.sign mode) = .ok proofs ∧ signed = ⟨doc, proofs⟩ := by
  cases keys with
  | nil => simp [batch]
  | cons key keys =>
      rw [batch, if_neg (by simp), Except.bind_eq_ok_iff]
      simp only [Except.ok.injEq, ne_eq, reduceCtorEq, not_false_eq_true, true_and, eq_comm]

/-- An object that was just signed, by one key or by several, has proofs and all of them verify. -/
inductive Started (mode : Mode) (signed : Signed Json) : Prop
  | create (doc : Json) (key : String) (h : create mode doc key = .ok signed)
  | batch (doc : Json) (keys : List String) (h : batch mode doc keys = .ok signed)

theorem Started.proofs_verify {signed : Signed Json} (h : Started mode signed) :
    signed.proofs ≠ [] ∧ ∀ proof ∈ signed.proofs, signed.value.verifiesProof mode proof = true := by
  cases h with
  | create doc key h =>
      obtain ⟨proof, hSign, hSigned⟩ := Except.bind_eq_ok_iff.mp h
      cases hSigned
      simpa using Json.verifiesProof_of_sign hSign
  | batch doc keys h =>
      obtain ⟨hKeys, proofs, hSign, rfl⟩ := batch_eq_ok_iff.mp h
      obtain ⟨hLength, hAll⟩ := Json.verifiesProof_of_mapM hSign
      refine ⟨?_, hAll⟩
      rintro rfl
      exact hKeys (List.length_eq_zero_iff.mp hLength.symm)

/-- A run of added signatures. The value stays, and the proofs are extended by one for each step
that succeeds, in order, with the identifying text of its key. All of these are valid, and the
verdict on the others stays; so the whole is valid if there are proofs and none of the first is
invalid. That is the case where the object was signed before in the same mode. -/
theorem verdict_cosign (mode : Mode) (signed : Signed Json) (keys : List String) :
    ∃ last done added, signed.cosign mode keys = (last, done) ∧
      done = keys.filter (fun key => (signed.value.sign mode key).isOk) ∧
      last.value = signed.value ∧ last.proofs = signed.proofs ++ added ∧
      List.Forall₂ (fun key proof => (PrivateKey.ofText key).map PrivateKey.id = .ok proof.id)
        done added ∧
      last.verdict mode = ⟨(signed.verdict mode).valid ++ added, (signed.verdict mode).invalid⟩ ∧
      ((last.verdict mode).isValid = true ↔
        (signed.verdict mode).invalid = [] ∧ last.proofs ≠ []) ∧
      (Started mode signed →
        last.verdict mode = ⟨last.proofs, []⟩ ∧ (last.verdict mode).isValid = true) := by
  obtain ⟨added, hRun⟩ := @extends_cosign mode signed keys
  have hVerdict : (signed.cosign mode keys).1.verdict mode =
      ⟨(signed.verdict mode).valid ++ added, (signed.verdict mode).invalid⟩ := by
    rw [verdict_eq, verdict_eq, hRun.value, hRun.proofs,
      Verdict.ofCheck_append_of_all hRun.checked]
  have hValid : ((signed.cosign mode keys).1.verdict mode).isValid = true ↔
      (signed.verdict mode).invalid = [] ∧ (signed.cosign mode keys).1.proofs ≠ [] := by
    have hInvalid := congrArg Verdict.invalid hVerdict
    rw [verdict_eq] at hInvalid
    rw [verdict_eq, Verdict.isValid_ofCheck_iff, hInvalid]
  refine ⟨_, _, added, rfl, cosign_keys signed keys, hRun.value, hRun.proofs, hRun.ids, hVerdict,
    hValid, fun hStarted => ?_⟩
  obtain ⟨hSome, hAll⟩ := hStarted.proofs_verify
  have hFirst : signed.verdict mode = ⟨signed.proofs, []⟩ := by
    rw [verdict_eq, Verdict.ofCheck_of_all hAll]
  rw [hValid, hVerdict, hFirst, hRun.proofs]
  exact ⟨rfl, rfl, by simp [hSome]⟩

/-- The hash of the value true. -/
def hashTrue : Hash :=
  ⟨BigEndian.ofNat 32 0xb5bea41b6c623f7c09f1bf24dcae58ebab3c0cdd90ad966bc43a45b44867e12b⟩

theorem hash_true : (Json.bool true).hash .plain = .ok hashTrue := by decide +kernel

theorem signable_true :
    hashTrue.Signable "0000000000000000000000000000000000000000000000000000000000000001" :=
  Hash.signable_of_states
    0x93bca5a5d931fc86d58c6caf38a8175ae3825bd09aebe4f125a0b39ffc4d8cc4
    (.ofNats 0x741b2377aad39af477faebf8f8cb415bb2e571bd2642fadc36853eee530a7db3
      0x10d98f602ee0f47b018d2303b26e37ec9060f5b63540c0024893ff32bf6b7310)
    (.ofNats 0xc34b2537a15ff4eef519dc5445289ed4b8b9c076135ef2a5020a62e05eb45b61
      0x1a20962eb751f72869d5e89e64736a990e6e0edc72656cbe71044b22e3e43ee1)
    0x0dffcd1f0fdeec4a32b5bbe94105239166cbcef4f24a48607ec6152966ae2ebf
    PrivateKey.ofText_one (by decide +kernel) (by decide +kernel) (by decide +kernel)
    (by decide +kernel) (by decide +kernel)

/-- The key of the scalar one signs the value true, a text that is no key adds nothing, and the
first key may sign again. -/
theorem verdict_cosign_true :
    let key := "0000000000000000000000000000000000000000000000000000000000000001"
    ∃ signed last, create .plain (.bool true) key = .ok signed ∧
      signed.cosign .plain ["1", key] = (last, [key]) ∧ last.proofs.length = 2 ∧
      last.verdict .plain = ⟨last.proofs, []⟩ ∧ (last.verdict .plain).isValid = true := by
  intro key
  obtain ⟨proof, hMake⟩ := Proof.exists_make_iff.mpr signable_true
  have hSign : (Json.bool true).sign .plain key = .ok proof :=
    Json.sign_eq_ok_iff.mpr ⟨_, hash_true, hMake⟩
  have hCreated : create .plain (.bool true) key = .ok ⟨.bool true, [proof]⟩ :=
    Except.bind_eq_ok_iff.mpr ⟨proof, hSign, rfl⟩
  obtain ⟨last, done, added, hRun, hDone, -, hProofs, hIds, -, -, hValid⟩ :=
    verdict_cosign .plain ⟨.bool true, [proof]⟩ ["1", key]
  have hRefused : ((Json.bool true).sign .plain "1").isOk = false := by decide +kernel
  have hKeys : done = [key] := by
    rw [hDone, List.filter_cons, List.filter_cons, hRefused, hSign]
    rfl
  obtain ⟨hVerdict, hWhole⟩ := hValid (.create _ key hCreated)
  refine ⟨_, last, hCreated, hKeys ▸ hRun, ?_, hVerdict, hWhole⟩
  rw [hProofs, List.length_append, ← hIds.length_eq, hKeys]
  rfl

end Signed

end LedgerSigning
