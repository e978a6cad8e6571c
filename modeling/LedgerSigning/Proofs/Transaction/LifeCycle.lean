import LedgerSigning.Proofs.Signing
import LedgerSigning.Proofs.Transport
import LedgerSigning.Transaction.Create

/-! Transactions on their way. A transaction is passed on as text and signed by further keys in any
order; its body stays, and every proof verifies. -/
namespace LedgerSigning

theorem Reference.readBack : ReadBack Reference.toJson Reference.ofTree? := by
  rintro l ⟨hash, ordinal⟩
  have hFields := @Tree.fields?_object l
    [("hash", .string hash), ("ordinal", .ofUInt64 ordinal)] (by simp)
  simp only [List.map_cons, List.map_nil] at hFields
  simp [Reference.toJson, Reference.ofTree?, hFields, Tree.text?_tree, Tree.unsigned64?_tree]

theorem Body.readBack : ReadBack Body.toJson Body.ofTree? := by
  rintro l ⟨source, destination, amount, fee, parent, salt⟩
  have hFields := @Tree.fields?_object l
    [("source", .string source), ("destination", .string destination),
      ("amount", .ofUInt64 amount), ("fee", .ofUInt64 fee), ("parent", parent.toJson),
      ("salt", .string salt)] (by simp)
  simp only [List.map_cons, List.map_nil] at hFields
  simp [Body.toJson, Body.ofTree?, hFields, Tree.text?_tree, Tree.unsigned64?_tree,
    Reference.readBack l parent, Tree.numeralText?_tree]

namespace Transaction

/-- A transaction is read from its text in any style. -/
theorem ofText?_write {style : Writer.Style} (hStyle : style.Readable) (tx : Transaction) :
    ofText? (String.ofList (Writer.write style 0 tx.toJson)) = some tx := by
  rw [ofText?, String.toList_ofList, Tree.ofText?_write hStyle]
  exact Signed.readBack Body.readBack _ tx

variable {tx next : Transaction} {hash : Hash} {key : String}

/-- The check of a new proof never fails. -/
theorem sign_eq (tx : Transaction) (key : String) :
    tx.sign key = (tx.value.hash.mapError .encoding >>= fun hash =>
      Proof.make hash.text key >>= fun proof => .ok (tx.withProof proof)) := by
  rw [sign]
  congr 1
  funext hash
  cases hMake : Proof.make hash.text key with
  | error cause => simp only [bind, Except.bind]
  | ok proof => simp only [bind, Except.bind, if_pos (Proof.verifiesFor_make hMake)]

theorem sign_eq_ok_iff : tx.sign key = .ok next ↔
    ∃ hash, tx.value.hash = .ok hash ∧
      ∃ proof, Proof.make hash.text key = .ok proof ∧ next = tx.withProof proof := by
  simp only [sign_eq, Except.bind_eq_ok_iff, Except.mapError_eq_ok_iff, Except.ok.injEq,
    @eq_comm _ next]

/-- Signing fails where there is no hash or no proof is made. -/
theorem sign_eq_error_iff {cause : Error} : tx.sign key = .error cause ↔
    (∃ fault, tx.value.hash = .error fault ∧ cause = .encoding fault) ∨
      ∃ hash, tx.value.hash = .ok hash ∧ Proof.make hash.text key = .error cause := by
  simp only [sign_eq, Except.bind_eq_error_iff, Except.mapError_eq_ok_iff,
    Except.mapError_eq_error_iff, reduceCtorEq, and_false, exists_false, or_false]

theorem sign_ne_selfCheck (tx : Transaction) (key id text : String) :
    tx.sign key ≠ .error (.selfCheck id text) := by
  intro h
  rcases sign_eq_error_iff.mp h with ⟨_, -, hCause⟩ | ⟨_, -, hMake⟩
  · cases hCause
  · rcases Proof.make_eq_error_iff.mp hMake with ⟨_, -, hCause⟩ | ⟨_, -, -, hCause⟩ <;> cases hCause

/-- A signed transaction has one proof more, which verifies for its hash. -/
theorem extends_of_sign (hHash : tx.value.hash = .ok hash) (h : tx.sign key = .ok next) :
    ∃ proof, Signed.Extends (·.verifiesFor hash.text) tx next [key] [proof] := by
  obtain ⟨_, hOther, proof, hMake, rfl⟩ := sign_eq_ok_iff.mp h
  cases hHash.symm.trans hOther
  exact ⟨proof, rfl, rfl, .cons (Proof.id_of_make hMake) .nil,
    by simpa using Proof.verifiesFor_make hMake⟩

theorem exists_sign_iff (hHash : tx.value.hash = .ok hash) :
    (∃ next, tx.sign key = .ok next) ↔ hash.Signable key := by
  simp only [← Proof.exists_make_iff, sign_eq_ok_iff, hHash, Except.ok.injEq, exists_eq_left']
  constructor
  · rintro ⟨_, proof, hMake, -⟩
    exact ⟨proof, hMake⟩
  · rintro ⟨proof, hMake⟩
    exact ⟨_, proof, hMake, rfl⟩

/-- A transaction is signed by a key, unless the key misses its hash. -/
theorem sign_spec (hHash : tx.value.hash = .ok hash) {k : PrivateKey}
    (hKey : PrivateKey.ofText key = .ok k) :
    (∃ next, tx.sign key = .ok next) ∨
      tx.sign key = .error .unsignable ∧ Signature.Missed k.scalar hash.digest := by
  rcases Proof.make_spec hash hKey with ⟨proof, hMake⟩ | ⟨hMake, hMissed⟩
  · exact .inl ⟨_, sign_eq_ok_iff.mpr ⟨hash, hHash, proof, hMake, rfl⟩⟩
  · exact .inr ⟨sign_eq_error_iff.mpr (.inr ⟨hash, hHash, hMake⟩), hMissed⟩

/-- What happens to a transaction after it was made. -/
inductive Step where
  | cosign (key : String)
  /-- The transaction is written and read again. -/
  | transport (pretty : Bool)

/-- The keys that sign in a step. -/
def Step.keys : Step → List String
  | .cosign key => [key]
  | .transport _ => []

/-- Why a step fails. -/
inductive Fault where
  | refused (cause : Error)
  | unread

def step (tx : Transaction) : Step → Except Fault Transaction
  | .cosign key => (tx.sign key).mapError .refused
  | .transport pretty =>
    match ofText? (if pretty then tx.toJson.pretty else tx.toJson.compact) with
    | some tx => .ok tx
    | none => .error .unread

/-- Takes steps one after the other, up to the first that fails. -/
def run (tx : Transaction) (steps : List Step) : Except Fault Transaction := steps.foldlM step tx

theorem step_transport (tx : Transaction) (pretty : Bool) :
    tx.step (.transport pretty) = .ok tx := by
  have hRead : ofText? (if pretty then tx.toJson.pretty else tx.toJson.compact) = some tx := by
    split
    · exact ofText?_write Writer.readable_pretty tx
    · exact ofText?_write Writer.readable_compact tx
  rw [step, hRead]

theorem step_spec (hHash : tx.value.hash = .ok hash) (s : Step)
    (hKeys : ∀ key ∈ s.keys, ∃ k, PrivateKey.ofText key = .ok k) :
    (∃ next added, tx.step s = .ok next ∧
      Signed.Extends (·.verifiesFor hash.text) tx next s.keys added) ∨
    tx.step s = .error (.refused .unsignable) ∧ ∃ key ∈ s.keys, hash.Missed key := by
  cases s with
  | transport pretty => exact .inl ⟨tx, [], step_transport tx pretty, .refl tx⟩
  | cosign key =>
      obtain ⟨k, hKey⟩ := hKeys key List.mem_cons_self
      rcases sign_spec hHash hKey with ⟨next, hSign⟩ | ⟨hSign, hMissed⟩
      · obtain ⟨proof, hNext⟩ := extends_of_sign hHash hSign
        exact .inl ⟨next, [proof], Except.mapError_eq_ok_iff.mpr hSign, hNext⟩
      · exact .inr ⟨Except.mapError_eq_error_iff.mpr ⟨_, hSign, rfl⟩, key, List.mem_cons_self,
          k, hKey, hMissed⟩

/-- A whole run, by induction on its steps: each finds the body, and so the hash, of the first. -/
theorem run_spec (hHash : tx.value.hash = .ok hash) (steps : List Step)
    (hKeys : ∀ key ∈ steps.flatMap Step.keys, ∃ k, PrivateKey.ofText key = .ok k) :
    (∃ last added, tx.run steps = .ok last ∧
      Signed.Extends (·.verifiesFor hash.text) tx last (steps.flatMap Step.keys) added) ∨
    tx.run steps = .error (.refused .unsignable) ∧
      ∃ key ∈ steps.flatMap Step.keys, hash.Missed key := by
  induction steps generalizing tx with
  | nil => exact .inl ⟨tx, [], rfl, .refl tx⟩
  | cons s steps ih =>
      simp only [List.flatMap_cons, List.forall_mem_append] at hKeys ⊢
      rw [run, List.foldlM_cons]
      rcases step_spec hHash s hKeys.1 with ⟨next, first, hStep, hNext⟩ | ⟨hStep, key, hMem, hFails⟩
      · rw [hStep]
        rcases ih (hNext.value ▸ hHash) hKeys.2 with
          ⟨last, rest, hRun, hLast⟩ | ⟨hRun, key, hMem, hFails⟩
        · exact .inl ⟨last, first ++ rest, hRun, hNext.trans hLast⟩
        · exact .inr ⟨hRun, key, List.mem_append_right _ hMem, hFails⟩
      · rw [hStep]
        exact .inr ⟨rfl, key, List.mem_append_left _ hMem, hFails⟩

/-- A transaction is made by signing a body. -/
theorem create_eq_ok_iff {transfer : Transfer} {parent : Reference} {salt : String} :
    create transfer key parent salt = .ok tx ↔ ∃ k value, PrivateKey.ofText key = .ok k ∧
      body k.address transfer parent salt = .ok value ∧ sign ⟨value, []⟩ key = .ok tx := by
  simp only [create, Except.bind_eq_ok_iff, Except.mapError_eq_ok_iff, exists_and_left]

theorem create_eq_error {transfer : Transfer} {parent : Reference} {salt : String} {value : Body}
    {cause : Error} {k : PrivateKey} (hKey : PrivateKey.ofText key = .ok k)
    (hBody : body k.address transfer parent salt = .ok value)
    (hSign : sign ⟨value, []⟩ key = .error cause) :
    create transfer key parent salt = .error cause :=
  Except.bind_eq_error_iff.mpr (.inr ⟨k, Except.mapError_eq_ok_iff.mpr hKey,
    Except.bind_eq_error_iff.mpr (.inr ⟨value, Except.mapError_eq_ok_iff.mpr hBody, hSign⟩)⟩)

/-- A transaction that was made, and any steps after it with private keys. The body stays, and so
the hash and the reference, whatever proofs there are. Each key adds one proof in order, with its
identifying text, and all proofs are valid. No step fails unless the signer finds no signature with
one of the keys, and the check of a new proof never fails. -/
theorem run_of_create {transfer : Transfer} {parent : Reference} {salt : String}
    (h : create transfer key parent salt = .ok tx) :
    ∃ hash creator, tx.value.hash = .ok hash ∧ tx.proofs = [creator] ∧
      (PrivateKey.ofText key).map PrivateKey.id = .ok creator.id ∧
      (∀ proofs ordinal, reference ⟨tx.value, proofs⟩ ordinal = .ok ⟨hash.text, ordinal⟩) ∧
      (∀ proofs cosigner id text, sign ⟨tx.value, proofs⟩ cosigner ≠ .error (.selfCheck id text)) ∧
      ∀ steps, (∀ cosigner ∈ steps.flatMap Step.keys, ∃ k, PrivateKey.ofText cosigner = .ok k) →
        (∃ last added, tx.run steps = .ok last ∧ last.value = tx.value ∧
          last.proofs = creator :: added ∧
          List.Forall₂ (fun cosigner proof =>
            (PrivateKey.ofText cosigner).map PrivateKey.id = .ok proof.id)
            (steps.flatMap Step.keys) added ∧
          last.verdict = ⟨last.proofs, []⟩ ∧ last.verdict.isValid = true) ∨
        tx.run steps = .error (.refused .unsignable) ∧
          ∃ cosigner ∈ steps.flatMap Step.keys, hash.Missed cosigner := by
  obtain ⟨k, value, -, -, hSign⟩ := create_eq_ok_iff.mp h
  obtain ⟨hash, hHash, -⟩ := sign_eq_ok_iff.mp hSign
  obtain ⟨creator, hFirst⟩ := extends_of_sign hHash hSign
  have hBody : tx.value.hash = .ok hash := hFirst.value ▸ hHash
  refine ⟨hash, creator, hBody, hFirst.proofs, (List.forall₂_cons.mp hFirst.ids).1, ?_, ?_, ?_⟩
  · intro proofs ordinal
    rw [reference, hBody]
    rfl
  · exact fun proofs cosigner => sign_ne_selfCheck _ cosigner
  intro steps hKeys
  refine (run_spec hBody steps hKeys).imp_left ?_
  rintro ⟨last, added, hRun, hLast⟩
  have hWhole := hFirst.trans hLast
  have hVerdict : last.verdict = ⟨last.proofs, []⟩ := by
    rw [verdict, hWhole.value, hHash, hWhole.proofs]
    exact Verdict.ofCheck_of_all hWhole.checked
  refine ⟨last, added, hRun, hLast.value, hWhole.proofs, hLast.ids, hVerdict, ?_⟩
  rw [hVerdict, hWhole.proofs]
  rfl

/-- One token from the address of the scalar one. -/
def oneToken : Body :=
  ⟨"DAG6rkDwd7V6uboeH9fajUnue7eSsMKt4w9GiXjy", "DAG4o41NzhfX6DyYBTTXu6sJa6awm36abJpv89jB",
    100000000, 0, ⟨"", 0⟩, "1"⟩

def hashOneToken : Hash :=
  ⟨BigEndian.ofNat 32 0xfe48bcddee585a22501dfcd934cd8a37915cc2bbbb5e976c34c31dfcd2eebced⟩

theorem hash_oneToken : oneToken.hash = .ok hashOneToken := by decide +kernel

theorem signable_oneToken :
    hashOneToken.Signable "0000000000000000000000000000000000000000000000000000000000000001" :=
  Hash.signable_of_states
    0x548e9b07e8f6ed5d39b637e9ea770370c12fd9b567447a0c3836595b4a748663
    (.ofNats 0xa5f262b72c957d91ad3d10d9f919b72966ec1b27c4b6096127e20bd5845fb7b5
      0x75ff29e88a1cce0ac69646b33b9e7aa3bdf71ea1080684f9437620dfb0ce5501)
    (.ofNats 0x05d29f753e48bbc10b33ede5c40c50429b6ea36d74ad6aaf2493c435e1c3aefc
      0x9d178f5e16262fac8182ba58fbb0d22bc6ee306ea114ec3997a1862d771bbcb8)
    0xa718073e48611ded6e6ebad8c1d726610c6cde43a7408f13f51276b92bd60abb
    PrivateKey.ofText_one (by decide +kernel) (by decide +kernel) (by decide +kernel)
    (by decide +kernel) (by decide +kernel)

/-- The key of the scalar one sends a token, and the transaction travels, is signed with this key
once more and travels again. -/
theorem run_of_create_token :
    let key := "0000000000000000000000000000000000000000000000000000000000000001"
    let transfer : Transfer :=
      ⟨"DAG4o41NzhfX6DyYBTTXu6sJa6awm36abJpv89jB", .ofBits 0x3FF0000000000000, .zero false⟩
    ∃ tx last, create transfer key ⟨"", 0⟩ "1" = .ok tx ∧
      tx.run [.transport true, .cosign key, .transport false] = .ok last ∧
      last.value = tx.value ∧ last.proofs.length = 2 ∧
      last.verdict = ⟨last.proofs, []⟩ ∧ last.verdict.isValid = true := by
  intro key transfer
  have hAddress : PrivateKey.one.address = oneToken.source := by decide +kernel
  have hBody : body oneToken.source transfer ⟨"", 0⟩ "1" = .ok oneToken := by decide +kernel
  obtain ⟨tx, hSign⟩ := (@exists_sign_iff ⟨oneToken, []⟩ _ key hash_oneToken).mpr signable_oneToken
  have hTx : create transfer key ⟨"", 0⟩ "1" = .ok tx :=
    create_eq_ok_iff.mpr ⟨_, _, PrivateKey.ofText_one, hAddress ▸ hBody, hSign⟩
  obtain ⟨_, creator, hHash, -, -, -, -, hRun⟩ := run_of_create hTx
  have hSteps := hRun [.transport true, .cosign key, .transport false]
  simp only [List.flatMap_cons, List.flatMap_nil, Step.keys, List.append_nil, List.nil_append,
    List.mem_singleton, forall_eq, exists_eq_left] at hSteps
  rcases hSteps ⟨_, PrivateKey.ofText_one⟩ with
    ⟨last, added, hLast, hValue, hAll, hIds, hValid⟩ | ⟨-, hFails⟩
  · refine ⟨tx, last, hTx, hLast, hValue, ?_, hValid⟩
    rw [hAll, List.length_cons, ← hIds.length_eq]
    rfl
  · obtain ⟨_, _, proof, -, rfl⟩ := sign_eq_ok_iff.mp hSign
    cases hHash.symm.trans hash_oneToken
    exact absurd hFails (Hash.not_missed_of_signable signable_oneToken)

end Transaction

end LedgerSigning
