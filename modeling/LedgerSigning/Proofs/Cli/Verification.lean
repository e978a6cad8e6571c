import LedgerSigning.Proofs.Cli.Changes
import LedgerSigning.Proofs.Transaction.Creation
import LedgerSigning.Proofs.Verification

/-! Verdicts on documents and transactions, and the commands that print them. A command succeeds
exactly when the file it names is read and the verdict on what it holds is valid. -/
namespace LedgerSigning

namespace Transaction

theorem verdict_eq (tx : Transaction) :
    tx.verdict = .ofCheck tx.value.verifiesProof tx.proofs := by
  unfold verdict Verdict.ofHash Body.verifiesProof
  cases tx.value.hash <;> rfl

theorem decides_verdict (body : Body) :
    Verdict.Decides body.verifiesProof fun proofs => verdict ⟨body, proofs⟩ := by
  rw [Verdict.decides_iff]
  exact funext fun proofs => verdict_eq ⟨body, proofs⟩

/-- A transaction whose salt stands for no integer has no valid proof. -/
theorem verdict_of_bad_salt {body : Body} (hSalt : ¬∃ n, Salt.Denotes body.salt n)
    (proofs : List Proof) : verdict ⟨body, proofs⟩ = ⟨[], proofs⟩ := by
  rw [verdict, (hash_guarded body).refused _ (.here hSalt), Verdict.ofHash_error]

end Transaction

namespace Report

open Script

/-- A verdict that is not valid is a failure, whatever is printed before. -/
theorem fails_verdict {v : Verdict} (h : ¬v.isValid = true) : Fails (verdict v) := by
  unfold verdict
  dsimp only
  rw [if_neg h]
  exact .bind fun _ => .bind fun _ => .bind fun _ => .bind fun _ => .bind fun _ => .bind fun _ => by
    rw [if_neg h]
    split_ifs <;> exact fails_fail _

theorem run_verdict_ok_iff {v : Verdict} {world : World} :
    ((verdict v).run world).1 = .ok () ↔ v.isValid = true := by
  by_cases hValid : v.isValid = true
  · obtain ⟨_, after, hRun, -⟩ := reports_verdict hValid world
    simp [hRun, hValid]
  · obtain ⟨failure, after, hRun⟩ := fails_verdict hValid world
    simp [hRun, hValid]

end Report

namespace Commands

open Script

/-- A command that judges what is in a file succeeds if the file is read and judged valid. -/
theorem run_judge_ok_iff {α : Type} {read : Tree → Option α} {judge : α → Verdict} {path : String}
    {world : World} :
    ((readAs read path >>= fun value => Report.verdict (judge value)).run world).1 = .ok () ↔
      ∃ value,
        (readAs read path).run world = (.ok value, world) ∧ (judge value).isValid = true := by
  rw [(still_readAs _ _).run_bind_ok_iff]
  simp only [Report.run_verdict_ok_iff]

/-- Verdicts look at each proof by itself, those on documents in either mode and those on
transactions. Without a canonical text or with a salt that stands for no integer all proofs are
invalid. The commands that verify a file succeed exactly when the settings and the file are read and
the verdict on what the file holds is valid. -/
theorem verdicts_pointwise :
    (∀ mode doc,
      Verdict.Decides (doc.verifiesProof mode) fun proofs => Signed.verdict mode ⟨doc, proofs⟩) ∧
    (∀ body : Body,
      Verdict.Decides body.verifiesProof fun proofs => Transaction.verdict ⟨body, proofs⟩) ∧
    (∀ mode doc fault proofs, doc.canonical = .error fault →
      Signed.verdict mode ⟨doc, proofs⟩ = ⟨[], proofs⟩) ∧
    (∀ (body : Body) proofs, (¬∃ n, Salt.Denotes body.salt n) →
      Transaction.verdict ⟨body, proofs⟩ = ⟨[], proofs⟩) ∧
    (∀ home invocation world path dataUpdate, invocation.command = .verify path dataUpdate →
      (((ofInvocation home invocation).run world).1 = .ok () ↔ ∃ settings,
        (loadSettings invocation.settings home).run world = (.ok settings, world) ∧
        ∃ signed, (readSigned path).run world = (.ok signed, world) ∧
          (signed.verdict (.ofFlag (dataUpdate || settings.dataUpdate))).isValid = true)) ∧
    ∀ home invocation world path, invocation.command = .verifyTransaction path →
      (((ofInvocation home invocation).run world).1 = .ok () ↔ ∃ settings,
        (loadSettings invocation.settings home).run world = (.ok settings, world) ∧
        ∃ tx, (readTransaction path).run world = (.ok tx, world) ∧
          tx.verdict.isValid = true) := by
  refine ⟨Signed.decides_verdict, Transaction.decides_verdict,
    fun mode doc fault proofs hText => Signed.verdict_of_canonical_error hText proofs,
    fun body proofs hSalt => Transaction.verdict_of_bad_salt hSalt proofs,
    fun home invocation world path dataUpdate hCommand => ?_,
    fun home invocation world path hCommand => ?_⟩
  · rw [ofInvocation, (still_loadSettings _ _).run_bind_ok_iff, hCommand]
    refine exists_congr fun settings => and_congr_right fun _ => ?_
    exact run_judge_ok_iff
  · rw [ofInvocation, (still_loadSettings _ _).run_bind_ok_iff, hCommand]
    refine exists_congr fun settings => and_congr_right fun _ => ?_
    exact run_judge_ok_iff

/-- The key of the scalar one signs the value true and a transaction of one token, and both files
are verified. An integer beyond the safe range and a salt that is no number have no valid proof. -/
theorem verdicts_pointwise_files : ∃ proof other : Proof,
    let files : Files := .ofList
      [("doc", Utf8.encode (Signed.document ⟨.bool true, [proof]⟩).pretty.toList),
        ("tx", Utf8.encode (Transaction.toJson ⟨Transaction.oneToken, [other]⟩).pretty.toList)]
    let world : World := ⟨files, "", "", fun _ => 0, 0⟩
    ((ofInvocation none ⟨none, [], none, .verify "doc" false⟩).run world).1 = .ok () ∧
    ((ofInvocation none ⟨none, [], none, .verifyTransaction "tx"⟩).run world).1 = .ok () ∧
    Signed.verdict .plain ⟨.number (.integer 9007199254740992 (by decide)), [proof]⟩ =
      ⟨[], [proof]⟩ ∧
    Transaction.verdict ⟨{ Transaction.oneToken with salt := "x" }, [other]⟩ = ⟨[], [other]⟩ := by
  obtain ⟨-, -, hUnsafe, hSalt, hVerify, hVerifyTransaction⟩ := verdicts_pointwise
  obtain ⟨proof, hMake⟩ := Proof.exists_make_iff.mpr Signed.signable_true
  obtain ⟨other, hOther⟩ := Proof.exists_make_iff.mpr Transaction.signable_oneToken
  have hSigned : ∀ signer ∈ [proof], (Json.bool true).verifiesProof .plain signer = true := by
    rw [List.forall_mem_singleton]
    exact Json.verifiesProof_of_sign (Json.sign_eq_ok_iff.mpr ⟨_, Signed.hash_true, hMake⟩)
  have hSent : ∀ signer ∈ [other], Transaction.oneToken.verifiesProof signer = true := by
    rw [List.forall_mem_singleton, Body.verifiesProof, Transaction.hash_oneToken]
    exact Proof.verifiesFor_make hOther
  have hRead (bytes more : List UInt8) :
      (Files.ofList [("doc", bytes), ("tx", more)]).read "doc" = .ok bytes ∧
      (Files.ofList [("doc", bytes), ("tx", more)]).read "tx" = .ok more := ⟨by cbv, by cbv⟩
  have hOrdered : (Json.bool true).Ordered := by rintro _ ⟨⟩ _ ⟨⟩
  have hBadSalt : ¬∃ n, Salt.Denotes "x" n := by
    rintro ⟨n, hDenotes⟩
    have hHex : Salt.hex "x" = .error (.badSalt "x") := by decide +kernel
    cases hHex.symm.trans (Salt.hex_of_denotes hDenotes)
  refine ⟨proof, other, ?_, ?_, hUnsafe _ _ (.unsafeInteger 9007199254740992) _ (by decide +kernel),
    hSalt _ _ hBadSalt⟩
  · refine (hVerify _ _ _ _ _ rfl).mpr ⟨.standard, rfl, ⟨.bool true, [proof]⟩, ?_, ?_⟩
    · rw [run_readSigned hOrdered (hRead _ _).1]
      rfl
    · change (Signed.verdict .plain ⟨.bool true, [proof]⟩).isValid = true
      rw [Signed.verdict_eq, Verdict.ofCheck_of_all hSigned]
      rfl
  · refine (hVerifyTransaction _ _ _ _ rfl).mpr
      ⟨.standard, rfl, ⟨Transaction.oneToken, [other]⟩, ?_, ?_⟩
    · rw [readTransaction, run_readAs_pretty (hRead _ _).2]
      rw [Transaction.ofTree?, Transaction.toJson, Signed.readBack Body.readBack]
    · rw [Transaction.verdict_eq, Verdict.ofCheck_of_all hSent]
      rfl

end Commands

end LedgerSigning
