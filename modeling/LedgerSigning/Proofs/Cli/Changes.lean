import LedgerSigning.Proofs.Cli.Assignments
import LedgerSigning.Proofs.Cli.Files
import LedgerSigning.Proofs.Cli.Inputs
import LedgerSigning.Proofs.Transaction.LifeCycle

/-! What commands do to the files. A command that comes to its end has written its target, if it has
one, and nothing else; a command that fails before has changed no file. Between the two stands the
mode of the target: where it cannot be set, the command fails and the target is written. -/
namespace LedgerSigning

/-- The file that a command is to write. -/
def Command.target : Command → Option String
  | .sign path _ _ output false => output <|> path.map Commands.signedPath
  | .cosign path _ false => some path
  | .createTransaction _ _ _ _ output => output
  | .batchTransactions _ _ output => output
  | .cosignTransaction path false => some path
  | _ => none

/-- Whether a proof verifies for a body. -/
def Body.verifiesProof (body : Body) (proof : Proof) : Bool :=
  match body.hash with
  | .ok hash => proof.verifiesFor hash.text
  | .error _ => false

theorem Transaction.extends_of_sign_key {tx next : Transaction} {key : String}
    (h : tx.sign key = .ok next) :
    ∃ proof, Signed.Extends tx.value.verifiesProof tx next [key] [proof] := by
  obtain ⟨hash, hHash, -⟩ := sign_eq_ok_iff.mp h
  have hCheck : tx.value.verifiesProof = (·.verifiesFor hash.text) := by
    funext proof
    rw [Body.verifiesProof, hHash]
  rw [hCheck]
  exact extends_of_sign hHash h

namespace Report

open Script

theorem reports_signers (proofs : List Proof) : Reports (signers proofs) :=
  (reports_printLine _).bind fun _ => Reports.forM (fun _ => reports_printLine _) proofs

/-- A line on what was written, and the signers below it. -/
theorem reports_line_signers (line : String) (proofs : List Proof) :
    Reports (printLine line >>= fun _ => signers proofs) :=
  (reports_printLine line).bind fun _ => reports_signers proofs

theorem writes_emit (output : Option String) (doc : Json) : Writes output (emit output doc) := by
  cases output with
  | none => exact (reports_printLine _).keeps.writes
  | some path => exact writes_writeText_bind fun _ => reports_printLine _

theorem reports_proofs (mark : String) (proofs : List Proof) :
    Reports (proofs.forM fun proof => printLine (mark ++ shortId proof.id)) :=
  Reports.forM (fun _ => reports_printLine _) proofs

/-- A verdict that is valid is no failure. -/
theorem reports_verdict {v : Verdict} (h : v.isValid = true) : Reports (verdict v) := by
  unfold verdict
  dsimp only
  rw [if_pos h]
  exact (reports_printLine _).bind fun _ => (reports_printLine _).bind fun _ =>
    (reports_printLine _).bind fun _ => (reports_printLine _).bind fun _ =>
    (reports_proofs _ _).bind fun _ => (reports_proofs _ _).bind fun _ => by
      rw [if_pos h]
      exact reports_done _

theorem keeps_verdict (v : Verdict) : Keeps (verdict v) := by
  by_cases h : v.isValid = true
  · exact (reports_verdict h).keeps
  · unfold verdict
    dsimp only
    rw [if_neg h]
    exact (reports_warnLine _).keeps.bind fun _ => (reports_printLine _).keeps.bind fun _ =>
      (reports_printLine _).keeps.bind fun _ => (reports_printLine _).keeps.bind fun _ =>
      (reports_proofs _ _).keeps.bind fun _ => (reports_proofs _ _).keeps.bind fun _ => by
        rw [if_neg h]
        split_ifs <;> exact (still_fail (by simp)).keeps

end Report

namespace Commands

open Script

theorem reports_drawSalt : Reports drawSalt :=
  (reports_randomBytes 8).bind fun _ => reports_done _

theorem reports_drawSalts (transfers : List Transfer) :
    Reports (transfers.mapM fun transfer => do
      let salt ← drawSalt
      pure (transfer, salt)) :=
  Reports.mapM (fun _ => reports_drawSalt.bind fun _ => reports_done _) transfers

theorem reports_keygen (json : Bool) : Reports (keygen json) := by
  refine (reports_randomBytes 40).bind fun bytes => ?_
  dsimp only
  split_ifs
  · exact reports_printLine _
  · exact (reports_printLine _).bind fun _ => (reports_printLine _).bind fun _ =>
      (reports_printLine _).bind fun _ => (reports_printLine _).bind fun _ => reports_printLine _

theorem keeps_address (publicKey : String) : Keeps (address publicKey) :=
  (still_attempt _).keeps.bind fun _ => (reports_printLine _).keeps

theorem keeps_validate (text : String) : Keeps (validate text) := by
  unfold validate
  split_ifs
  · exact (reports_printLine _).keeps
  · exact (reports_warnLine _).keeps.bind fun _ => (still_fail (by simp)).keeps

variable {invocation : Invocation} {settings : Settings} {path : String} {mode : Mode}

theorem writes_finishCosign (path : String) (dryRun : Bool) (doc : Json) (proofs : List Proof) :
    Writes (if dryRun then none else some path) (finishCosign path dryRun doc proofs) := by
  cases dryRun with
  | true => exact (reports_printLine _).keeps.writes
  | false => exact writes_writeText_bind fun _ => Report.reports_line_signers _ proofs

theorem writes_sign (path : Option String) (fields : List String) (output : Option String)
    (dryRun : Bool) :
    Writes (if dryRun then none else output <|> path.map signedPath)
      (sign invocation settings path mode fields output dryRun) := by
  refine (still_buildDocument path fields).keeps.bind_writes fun doc =>
    (still_signingKeys _ _).keeps.bind_writes fun keys =>
    (still_attempt _).keeps.bind_writes fun signed => ?_
  generalize (output <|> path.map signedPath) = target
  cases dryRun with
  | true => cases target <;> exact (reports_printLine _).keeps.writes
  | false =>
      cases target with
      | none => exact (reports_printLine _).keeps.writes
      | some target => exact writes_writeText_bind fun _ => Report.reports_line_signers _ _

/-- Signing what is in a file once more, whatever it is that is signed. -/
def cosignFile {α : Type} (invocation : Invocation) (settings : Settings) (path : String)
    (read : Tree → Option (Signed α)) (step : Signed α → String → Except Error (Signed α))
    (document : Signed α → Json) (dryRun : Bool) : Script Unit := do
  let signed ← readAs read path
  let keys ← signingKeys invocation settings
  let last ← attempt (keys.foldlM step signed)
  finishCosign path dryRun (document last) last.proofs

theorem cosign_eq (dryRun : Bool) : cosign invocation settings path mode dryRun =
    cosignFile invocation settings path (Signed.ofTree? (Tree.toJson? (Tree.maxLevels - 1)))
      (Signed.addSignature mode) Signed.document dryRun := rfl

theorem cosignTransaction_eq (dryRun : Bool) : cosignTransaction invocation settings path dryRun =
    cosignFile invocation settings path Transaction.ofTree? Transaction.sign Transaction.toJson
      dryRun := rfl

section CosignFile

variable {α : Type} {read : Tree → Option (Signed α)}
  {step : Signed α → String → Except Error (Signed α)} {document : Signed α → Json}
  {world : World} {files : Files} {answer : Except FileError Unit}

theorem writes_cosignFile (dryRun : Bool) : Writes (if dryRun then none else some path)
    (cosignFile invocation settings path read step document dryRun) :=
  (still_readAs _ _).keeps.bind_writes fun _ => (still_signingKeys _ _).keeps.bind_writes fun _ =>
    (still_attempt _).keeps.bind_writes fun _ => writes_finishCosign path dryRun _ _

/-- When signing once more is finished: the file is read, there are keys, each of them signs, and
the file is stored again. It succeeds if the mode of the file is set. -/
theorem run_cosignFile_iff :
    (∃ after, (cosignFile invocation settings path read step document false).run world =
      (answer.mapError .modeUnset, after) ∧ after.files = files) ↔
    ∃ signed keys last, (readAs read path).run world = (.ok signed, world) ∧
      (signingKeys invocation settings).run world = (.ok keys, world) ∧
      keys.foldlM step signed = .ok last ∧
      world.files.Stores path (Utf8.encode (document last).pretty.toList) publicMode files
        answer := by
  have hFinished := finished_mapError answer
  constructor
  · rintro ⟨after, hRun, hFiles⟩
    obtain ⟨signed, hRead, hRun⟩ := ((still_readAs _ _).run_bind_eq_iff hFinished).mp hRun
    obtain ⟨keys, hKeys, hRun⟩ := ((still_signingKeys _ _).run_bind_eq_iff hFinished).mp hRun
    obtain ⟨last, hLast, hRun⟩ := ((still_attempt _).run_bind_eq_iff hFinished).mp hRun
    exact ⟨signed, keys, last, hRead, hKeys, (run_attempt_eq_ok_iff.mp hLast).1,
      (run_writeText_bind_iff fun _ => Report.reports_line_signers _ _).mp ⟨after, hRun, hFiles⟩⟩
  · rintro ⟨signed, keys, last, hRead, hKeys, hLast, hStores⟩
    obtain ⟨after, hRun, hFiles⟩ :=
      (run_writeText_bind_iff fun _ => Report.reports_line_signers _ last.proofs).mpr hStores
    refine ⟨after, ((still_readAs _ _).run_bind_eq_iff hFinished).mpr ⟨signed, hRead, ?_⟩, hFiles⟩
    refine ((still_signingKeys _ _).run_bind_eq_iff hFinished).mpr ⟨keys, hKeys, ?_⟩
    exact ((still_attempt _).run_bind_eq_iff hFinished).mpr
      ⟨last, run_attempt_eq_ok_iff.mpr ⟨hLast, rfl⟩, hRun⟩

end CosignFile

theorem keeps_verify (path : String) (mode : Mode) : Keeps (verify path mode) :=
  (still_readAs _ _).keeps.bind fun _ => Report.keeps_verdict _

theorem keeps_hashTransaction (path : String) : Keeps (hashTransaction path) :=
  (still_readAs _ _).keeps.bind fun _ => (still_attempt _).keeps.bind fun _ =>
    (reports_printLine _).keeps

theorem writes_createTransaction (transfer : Transfer) (parent : Reference)
    (output : Option String) :
    Writes output (createTransaction invocation settings transfer parent output) :=
  (still_signingKey _ _).keeps.bind_writes fun _ => reports_drawSalt.keeps.bind_writes fun _ =>
    (still_attempt _).keeps.bind_writes fun _ => (still_attempt _).keeps.bind_writes fun _ =>
    (reports_warnLine _).keeps.bind_writes fun _ => Report.writes_emit output _

theorem writes_batchTransactions (path : String) (parent : Reference) (output : Option String) :
    Writes output (batchTransactions invocation settings path parent output) :=
  (still_readAs _ _).keeps.bind_writes fun transfers =>
    (still_signingKey _ _).keeps.bind_writes fun _ =>
    (reports_drawSalts transfers).keeps.bind_writes fun _ =>
    (still_attempt _).keeps.bind_writes fun _ =>
    (reports_warnLine _).keeps.bind_writes fun _ => Report.writes_emit output _

/-- Every command writes its target, if it has one, and changes no file else. -/
theorem writes_ofInvocation (home : Option String) (invocation : Invocation) :
    Writes invocation.command.target (ofInvocation home invocation) := by
  refine (still_loadSettings _ _).keeps.bind_writes fun settings => ?_
  obtain ⟨file, keys, keyFile, command⟩ := invocation
  cases command with
  | keygen json => exact (reports_keygen json).keeps.writes
  | address publicKey => exact (keeps_address publicKey).writes
  | validate text => exact (keeps_validate text).writes
  | sign path dataUpdate fields output dryRun =>
      cases dryRun with
      | true => exact writes_sign path fields output true
      | false => exact writes_sign path fields output false
  | cosign path dataUpdate dryRun =>
      cases dryRun with
      | true => exact writes_cosignFile true
      | false => exact writes_cosignFile false
  | verify path dataUpdate => exact (keeps_verify path _).writes
  | createTransaction destination amount fee parent output =>
      exact writes_createTransaction _ parent output
  | batchTransactions path parent output => exact writes_batchTransactions path parent output
  | cosignTransaction path dryRun =>
      cases dryRun with
      | true => exact writes_cosignFile true
      | false => exact writes_cosignFile false
  | verifyTransaction path =>
      exact ((still_readAs _ _).keeps.bind fun tx => Report.keeps_verdict _).writes
  | hashTransaction path => exact (keeps_hashTransaction path).writes

section Cosigned

variable {world after : World} {answer : Except FileError Unit}

/-- A document that was signed once more is read from its file with the new proofs, whether or not
the mode of the file was set. -/
theorem extends_of_cosign (h : (cosign invocation settings path mode false).run world =
      (answer.mapError .modeUnset, after)) :
    ∃ keys signed last added, (signingKeys invocation settings).run world = (.ok keys, world) ∧
      (readSigned path).run world = (.ok signed, world) ∧
      (readSigned path).run after = (.ok last, after) ∧
      Signed.Extends (signed.value.verifiesProof mode) signed last keys added := by
  obtain ⟨signed, keys, last, hRead, hKeys, hLast, hStores⟩ :=
    run_cosignFile_iff.mp ⟨after, cosign_eq false ▸ h, rfl⟩
  obtain ⟨added, hExtends⟩ := Signed.extends_foldlM
    (fun _ _ _ hStep => Signed.extends_of_addSignature hStep) hLast
  obtain ⟨hOrdered, hDepth⟩ := wellFormed_of_readSigned hRead
  refine ⟨keys, signed, last, added, hKeys, hRead, ?_, hExtends⟩
  rw [run_readSigned (hExtends.value ▸ hOrdered) hStores.read, if_pos (hExtends.value ▸ hDepth)]

/-- A transaction that was signed once more is read from its file with the new proofs, whether or
not the mode of the file was set. -/
theorem extends_of_cosignTransaction
    (h : (cosignTransaction invocation settings path false).run world =
      (answer.mapError .modeUnset, after)) :
    ∃ keys tx last added, (signingKeys invocation settings).run world = (.ok keys, world) ∧
      (readTransaction path).run world = (.ok tx, world) ∧
      (readTransaction path).run after = (.ok last, after) ∧
      Signed.Extends tx.value.verifiesProof tx last keys added := by
  obtain ⟨tx, keys, last, hRead, hKeys, hLast, hStores⟩ :=
    run_cosignFile_iff.mp ⟨after, cosignTransaction_eq false ▸ h, rfl⟩
  obtain ⟨added, hExtends⟩ := Signed.extends_foldlM
    (fun _ _ _ hStep => Transaction.extends_of_sign_key hStep) hLast
  refine ⟨keys, tx, last, added, hKeys, hRead, ?_, hExtends⟩
  rw [readTransaction, run_readAs_pretty hStores.read]
  rw [Transaction.ofTree?, Transaction.toJson, Signed.readBack Body.readBack]

end Cosigned

/-- A command that fails before its last step leaves all files as they were. One that comes to its
end leaves them so if it has no target, and else has written one file, to which the path of the
target leads, and no other. Its last step sets the mode of that file. It succeeds unless the file is
locked against that; then it fails though the file has been written. A document or a transaction
that it signed once more is read from the file with its value and its proofs, followed by one proof
for each key, in the order of the keys, and all of these verify. -/
theorem ofInvocation_files (home : Option String) (invocation : Invocation) (world : World) :
    let outcome := (ofInvocation home invocation).run world
    (¬Finished outcome.1 → outcome.2.files = world.files) ∧
    (Finished outcome.1 →
      (invocation.command.target = none →
        outcome.1 = .ok () ∧ outcome.2.files = world.files) ∧
      (∀ path, invocation.command.target = some path → ∃ place bytes,
        world.files.LeadsTo path place ∧
        outcome.1 = (world.files.unlocked place).mapError .modeUnset ∧
        outcome.2.files.read path = .ok bytes ∧
        (outcome.1 = .ok () → outcome.2.files.mode? place = some publicMode) ∧
        ∀ other, other ≠ place →
          outcome.2.files.content other = world.files.content other ∧
          outcome.2.files.mode? other = world.files.mode? other) ∧
      (∀ path dataUpdate, invocation.command = .cosign path dataUpdate false →
        ∃ settings keys signed last added,
          (loadSettings invocation.settings home).run world = (.ok settings, world) ∧
          (signingKeys invocation settings).run world = (.ok keys, world) ∧
          (readSigned path).run world = (.ok signed, world) ∧
          (readSigned path).run outcome.2 = (.ok last, outcome.2) ∧
          Signed.Extends (signed.value.verifiesProof (.ofFlag (dataUpdate || settings.dataUpdate)))
            signed last keys added) ∧
      ∀ path, invocation.command = .cosignTransaction path false →
        ∃ settings keys tx last added,
          (loadSettings invocation.settings home).run world = (.ok settings, world) ∧
          (signingKeys invocation settings).run world = (.ok keys, world) ∧
          (readTransaction path).run world = (.ok tx, world) ∧
          (readTransaction path).run outcome.2 = (.ok last, outcome.2) ∧
          Signed.Extends tx.value.verifiesProof tx last keys added) := by
  intro outcome
  have hEnds := writes_ofInvocation home invocation world
  have hOutcome : (ofInvocation home invocation).run world = (outcome.1, outcome.2) := rfl
  rw [hOutcome] at hEnds
  -- From here on only the result and the world after it matter, not how they came about.
  clear_value outcome
  obtain ⟨result, after⟩ := outcome
  refine ⟨hEnds.eq_of_not_finished, fun hFinished => ?_⟩
  refine ⟨fun hTarget => ?_, fun path hTarget => ?_, fun path dataUpdate hCommand => ?_,
    fun path hCommand => ?_⟩
  · rw [hTarget] at hEnds
    exact hEnds.kept_of_finished hFinished
  · rw [hTarget] at hEnds
    obtain ⟨bytes, answer, hStores, rfl⟩ := hEnds.stored_of_finished hFinished
    have hRead := hStores.read
    obtain ⟨place, hLeads, -, rfl, hAfter⟩ := hStores
    dsimp only at hAfter hRead ⊢
    rw [← hAfter] at hRead ⊢
    refine ⟨place, bytes, hLeads, rfl, hRead, fun hDone => ?_, fun other hOther => ⟨?_, ?_⟩⟩
    · rw [Files.mode?_stored, if_pos ⟨rfl, Except.mapError_eq_ok_iff.mp hDone⟩]
    · rw [Files.content_stored, if_neg hOther.symm]
    · rw [Files.mode?_stored, if_neg fun hPlace => hOther hPlace.1.symm]
  all_goals
    obtain ⟨answer, rfl⟩ := finished_iff.mp hFinished
    obtain ⟨settings, hSettings, hRun⟩ :=
      ((still_loadSettings _ _).run_bind_eq_iff hFinished).mp hOutcome
    rw [hCommand] at hRun
  · obtain ⟨keys, signed, last, added, hKeys, hFacts⟩ := extends_of_cosign hRun
    exact ⟨settings, keys, signed, last, added, hSettings, hKeys, hFacts⟩
  · obtain ⟨keys, tx, last, added, hKeys, hFacts⟩ := extends_of_cosignTransaction hRun
    exact ⟨settings, keys, tx, last, added, hSettings, hKeys, hFacts⟩

/-- A locked file that holds the value true without proofs. Adding the proof of the key of the
scalar one to it fails, because the mode of the file cannot be set, and the proof is in the file. -/
theorem ofInvocation_files_locked :
    let key := "0000000000000000000000000000000000000000000000000000000000000001"
    let text := Utf8.encode (Signed.document ⟨.bool true, []⟩).pretty.toList
    let files : Files := ⟨[(["doc"], text)], [], [(["doc"], .notPermitted)]⟩
    let world : World := ⟨files, "", "", fun _ => 0, 0⟩
    let cosigning : Invocation := ⟨none, [key], none, .cosign "doc" false false⟩
    ∃ after last,
      (ofInvocation none cosigning).run world = (.error (.modeUnset .notPermitted), after) ∧
      (readSigned "doc").run after = (.ok last, after) ∧
      last.value = .bool true ∧ last.proofs.length = 1 ∧ after.files ≠ world.files := by
  intro key text files world cosigning
  have hOrdered : (Json.bool true).Ordered := by rintro _ ⟨⟩ _ ⟨⟩
  have hText (bytes : List UInt8) :
      Files.read ⟨[(["doc"], bytes)], [], [(["doc"], .notPermitted)]⟩ "doc" = .ok bytes := by
    cbv
  have hStores (bytes more : List UInt8) : ∃ written,
      Files.Stores ⟨[(["doc"], bytes)], [], [(["doc"], .notPermitted)]⟩ "doc" more publicMode
        written (.error .notPermitted) :=
    ⟨_, ["doc"], ⟨⟨[], "doc", false⟩, by cbv, rfl, by cbv⟩, by cbv; simp, rfl, rfl⟩
  have hRead (next : World) (hFiles : next.files = files) :
      (readSigned "doc").run next = (.ok ⟨.bool true, []⟩, next) := by
    have hHolds : next.files.read "doc" = .ok text := by rw [hFiles, hText]
    rw [@run_readSigned "doc" next ⟨.bool true, []⟩ hOrdered hHolds]
    rfl
  have hKeys : (signingKeys cosigning .standard).run world = (.ok [key], world) :=
    run_signingKeys PrivateKey.ofText_one rfl
  obtain ⟨proof, hMake⟩ := Proof.exists_make_iff.mpr Signed.signable_true
  have hSign : (Json.bool true).sign .plain key = .ok proof :=
    Json.sign_eq_ok_iff.mpr ⟨_, Signed.hash_true, hMake⟩
  have hFold : [key].foldlM (Signed.addSignature .plain) ⟨.bool true, []⟩ =
      .ok ⟨.bool true, [proof]⟩ := by
    rw [List.foldlM_cons, Signed.addSignature_eq_ok_iff.mpr ⟨proof, hSign, rfl⟩]
    rfl
  obtain ⟨written, hWritten⟩ :=
    hStores text (Utf8.encode (Signed.document ⟨.bool true, [proof]⟩).pretty.toList)
  obtain ⟨after, hCosign, -⟩ := run_cosignFile_iff.mpr
    ⟨_, [key], _, hRead world rfl, hKeys, hFold, hWritten⟩
  have hRun : (ofInvocation none cosigning).run world =
      (.error (.modeUnset .notPermitted), after) :=
    ((still_loadSettings _ _).run_bind_eq_iff (finished_mapError (.error _))).mpr
      ⟨.standard, rfl, hCosign⟩
  obtain ⟨-, hFinished⟩ := ofInvocation_files none cosigning world
  rw [hRun] at hFinished
  obtain ⟨-, -, hCosigned, -⟩ := hFinished (finished_mapError (.error _))
  obtain ⟨settings, keys, signed, last, added, hSettings, hGiven, hBefore, hAfter, hLast⟩ :=
    hCosigned "doc" false rfl
  cases hSettings
  cases hKeys.symm.trans hGiven
  cases (hRead world rfl).symm.trans hBefore
  have hLength : last.proofs.length = 1 := by
    rw [hLast.proofs, List.nil_append, ← hLast.ids.length_eq, List.length_singleton]
  refine ⟨after, last, hRun, hAfter, hLast.value, hLength, fun hSame => ?_⟩
  cases (hRead after hSame).symm.trans hAfter
  cases hLength

end Commands

end LedgerSigning
