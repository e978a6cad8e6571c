import LedgerSigning.Proofs.Cli.Changes

/-! Files that were signed. What is signed and written to a file is read there, verifies and can be
signed once more, unless the document is nested as deep as the reader goes: in the file it stands
one level deeper. -/
namespace LedgerSigning

namespace Commands

open Script

variable {home : Option String} {invocation : Invocation} {settings : Settings}
  {path : Option String} {target : String} {mode : Mode} {fields : List String}
  {output : Option String} {dataUpdate : Bool} {world after next : World} {files : Files}
  {signed : Signed Json}

/-- When signing a document is finished: it is built, there are keys, each of them signs, and the
file is stored. It succeeds if the mode of the file is set. -/
theorem run_sign_iff (answer : Except FileError Unit)
    (hTarget : (output <|> path.map signedPath) = some target) :
    (∃ after, (sign invocation settings path mode fields output false).run world =
      (answer.mapError .modeUnset, after) ∧ after.files = files) ↔
    ∃ doc keys signed, (buildDocument path fields).run world = (.ok doc, world) ∧
      (signingKeys invocation settings).run world = (.ok keys, world) ∧
      Signed.batch mode doc keys = .ok signed ∧
      world.files.Stores target (Utf8.encode signed.document.pretty.toList) publicMode files
        answer := by
  have hFinished := finished_mapError answer
  unfold sign
  rw [hTarget]
  constructor
  · rintro ⟨after, hRun, hFiles⟩
    obtain ⟨doc, hDoc, hRun⟩ := ((still_buildDocument _ _).run_bind_eq_iff hFinished).mp hRun
    obtain ⟨keys, hKeys, hRun⟩ := ((still_signingKeys _ _).run_bind_eq_iff hFinished).mp hRun
    obtain ⟨signed, hSigned, hRun⟩ := ((still_attempt _).run_bind_eq_iff hFinished).mp hRun
    exact ⟨doc, keys, signed, hDoc, hKeys, (run_attempt_eq_ok_iff.mp hSigned).1,
      (run_writeText_bind_iff fun _ => Report.reports_line_signers _ _).mp ⟨after, hRun, hFiles⟩⟩
  · rintro ⟨doc, keys, signed, hDoc, hKeys, hSigned, hStores⟩
    obtain ⟨after, hRun, hFiles⟩ :=
      (run_writeText_bind_iff fun _ => Report.reports_line_signers _ signed.proofs).mpr hStores
    refine ⟨after, ((still_buildDocument _ _).run_bind_eq_iff hFinished).mpr ⟨doc, hDoc, ?_⟩,
      hFiles⟩
    refine ((still_signingKeys _ _).run_bind_eq_iff hFinished).mpr ⟨keys, hKeys, ?_⟩
    exact ((still_attempt _).run_bind_eq_iff hFinished).mpr
      ⟨signed, run_attempt_eq_ok_iff.mpr ⟨hSigned, rfl⟩, hRun⟩

/-- Verifying the file at a path succeeds and reports these proofs, all of them as valid. -/
def Verifies (home : Option String) (invocation : Invocation) (path : String) (dataUpdate : Bool)
    (world : World) (proofs : List Proof) : Prop :=
  (ofInvocation home { invocation with command := .verify path dataUpdate }).run world =
    (Report.verdict ⟨proofs, []⟩).run world ∧
  ((Report.verdict ⟨proofs, []⟩).run world).1 = .ok ()

/-- Signing the file at a path once more with a private key succeeds and leaves a file that
verifies with one proof more, unless the signer finds no signature with this key. -/
def Cosigns (home : Option String) (invocation : Invocation) (settings : Settings) (path : String)
    (dataUpdate : Bool) (world : World) (signed : Signed Json) (key : String) (k : PrivateKey) :
    Prop :=
  let cosigned := (ofInvocation home
    { invocation with keys := [key], command := .cosign path dataUpdate false }).run world
  (∃ proof, cosigned.1 = .ok () ∧ proof.id = k.id ∧ ∀ later : World,
    later.files = cosigned.2.files →
    (loadSettings invocation.settings home).run later = (.ok settings, later) →
    Verifies home invocation path dataUpdate later (signed.proofs ++ [proof])) ∨
  cosigned.1 = .error (.refused .unsignable) ∧ ∃ hash,
    signed.value.hash (.ofFlag (dataUpdate || settings.dataUpdate)) = .ok hash ∧
    Signature.Missed k.scalar hash.digest

theorem verifies_of_read
    (hSettings : (loadSettings invocation.settings home).run world = (.ok settings, world))
    (hRead : (readSigned target).run world = (.ok signed, world)) (hSome : signed.proofs ≠ [])
    (hAll : ∀ proof ∈ signed.proofs, signed.value.verifiesProof
      (.ofFlag (dataUpdate || settings.dataUpdate)) proof = true) :
    Verifies home invocation target dataUpdate world signed.proofs := by
  have hVerdict : signed.verdict (.ofFlag (dataUpdate || settings.dataUpdate)) =
      ⟨signed.proofs, []⟩ := by
    rw [Signed.verdict_eq, Verdict.ofCheck_of_all hAll]
  have hValid : (⟨signed.proofs, []⟩ : Verdict).isValid = true := by simp [Verdict.isValid, hSome]
  obtain ⟨value, last, hRun, -⟩ := Report.reports_verdict hValid world
  refine ⟨?_, by rw [hRun]⟩
  rw [ofInvocation, run_bind, hSettings]
  simp only [verify]
  rw [run_bind, hRead]
  simp only [hVerdict]

theorem exists_hash_of_verifiesProof {doc : Json} {proof : Proof}
    (h : doc.verifiesProof mode proof = true) : ∃ hash, doc.hash mode = .ok hash := by
  unfold Json.verifiesProof at h
  split at h
  · exact ⟨_, by assumption⟩
  · cases h

/-- A signed document that is read from a file that can be written is signed there once more. -/
theorem cosigns_of_read
    (hSettings : (loadSettings invocation.settings home).run next = (.ok settings, next))
    (hRead : (readSigned target).run next = (.ok signed, next)) (hSome : signed.proofs ≠ [])
    (hAll : ∀ proof ∈ signed.proofs, signed.value.verifiesProof
      (.ofFlag (dataUpdate || settings.dataUpdate)) proof = true)
    (hStores : ∀ bytes, ∃ files, next.files.Stores target bytes publicMode files (.ok ()))
    {key : String} {k : PrivateKey} (hKey : PrivateKey.ofText key = .ok k) :
    Cosigns home invocation settings target dataUpdate next signed key k := by
  unfold Cosigns
  intro cosigned
  obtain ⟨hOrdered, hDepth⟩ := wellFormed_of_readSigned hRead
  obtain ⟨first, hFirst⟩ := List.exists_mem_of_ne_nil _ hSome
  obtain ⟨hash, hHash⟩ := exists_hash_of_verifiesProof (hAll first hFirst)
  have hKeys (invocation : Invocation) (hGiven : invocation.keys = [key]) :
      (signingKeys invocation settings).run next = (.ok [key], next) :=
    run_signingKeys hKey hGiven
  rcases Signed.addSignature_spec hHash hKey with ⟨last, proof, hStep, hLast⟩ | ⟨hStep, hMissed⟩
  · left
    have hFold : [key].foldlM (Signed.addSignature (.ofFlag (dataUpdate || settings.dataUpdate)))
        signed = .ok last := Except.bind_eq_ok_iff.mpr ⟨last, hStep, rfl⟩
    obtain ⟨files, hFiles⟩ := hStores (Utf8.encode last.document.pretty.toList)
    obtain ⟨after, hRun, rfl⟩ := run_cosignFile_iff.mpr
      ⟨signed, [key], last, hRead, hKeys { invocation with
        keys := [key], command := .cosign target dataUpdate false } rfl, hFold, hFiles⟩
    have hCosigned : cosigned = (.ok (), after) :=
      (still_loadSettings _ _).run_bind_eq_ok_iff.mpr ⟨settings, hSettings, hRun⟩
    have hId : proof.id = k.id := by
      have hIds := (List.forall₂_cons.mp hLast.ids).1
      rw [hKey] at hIds
      exact (Except.ok.inj hIds).symm
    refine ⟨proof, by rw [hCosigned], hId, fun later hLater hSame => ?_⟩
    rw [hCosigned] at hLater
    have hText : later.files.read target = .ok (Utf8.encode last.document.pretty.toList) :=
      hLater ▸ hFiles.read
    have hReadLast : (readSigned target).run later = (.ok last, later) := by
      rw [run_readSigned (hLast.value ▸ hOrdered) hText, if_pos (hLast.value ▸ hDepth)]
    rw [← hLast.proofs]
    refine verifies_of_read hSame hReadLast (by simp [hLast.proofs]) fun other hOther => ?_
    rw [hLast.value]
    rw [hLast.proofs, List.mem_append] at hOther
    exact hOther.elim (hAll other) (hLast.checked other)
  · right
    have hFold : [key].foldlM (Signed.addSignature (.ofFlag (dataUpdate || settings.dataUpdate)))
        signed = .error .unsignable := Except.bind_eq_error_iff.mpr (.inl hStep)
    have hCosigned : cosigned = (.error (.refused .unsignable), next) := by
      refine run_bind_eq_error_iff.mpr (.inr ⟨settings, next, hSettings, ?_⟩)
      refine run_bind_eq_error_iff.mpr (.inr ⟨signed, next, hRead, ?_⟩)
      refine run_bind_eq_error_iff.mpr (.inr ⟨[key], next, hKeys _ rfl, ?_⟩)
      refine run_bind_eq_error_iff.mpr (.inl ?_)
      rw [attempt, run_ofExcept, hFold]
      rfl
    exact ⟨by rw [hCosigned], hash, hHash, hMissed⟩

/-- A signed document that is nested too deep in its file is neither verified nor signed once
more. -/
theorem refused_of_read (command : Command)
    (hCommand : command = .verify target dataUpdate ∨ command = .cosign target dataUpdate false)
    (hSettings : (loadSettings invocation.settings home).run next = (.ok settings, next))
    (hRead : (readSigned target).run next = (.error (.unparsed target), next))
    (keys : List String) : (ofInvocation home { invocation with keys, command }).run next =
      (.error (.unparsed target), next) := by
  refine run_bind_eq_error_iff.mpr (.inr ⟨settings, next, hSettings, ?_⟩)
  rcases hCommand with rfl | rfl <;> exact run_bind_eq_error_iff.mpr (.inl hRead)

/-- What signing writes to a file. As long as the files and the settings stay, the file verifies
with one valid proof for each key and none that is invalid, and any private key adds one proof
more, with which it verifies again, unless the signer finds no signature with this key. This is so
if and only if the document is nested less deep than the reader goes: one that is nested just as
deep is signed, but its file is then neither verified nor signed once more. -/
theorem signed_file_accepted
    (hCommand : invocation.command = .sign path dataUpdate fields output false)
    (hTarget : (output <|> path.map signedPath) = some target)
    (hRun : (ofInvocation home invocation).run world = (.ok (), after)) :
    ∃ settings doc keys signed,
      (loadSettings invocation.settings home).run world = (.ok settings, world) ∧
      (buildDocument path fields).run world = (.ok doc, world) ∧
      (signingKeys invocation settings).run world = (.ok keys, world) ∧
      Signed.batch (.ofFlag (dataUpdate || settings.dataUpdate)) doc keys = .ok signed ∧
      signed.proofs.length = keys.length ∧
      ∀ next : World, next.files = after.files →
        (loadSettings invocation.settings home).run next = (.ok settings, next) →
        (doc.depth < Tree.maxLevels →
          Verifies home invocation target dataUpdate next signed.proofs ∧
          ∀ key k, PrivateKey.ofText key = .ok k →
            Cosigns home invocation settings target dataUpdate next signed key k) ∧
        (Tree.maxLevels ≤ doc.depth →
          (ofInvocation home { invocation with command := .verify target dataUpdate }).run next =
            (.error (.unparsed target), next) ∧
          ∀ key, (ofInvocation home { invocation with
            keys := [key], command := .cosign target dataUpdate false }).run next =
              (.error (.unparsed target), next)) := by
  obtain ⟨settings, hSettings, hCarried⟩ := (still_loadSettings _ _).run_bind_eq_ok_iff.mp hRun
  have hSign : (sign invocation settings path (.ofFlag (dataUpdate || settings.dataUpdate)) fields
      output false).run world = (.ok (), after) := by
    rw [hCommand] at hCarried
    exact hCarried
  obtain ⟨doc, keys, signed, hDoc, hKeys, hBatch, hStores⟩ :=
    (run_sign_iff (.ok ()) hTarget).mp ⟨after, hSign, rfl⟩
  refine ⟨settings, doc, keys, signed, hSettings, hDoc, hKeys, hBatch, ?_⟩
  obtain ⟨hSome, hAll⟩ := (Signed.Started.batch doc keys hBatch).proofs_verify
  obtain ⟨-, proofs, hProofs, rfl⟩ := Signed.batch_eq_ok_iff.mp hBatch
  refine ⟨(Json.verifiesProof_of_mapM hProofs).1, fun next hFiles hSame => ?_⟩
  have hText := hFiles ▸ hStores.read
  have hRead := run_readSigned (ordered_of_buildDocument hDoc) hText
  -- In its file the document stands one level deeper, so the reader has one level less for it.
  constructor
  · intro hDepth
    have hFits : doc.depth ≤ Tree.maxLevels - 1 := Nat.le_sub_one_of_lt hDepth
    rw [if_pos hFits] at hRead
    refine ⟨verifies_of_read hSame hRead hSome hAll, fun key k hKey => ?_⟩
    exact cosigns_of_read hSame hRead hSome hAll (hFiles ▸ hStores.again) hKey
  · intro hDepth
    have hBeyond : ¬doc.depth ≤ Tree.maxLevels - 1 := by
      simp only [Tree.maxLevels] at hDepth ⊢
      omega
    rw [if_neg hBeyond] at hRead
    exact ⟨refused_of_read _ (.inl rfl) hSame hRead _, fun key =>
      refused_of_read _ (.inr rfl) hSame hRead _⟩

/-- Null in so many arrays inside each other. -/
def nested : Nat → Json
  | 0 => .null
  | levels + 1 => .array [nested levels]

theorem depth_nested (levels : Nat) : (nested levels).depth = levels := by
  induction levels with
  | zero => rfl
  | succ levels ih => simp [nested, Json.depth, Json.depth.itemDepth, ih]

theorem ordered_nested (levels : Nat) : (nested levels).Ordered := by
  induction levels with
  | zero => rintro _ ⟨⟩ _ ⟨⟩
  | succ levels ih => simpa [nested, Json.ordered_array_iff] using ih

def hashNested : Hash :=
  ⟨BigEndian.ofNat 32 0x89fed8bdcec19b53a9cfeb6365642fcd7f84a12c0a8435224c1821f0183fa908⟩

theorem hash_nested : (nested 127).hash .plain = .ok hashNested := by decide +kernel

theorem signable_nested :
    hashNested.Signable "0000000000000000000000000000000000000000000000000000000000000001" :=
  Hash.signable_of_states
    0xf01b8aecc1d1fbd57e0cc8ac62969a2baac2959567cf0156dd7cf0fe580d8580
    (.ofNats 0xe4243c66321d2238fa16e586cf39c6fdaa0b2ff81dd6fe8b2f743e55332d0b65
      0x8ee335b4ea34fced605362742eb894b5f5867378c4abc59b0c9992a1573d444d)
    (.ofNats 0x64c920fe95bd1f8e7e786c1c75cdd90349703bd6a10e9581f02d6ddee6a052dd
      0xcd5973f12fe7f4215289f5b922465c99a77af0b2c60be5b18bedd19b3f639229)
    0x20b74d5e4289ef2e272ebd4861c23fd481a362e0d271e1a5ade31081796690ca
    PrivateKey.ofText_one (by decide +kernel) (by decide +kernel) (by decide +kernel)
    (by decide +kernel) (by decide +kernel)

/-- A file with 127 arrays inside each other is signed, and the signed file is refused. -/
theorem signed_file_accepted_nested :
    let key := "0000000000000000000000000000000000000000000000000000000000000001"
    let files : Files := .ofList [("doc", Utf8.encode (nested 127).compact.toList)]
    let world : World := ⟨files, "", "", fun _ => 0, 0⟩
    let signing : Invocation := ⟨none, [key], none, .sign (some "doc") false [] (some "out") false⟩
    ∃ after, (ofInvocation none signing).run world = (.ok (), after) ∧
      (ofInvocation none { signing with command := .verify "out" false }).run after =
        (.error (.unparsed "out"), after) := by
  intro key files world signing
  have hRead (bytes : List UInt8) : (Files.ofList [("doc", bytes)]).read "doc" = .ok bytes := by
    cbv
  have hStores (bytes more : List UInt8) : ∃ written,
      (Files.ofList [("doc", bytes)]).Stores "out" more publicMode written (.ok ()) :=
    ⟨_, ["out"], ⟨⟨[], "out", false⟩, by cbv, rfl, by cbv⟩, by cbv; simp, rfl, rfl⟩
  have hDepth : (nested 127).depth ≤ Tree.maxLevels := (depth_nested 127).le
  have hFile : (readDocument "doc").run world = (.ok (nested 127), world) := by
    rw [readDocument, run_readAs (hRead _), ofText?_compact, Option.bind_some,
      Json.toJson?_tree_document (ordered_nested 127), if_pos hDepth]
  have hDoc : (buildDocument (some "doc") []).run world = (.ok (nested 127), world) :=
    (still_readAs _ _).run_bind_eq_ok_iff.mpr ⟨_, hFile, rfl⟩
  have hKeys : (signingKeys signing .standard).run world = (.ok [key], world) :=
    run_signingKeys PrivateKey.ofText_one rfl
  obtain ⟨proof, hMake⟩ := Proof.exists_make_iff.mpr signable_nested
  have hSign : (nested 127).sign .plain key = .ok proof :=
    Json.sign_eq_ok_iff.mpr ⟨_, hash_nested, hMake⟩
  have hBatch : Signed.batch .plain (nested 127) [key] = .ok ⟨nested 127, [proof]⟩ := by
    refine Signed.batch_eq_ok_iff.mpr ⟨by simp, [proof], ?_, rfl⟩
    rw [List.mapM_cons, List.mapM_nil, hSign]
    rfl
  obtain ⟨written, hWritten⟩ := hStores (Utf8.encode (nested 127).compact.toList)
    (Utf8.encode (Signed.document ⟨nested 127, [proof]⟩).pretty.toList)
  have hTarget : (some "out" <|> (some "doc").map signedPath) = some "out" := rfl
  obtain ⟨after, hSigned, -⟩ := (run_sign_iff (.ok ()) hTarget).mpr
    ⟨nested 127, [key], _, hDoc, hKeys, hBatch, hWritten⟩
  have hRun : (ofInvocation none signing).run world = (.ok (), after) :=
    (still_loadSettings _ _).run_bind_eq_ok_iff.mpr ⟨.standard, rfl, hSigned⟩
  obtain ⟨settings, doc, keys, signed, hSettings, hBuilt, -, -, -, hNext⟩ :=
    signed_file_accepted rfl hTarget hRun
  cases hSettings
  cases hDoc.symm.trans hBuilt
  exact ⟨after, hRun, ((hNext after rfl rfl).2 (depth_nested 127).ge).1⟩

end Commands

end LedgerSigning
