import LedgerSigning.Cli.Script
import LedgerSigning.Json.Writer
import LedgerSigning.Proof

/-! What commands print about signers, verdicts and written files. -/
namespace LedgerSigning

namespace Report

/-- The ends of a long signer text. Texts of 30 bytes or less, and those beyond ASCII, stay. -/
def shortId (id : String) : String :=
  let chars := id.toList
  if id.utf8ByteSize ≤ 30 ∨ chars.any (128 ≤ ·.toNat) then id
  else String.ofList (chars.take 16) ++ "..." ++ String.ofList (chars.drop (chars.length - 8))

def signers (proofs : List Proof) : Script Unit := do
  Script.printLine "Signers:"
  proofs.forM fun proof => Script.printLine ("  - " ++ shortId proof.id)

/-- The counts and signers of a verdict; one that is not valid is a failure. -/
def verdict (v : Verdict) : Script Unit := do
  if v.isValid then Script.printLine "✓ All signatures verified"
  else Script.warnLine "✗ Verification failed"
  Script.printLine ""
  Script.printLine s!"  Valid:   {v.valid.length}"
  Script.printLine s!"  Invalid: {v.invalid.length}"
  v.valid.forM fun proof => Script.printLine ("    ✓ " ++ shortId proof.id)
  v.invalid.forM fun proof => Script.printLine ("    ✗ " ++ shortId proof.id)
  if v.isValid then pure ()
  else if v.valid.isEmpty && v.invalid.isEmpty then .fail .unsigned
  else .fail (.badSignatures v.invalid.length (v.valid.length + v.invalid.length))

/-- Writes a document to a file and says so, or prints it. -/
def emit (output : Option String) (doc : Json) : Script Unit :=
  match output with
  | some path => do
    Script.writeText path doc.pretty
    Script.printLine ("Written to: " ++ path)
  | none => Script.printLine doc.pretty

end Report

end LedgerSigning
