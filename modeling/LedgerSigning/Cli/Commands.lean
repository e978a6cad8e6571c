import LedgerSigning.Cli.Settings
import LedgerSigning.Cli.Assignments
import LedgerSigning.Cli.Invocation
import LedgerSigning.Cli.Report
import LedgerSigning.Signing
import LedgerSigning.Transaction.Create

/-! The commands as scripts. A command computes all that it is going to write before it writes,
and writes at most one file. -/
namespace LedgerSigning

namespace Commands

/-- The settings of a named file, or of the default file if there is one. -/
def loadSettings (path home : Option String) : Script Settings :=
  let load (path : String) : Script Settings := do
    let text ← Script.readText path (.settingsUnread path)
    Script.ofExcept ((Settings.ofText text).mapError (.settingsInvalid path))
  match path, home with
  | some path, _ => load path
  | none, some home =>
    .isFile (Settings.defaultPath home) fun found =>
      if found then load (Settings.defaultPath home) else .done .standard
  | none, none => .done .standard

/-- A key text without the blanks around it, if it has the shape of a key. -/
def checkKey (source text : String) : Except Failure String :=
  let key := String.ofList (Blank.trim text.toList)
  if PrivateKey.isShaped key then .ok key else .error (.keyShape source)

/-- The keys to sign with: those given, else the one in a file. -/
def signingKeys (invocation : Invocation) (settings : Settings) : Script (List String) :=
  if invocation.keys.isEmpty then
    match invocation.keyFile <|> settings.privateKeyFile with
    | none => .fail .noKey
    | some path => do
      let text ← Script.readText path (.keyUnread path)
      let key ← Script.ofExcept (checkKey path text)
      pure [key]
  else Script.ofExcept (invocation.keys.mapM (checkKey "--key"))

/-- The one key to sign with. -/
def signingKey (invocation : Invocation) (settings : Settings) : Script String := do
  match ← signingKeys invocation settings with
  | [key] => pure key
  | keys => .fail (.severalKeys keys.length)

/-- The content of a JSON file by the type of its value. -/
def readAs {α : Type} (read : Tree → Option α) (path : String) : Script α := do
  let text ← Script.readText path (.unread path)
  match (Tree.ofText? text.toList).bind read with
  | some value => pure value
  | none => .fail (.unparsed path)

def readDocument (path : String) : Script Json := readAs (Tree.toJson? Tree.maxLevels) path

def readSigned (path : String) : Script (Signed Json) :=
  readAs (Signed.ofTree? (Tree.toJson? (Tree.maxLevels - 1))) path

def readTransaction (path : String) : Script Transaction := readAs Transaction.ofTree? path

/-- Lays the members that assignments make over a document. -/
def overlay (doc : Json) (fields : List String) : Except Failure Json :=
  if fields.isEmpty then .ok doc
  else match doc with
    | .object members => do
      let more ← (Assignments.ofArguments fields).mapError .field
      .ok (.object (Members.extend members more))
    | _ => .error .notAnObject

/-- The document of a file, if there is one, under the assigned fields. -/
def buildDocument (path : Option String) (fields : List String) : Script Json := do
  let doc ← match path with
    | some path => readDocument path
    | none => if fields.isEmpty then .fail .nothingToSign else pure (.object [])
  Script.ofExcept (overlay doc fields)

def signedPath (path : String) : String := path ++ ".signed.json"

def keygen (json : Bool) : Script Unit := do
  let bytes ← Script.randomBytes 40
  let pair := (PrivateKey.ofRandom bytes).pair
  if json then
    Script.printLine (Json.object [("address", .string pair.address),
      ("private_key", .string pair.privateKey), ("public_key", .string pair.publicKey)]).pretty
  else do
    Script.printLine ("Address:     " ++ pair.address)
    Script.printLine ("Public key:  " ++ pair.publicKey)
    Script.printLine ("Private key: " ++ pair.privateKey)
    Script.printLine ""
    Script.printLine "Store the private key yourself - it is not saved anywhere."

def address (publicKey : String) : Script Unit := do
  let address ← Script.attempt ((Address.ofText publicKey).mapError .key)
  Script.printLine address

def validate (address : String) : Script Unit :=
  if Address.isValid address then Script.printLine "✓ Valid DAG address"
  else do
    Script.warnLine "✗ Invalid DAG address"
    .fail (.notAnAddress address)

def sign (invocation : Invocation) (settings : Settings) (path : Option String) (mode : Mode)
    (fields : List String) (output : Option String) (dryRun : Bool) : Script Unit := do
  let doc ← buildDocument path fields
  let keys ← signingKeys invocation settings
  let signed ← Script.attempt (Signed.batch mode doc keys)
  match output <|> path.map signedPath, dryRun with
  | some target, false => do
    Script.writeText target (Signed.document signed).pretty
    Script.printLine ("Signed document written to: " ++ target)
    Report.signers signed.proofs
  | _, _ => Script.printLine (Signed.document signed).pretty

/-- Writes a co-signed document back, or prints it. -/
def finishCosign (path : String) (dryRun : Bool) (doc : Json) (proofs : List Proof) :
    Script Unit :=
  if dryRun then Script.printLine doc.pretty
  else do
    Script.writeText path doc.pretty
    Script.printLine ("Signature added to: " ++ path)
    Report.signers proofs

def cosign (invocation : Invocation) (settings : Settings) (path : String) (mode : Mode)
    (dryRun : Bool) : Script Unit := do
  let signed ← readSigned path
  let keys ← signingKeys invocation settings
  let signed ← Script.attempt (keys.foldlM (Signed.addSignature mode) signed)
  finishCosign path dryRun (Signed.document signed) signed.proofs

def verify (path : String) (mode : Mode) : Script Unit := do
  let signed ← readSigned path
  Report.verdict (Signed.verdict mode signed)

def drawSalt : Script String := do
  let bytes ← Script.randomBytes 8
  pure (Salt.ofRandom (.ofNat (BigEndian.toNat bytes)))

def createTransaction (invocation : Invocation) (settings : Settings) (transfer : Transfer)
    (parent : Reference) (output : Option String) : Script Unit := do
  let key ← signingKey invocation settings
  let salt ← drawSalt
  let tx ← Script.attempt (Transaction.create transfer key parent salt)
  let hash ← Script.attempt (tx.value.hash.mapError .encoding)
  Script.warnLine ("Transaction hash: " ++ hash.text)
  Report.emit output tx.toJson

def batchTransactions (invocation : Invocation) (settings : Settings) (path : String)
    (parent : Reference) (output : Option String) : Script Unit := do
  let transfers ← readAs (Tree.list? Transfer.ofTree?) path
  let key ← signingKey invocation settings
  let salted ← transfers.mapM fun transfer => do
    let salt ← drawSalt
    pure (transfer, salt)
  let txs ← Script.attempt (Transaction.batch key parent salted)
  Script.warnLine s!"Created {txs.length} chained transactions"
  Report.emit output (.array (txs.map Transaction.toJson))

def cosignTransaction (invocation : Invocation) (settings : Settings) (path : String)
    (dryRun : Bool) : Script Unit := do
  let tx ← readTransaction path
  let keys ← signingKeys invocation settings
  let tx ← Script.attempt (keys.foldlM Transaction.sign tx)
  finishCosign path dryRun tx.toJson tx.proofs

def hashTransaction (path : String) : Script Unit := do
  let tx ← readTransaction path
  let hash ← Script.attempt (tx.value.hash.mapError .encoding)
  Script.printLine hash.text

/-- The settings are read before any command starts. -/
def ofInvocation (home : Option String) (invocation : Invocation) : Script Unit := do
  let settings ← loadSettings invocation.settings home
  let mode (dataUpdate : Bool) : Mode := .ofFlag (dataUpdate || settings.dataUpdate)
  match invocation.command with
  | .keygen json => keygen json
  | .address publicKey => address publicKey
  | .validate text => validate text
  | .sign path dataUpdate fields output dryRun =>
    sign invocation settings path (mode dataUpdate) fields output dryRun
  | .cosign path dataUpdate dryRun => cosign invocation settings path (mode dataUpdate) dryRun
  | .verify path dataUpdate => verify path (mode dataUpdate)
  | .createTransaction destination amount fee parent output =>
    createTransaction invocation settings
      ⟨destination, amount, fee.getD settings.defaultFee⟩ parent output
  | .batchTransactions path parent output =>
    batchTransactions invocation settings path parent output
  | .cosignTransaction path dryRun => cosignTransaction invocation settings path dryRun
  | .verifyTransaction path => do
    let tx ← readTransaction path
    Report.verdict tx.verdict
  | .hashTransaction path => hashTransaction path

end Commands

end LedgerSigning
