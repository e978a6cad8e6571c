import LedgerSigning.Cli.Commands

/-! The command line tool. It carries out the requests of a script one by one. -/
namespace LedgerSigning

namespace Script

/-- The cause of a file operation that did not succeed. -/
def faultOf : IO.Error → FileError
  | .noFileOrDirectory _ _ _ => .missing
  | .inappropriateType _ code _ => if code = 21 then .isDirectory else .notDirectory
  | .permissionDenied _ code _ => if code = 1 then .notPermitted else .denied
  | error => .other (toString error)

def performing {α : Type} (action : IO α) : IO (Except FileError α) := do
  try
    let value ← action
    pure (.ok value)
  catch error => pure (.error (faultOf error))

/-- Something stands at the path, and it is no directory: that alone could be followed by a slash.
The file is not opened, so one that may not be read is found as well. -/
def standsFile (path : String) : IO Bool := do
  let found ← performing (IO.FS.realPath path)
  let entered ← performing (IO.FS.realPath (path ++ "/"))
  pure (found.isOk && !entered.isOk)

/-- The bits of a mode as access rights: three for the owner, three for the group, three for all
others. -/
def rightsOf (mode : Nat) : IO.FileRight :=
  let rights (shift : Nat) : IO.AccessRight :=
    ⟨mode.testBit (shift + 2), mode.testBit (shift + 1), mode.testBit shift⟩
  ⟨rights 6, rights 3, rights 0⟩

def perform {α : Type} : Script α → IO (Except Failure α)
  | .done value => pure (.ok value)
  | .fail failure => pure (.error failure)
  | .readFile path next => do
    let answer ← performing (IO.FS.readBinFile path)
    (next (answer.map (·.toList))).perform
  | .isFile path next => do
    let answer ← standsFile path
    (next answer).perform
  | .writeFile path bytes next => do
    let answer ← performing (IO.FS.writeBinFile path ⟨bytes.toArray⟩)
    (next answer).perform
  | .setMode path mode next => do
    let answer ← performing (IO.setAccessRights path (rightsOf mode))
    (next answer).perform
  | .print .out line next => do
    IO.println line
    next.perform
  | .print .err line next => do
    IO.eprintln line
    next.perform
  | .random count next => do
    let bytes ← IO.getRandomBytes (.ofNat count)
    (next bytes.toList).perform

end Script

/-- How the commands are called. -/
def usage : String := "Usage: ledger-signing [OPTIONS] <COMMAND>

Commands:
  keygen                          Generate a new key pair
  address <PUBLIC_KEY>            Derive the DAG address of a public key
  validate <ADDRESS>              Check that a DAG address is well formed
  sign [PATH]                     Sign a JSON document with one or more keys
  cosign <PATH>                   Add a signature to a signed document
  verify <PATH>                   Verify every signature on a signed document
  tx create|batch|cosign|verify|hash  Currency transactions

Options:
  --config <PATH>    Settings file
  --key <HEX>        Private key as 64 hex characters, once for each signer
  --key-file <PATH>  File holding a private key"

end LedgerSigning

open LedgerSigning in
def main (tokens : List String) : IO UInt32 := do
  let envKey ← IO.getEnv "DAGSIGN_PRIVATE_KEY"
  let home ← IO.getEnv "HOME"
  match Invocation.ofTokens envKey tokens with
  | .error .version => do
    IO.println "ledger-signing 0.1.0"
    pure 0
  | .error rejection => do
    if rejection.exitCode = 0 then IO.println usage else IO.eprintln usage
    pure (.ofNat rejection.exitCode)
  | .ok invocation => do
    match ← (Commands.ofInvocation home invocation).perform with
    | .ok _ => pure 0
    | .error failure => do
      IO.eprintln ("Error: " ++ failure.message)
      pure 1
