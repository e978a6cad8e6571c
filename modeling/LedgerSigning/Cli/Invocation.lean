import LedgerSigning.Cli.Arguments
import LedgerSigning.Transaction.Basic

/-! The commands of the tool and how a command line names them. -/
namespace LedgerSigning

inductive Command where
  | keygen (json : Bool)
  | address (publicKey : String)
  | validate (address : String)
  | sign (path : Option String) (dataUpdate : Bool) (fields : List String)
      (output : Option String) (dryRun : Bool)
  | cosign (path : String) (dataUpdate dryRun : Bool)
  | verify (path : String) (dataUpdate : Bool)
  | createTransaction (destination : String) (amount : Binary64) (fee : Option Binary64)
      (parent : Reference) (output : Option String)
  | batchTransactions (path : String) (parent : Reference) (output : Option String)
  | cosignTransaction (path : String) (dryRun : Bool)
  | verifyTransaction (path : String)
  | hashTransaction (path : String)
deriving DecidableEq

/-- A command with the options that all commands share. -/
structure Invocation where
  settings : Option String
  keys : List String
  keyFile : Option String
  command : Command
deriving DecidableEq

namespace Invocation

def argument (name : String) (kind : Kind) : Argument := ⟨name, none, kind, false⟩

/-- The options that stand at every level. -/
def shared : List Argument :=
  [argument "config" .path, { argument "key" .text with repeats := true },
   argument "key-file" .path]

def path : Argument := argument "path" .path

def output : Argument := { argument "output" .path with short := some 'o' }

def dataUpdate : Argument := argument "data-update" .flag

def dryRun : Argument := argument "dry-run" .flag

def parent : List Argument := [argument "parent-hash" .text, argument "parent-ordinal" .natural]

def parentOf (s : Scan) : Option Reference := do
  some ⟨← s.text? "parent-hash", ← s.natural? "parent-ordinal"⟩

/-- A command with no commands below it: its arguments, and what it is once they are read. A
command that lacks a required argument is none. -/
structure Leaf where
  positionals : List Argument
  options : List Argument
  build : Scan → Option Command

def Leaf.level (leaf : Leaf) : Level := ⟨leaf.options ++ shared, leaf.positionals, [], false⟩

def keygen : Leaf := ⟨[], [argument "json" .flag], fun s => some (.keygen (s.flag "json"))⟩

def address : Leaf :=
  ⟨[argument "public-key" .text], [], fun s => do some (.address (← s.text? "public-key"))⟩

def validate : Leaf :=
  ⟨[argument "address" .text], [], fun s => do some (.validate (← s.text? "address"))⟩

def sign : Leaf :=
  ⟨[path], [dataUpdate, ⟨"field", some 'f', .text, true⟩, output, dryRun], fun s =>
    some (.sign (s.text? "path") (s.flag "data-update") (s.texts "field") (s.text? "output")
      (s.flag "dry-run"))⟩

def cosign : Leaf :=
  ⟨[path], [dataUpdate, dryRun], fun s => do
    some (.cosign (← s.text? "path") (s.flag "data-update") (s.flag "dry-run"))⟩

def verify : Leaf :=
  ⟨[path], [dataUpdate], fun s => do some (.verify (← s.text? "path") (s.flag "data-update"))⟩

def createTransaction : Leaf :=
  ⟨[], [argument "to" .text, argument "amount" .number, argument "fee" .number] ++ parent ++
      [output], fun s => do
    some (.createTransaction (← s.text? "to") (← s.number? "amount") (s.number? "fee")
      (← parentOf s) (s.text? "output"))⟩

def batchTransactions : Leaf :=
  ⟨[path], parent ++ [output], fun s => do
    some (.batchTransactions (← s.text? "path") (← parentOf s) (s.text? "output"))⟩

def cosignTransaction : Leaf :=
  ⟨[path], [dryRun], fun s => do
    some (.cosignTransaction (← s.text? "path") (s.flag "dry-run"))⟩

def verifyTransaction : Leaf :=
  ⟨[path], [], fun s => do some (.verifyTransaction (← s.text? "path"))⟩

def hashTransaction : Leaf :=
  ⟨[path], [], fun s => do some (.hashTransaction (← s.text? "path"))⟩

/-- The commands by name, those below `tx` apart. -/
def leaves : List (String × Leaf) :=
  [("keygen", keygen), ("address", address), ("validate", validate), ("sign", sign),
   ("cosign", cosign), ("verify", verify)]

/-- The commands below `tx`. -/
def transactionLeaves : List (String × Leaf) :=
  [("create", createTransaction), ("batch", batchTransactions), ("cosign", cosignTransaction),
   ("verify", verifyTransaction), ("hash", hashTransaction)]

def root : Level := ⟨shared, [], leaves.map (·.1) ++ ["tx", "help"], true⟩

def transactions : Level := ⟨shared, [], transactionLeaves.map (·.1) ++ ["help"], false⟩

/-- Help on the command that the names lead to. -/
def help (level : Level) : List String → Rejection
  | [] => .help
  | name :: rest =>
    if name ∉ level.commands then .invalidSubcommand
    else if name = "tx" then help transactions rest
    else if rest.isEmpty then .help
    else .invalidSubcommand

/-- Reads the tokens of a command. -/
def readLeaf (leaves : List (String × Leaf)) (name : String) (tokens : List String) :
    Except Rejection (List Scan × Command) :=
  match leaves.lookup name with
  | none => .error .invalidSubcommand
  | some leaf => do
    let (s, _) ← scan leaf.level false .start tokens
    let s ← s.settle
    match leaf.build s with
    | some command => .ok ([s], command)
    | none => .error .missingRequired

/-- Reads a level with commands: first the command, then what the level itself still holds. The
scans are listed from the deepest level up. A key of the environment counts as something
given where no command is. -/
def readBranch (level : Level) (envKey : Option String)
    (command : String → List String → Except Rejection (List Scan × Command))
    (tokens : List String) : Except Rejection (List Scan × Command) := do
  let (s, found) ← scan level false .start tokens
  match found with
  | some ("help", rest) => .error (help level rest)
  | some (name, rest) =>
    let (scans, command) ← command name rest
    let s ← s.settle
    .ok (scans ++ [s], command)
  | none =>
    let s ← s.settle
    .error (if s.found.isEmpty ∧ envKey.isNone then .nothingGiven else .missingSubcommand)

/-- The texts of a shared option: those of the deepest level that has any. -/
def sharedTexts (scans : List Scan) (name : String) : List String :=
  ((scans.map (·.texts name)).find? (!·.isEmpty)).getD []

/-- Reads a command line. The key of the environment stands in when no key is given. -/
def ofTokens (envKey : Option String) (tokens : List String) : Except Rejection Invocation := do
  let (scans, command) ← readBranch root envKey (fun name rest =>
    if name = "tx" then readBranch transactions envKey (readLeaf transactionLeaves) rest
    else readLeaf leaves name rest) tokens
  let keys := sharedTexts scans "key"
  .ok ⟨(sharedTexts scans "config").head?, if keys.isEmpty then envKey.toList else keys,
    (sharedTexts scans "key-file").head?, command⟩

end Invocation

end LedgerSigning
