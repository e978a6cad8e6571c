import LedgerSigning.Cli.Files
import LedgerSigning.Error

/-! Why a command fails. The message of a failure names its causes from the outermost in. -/
namespace LedgerSigning

/-- Why settings are refused. -/
inductive SettingsError where
  | malformed
  | version (found : String)
  | negativeFee (fee : Binary64)
deriving DecidableEq

def SettingsError.message : SettingsError → String
  | .malformed => "Invalid JSON: " ++ malformedNote
  | .version found => s!"Invalid config version: expected '1.0', got '{found}'"
  | .negativeFee fee =>
    "default_fee must be non-negative, got " ++ String.ofList (Layout.message.text fee)

/-- Why field assignments are refused. -/
inductive AssignmentError where
  | noEquals (argument : String)
  | emptyKey (argument : String)
  | emptySegment (key : String)
  | occupied (key segment : String)
deriving DecidableEq

def AssignmentError.message : AssignmentError → String
  | .noEquals argument => s!"Invalid field '{argument}'. Expected 'key=value'"
  | .emptyKey argument => s!"Empty key in field: '{argument}'"
  | .emptySegment key => s!"Invalid key path '{key}': empty segment"
  | .occupied key segment => s!"Cannot nest '{key}': '{segment}' already holds a value"

inductive Failure where
  | settingsUnread (path : String) (cause : FileError)
  | settingsInvalid (path : String) (cause : SettingsError)
  | keyShape (source : String)
  | noKey
  | keyUnread (path : String) (cause : FileError)
  | severalKeys (count : Nat)
  | nothingToSign
  | notAnObject
  | field (cause : AssignmentError)
  | unread (path : String) (cause : FileError)
  | unparsed (path : String)
  | unwritten (path : String) (cause : FileError)
  | modeUnset (cause : FileError)
  | refused (cause : Error)
  | notAnAddress (text : String)
  | unsigned
  | badSignatures (invalid total : Nat)
deriving DecidableEq

namespace Failure

/-- The texts of a failure and of its causes. -/
def causes : Failure → List String
  | settingsUnread path cause => [s!"Failed to read config '{path}'", cause.message]
  | settingsInvalid path cause => [s!"Invalid config '{path}'", cause.message]
  | keyShape source => [s!"Private key from {source} must be 64 hex characters"]
  | noKey => ["No private key: pass --key, set DAGSIGN_PRIVATE_KEY, or use --key-file"]
  | keyUnread path cause => [s!"Failed to read key file '{path}'", cause.message]
  | severalKeys count => [s!"This command signs with one key, got {count}"]
  | nothingToSign => ["Nothing to sign: pass a JSON file or --field pairs"]
  | notAnObject => ["--field requires the document to be a JSON object"]
  | field cause => [cause.message]
  | unread path cause => [s!"Failed to read '{path}'", cause.message]
  | unparsed path => [s!"Failed to parse '{path}'", malformedNote]
  | unwritten path cause => [s!"Failed to write '{path}'", cause.message]
  | modeUnset cause => [cause.message]
  | refused (.encoding cause) => [(Error.encoding cause).message, cause.message]
  | refused cause => [cause.message]
  | notAnAddress text => [s!"'{text}' is not a valid DAG address"]
  | unsigned => ["Document carries no signatures"]
  | badSignatures invalid total => [s!"{invalid} of {total} signatures failed verification"]

def message (failure : Failure) : String := ": ".intercalate failure.causes

end Failure

end LedgerSigning
