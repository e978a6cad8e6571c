import LedgerSigning.Cli.Failure
import LedgerSigning.Json.Reader
import LedgerSigning.Json.Record
import LedgerSigning.Json.Writer

/-! Settings read from a JSON file. -/
namespace LedgerSigning

structure Settings where
  version : String
  /-- A file that holds a private key. -/
  privateKeyFile : Option String
  /-- The fee in tokens of a transfer that names none. -/
  defaultFee : Binary64
  /-- Whether documents are signed as data updates unless told otherwise. -/
  dataUpdate : Bool
deriving DecidableEq

namespace Settings

def standard : Settings := ⟨"1.0", none, .zero false, false⟩

/-- Where the settings are looked for below a home directory. -/
def defaultPath (home : String) : String := Path.join (Path.join home ".dagsign") "config.json"

/-- All fields but the version may be absent, and the key file may be null. -/
def ofTree? (tree : Tree) : Option Settings := do
  match ← tree.fields? ["version", "private_key_file", "default_fee", "data_update"] with
  | [some version, file, fee, update] => do
    let file ← match file with
      | some .null | none => some none
      | some file => file.text?.map some
    let fee ← match fee with
      | some fee => fee.binary64?
      | none => some standard.defaultFee
    let update ← match update with
      | some update => update.bool?
      | none => some standard.dataUpdate
    some ⟨← version.text?, file, fee, update⟩
  | _ => none

/-- Reads settings of version 1.0 with a fee that is not below zero. -/
def ofText (text : String) : Except SettingsError Settings :=
  match (Tree.ofText? text.toList).bind ofTree? with
  | none => .error .malformed
  | some settings =>
    if settings.version ≠ standard.version then .error (.version settings.version)
    else if settings.defaultFee.isBelowZero then .error (.negativeFee settings.defaultFee)
    else .ok settings

/-- An absent key file is left out. -/
def toJson (settings : Settings) : Json :=
  let file := match settings.privateKeyFile with
    | some path => [("private_key_file", Json.string path)]
    | none => []
  .object ([("version", .string settings.version)] ++ file ++
    [("default_fee", .ofBinary64 settings.defaultFee), ("data_update", .bool settings.dataUpdate)])

end Settings

end LedgerSigning
