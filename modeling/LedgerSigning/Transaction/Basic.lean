import LedgerSigning.Json.Reader
import LedgerSigning.Proof

/-! Currency transactions and what they are made of, with their JSON forms. -/
namespace LedgerSigning

/-- Points at the transaction that a new one follows. -/
structure Reference where
  hash : String
  ordinal : UInt64
deriving DecidableEq

/-- A requested transfer, in tokens. -/
structure Transfer where
  destination : String
  amount : Binary64
  fee : Binary64
deriving DecidableEq

/-- What a transaction signs. Amount and fee count units; the salt is an integer as text. -/
structure Body where
  source : String
  destination : String
  amount : UInt64
  fee : UInt64
  parent : Reference
  salt : String
deriving DecidableEq

abbrev Transaction := Signed Body

namespace Reference

def toJson (r : Reference) : Json :=
  .object [("hash", .string r.hash), ("ordinal", .ofUInt64 r.ordinal)]

def ofTree? (tree : Tree) : Option Reference := do
  match ← tree.fields? ["hash", "ordinal"] with
  | [some hash, some ordinal] => do some ⟨← hash.text?, ← ordinal.unsigned64?⟩
  | _ => none

end Reference

namespace Transfer

def toJson (t : Transfer) : Json :=
  .object [("destination", .string t.destination), ("amount", .ofBinary64 t.amount),
    ("fee", .ofBinary64 t.fee)]

/-- An absent fee is zero. -/
def ofTree? (tree : Tree) : Option Transfer := do
  match ← tree.fields? ["destination", "amount", "fee"] with
  | [some destination, some amount, fee] => do
    let fee ← match fee with
      | some fee => fee.binary64?
      | none => some (.zero false)
    some ⟨← destination.text?, ← amount.binary64?, fee⟩
  | _ => none

end Transfer

namespace Body

def toJson (b : Body) : Json :=
  .object [("source", .string b.source), ("destination", .string b.destination),
    ("amount", .ofUInt64 b.amount), ("fee", .ofUInt64 b.fee), ("parent", b.parent.toJson),
    ("salt", .string b.salt)]

/-- The salt may be given as a string or as an integer. -/
def ofTree? (tree : Tree) : Option Body := do
  match ← tree.fields? ["source", "destination", "amount", "fee", "parent", "salt"] with
  | [some source, some destination, some amount, some fee, some parent, some salt] => do
    some ⟨← source.text?, ← destination.text?, ← amount.unsigned64?, ← fee.unsigned64?,
      ← Reference.ofTree? parent, ← salt.numeralText?⟩
  | _ => none

end Body

namespace Transaction

def toJson (tx : Transaction) : Json := Signed.toJson Body.toJson tx

def ofTree? (tree : Tree) : Option Transaction := Signed.ofTree? Body.ofTree? tree

def ofText? (text : String) : Option Transaction := (Tree.ofText? text.toList).bind ofTree?

end Transaction

end LedgerSigning
