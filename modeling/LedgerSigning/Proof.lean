import LedgerSigning.Json.Record
import LedgerSigning.Key

/-! Proofs that a key signed a hash, values that carry them, and the verdict on them. -/
namespace LedgerSigning

/-- The public key text of a signer and a signature text. -/
structure Proof where
  id : String
  signature : String
deriving DecidableEq

/-- Whether a proof verifies for the text of a hash. -/
def Proof.verifiesFor (proof : Proof) (hash : String) : Bool :=
  verifies (digestOf hash) proof.signature proof.id

/-- The proof by a private key text for the text of a hash. -/
def Proof.make (hash key : String) : Except Error Proof := do
  let key ← (PrivateKey.ofText key).mapError .key
  let signature ← key.sign (digestOf hash)
  .ok ⟨key.id, signature⟩

/-- A value with its proofs in the order in which they were added. -/
structure Signed (α : Type) where
  value : α
  proofs : List Proof

namespace Signed

variable {α : Type}

def withProof (signed : Signed α) (proof : Proof) : Signed α :=
  ⟨signed.value, signed.proofs ++ [proof]⟩

end Signed

/-- Proofs told apart by whether they verify, each part in order. -/
structure Verdict where
  valid : List Proof
  invalid : List Proof
deriving DecidableEq

namespace Verdict

/-- At least one proof, and none that is invalid. -/
def isValid (v : Verdict) : Bool := v.invalid.isEmpty && !v.valid.isEmpty

def ofCheck (check : Proof → Bool) (proofs : List Proof) : Verdict :=
  ⟨proofs.filter check, proofs.filter (!check ·)⟩

/-- The verdict for a hash; a value without a hash makes all its proofs invalid. -/
def ofHash {ε : Type} (hash : Except ε Hash) (proofs : List Proof) : Verdict :=
  match hash with
  | .ok hash => ofCheck (·.verifiesFor hash.text) proofs
  | .error _ => ofCheck (fun _ => false) proofs

end Verdict

namespace Proof

def toJson (proof : Proof) : Json :=
  .object [("id", .string proof.id), ("signature", .string proof.signature)]

def ofTree? (tree : Tree) : Option Proof := do
  match ← tree.fields? ["id", "signature"] with
  | [some id, some signature] => do some ⟨← id.text?, ← signature.text?⟩
  | _ => none

end Proof

namespace Signed

variable {α : Type}

def toJson (valueToJson : α → Json) (signed : Signed α) : Json :=
  .object [("value", valueToJson signed.value), ("proofs", .array (signed.proofs.map Proof.toJson))]

def ofTree? (readValue : Tree → Option α) (tree : Tree) : Option (Signed α) := do
  match ← tree.fields? ["value", "proofs"] with
  | [some value, some proofs] => do some ⟨← readValue value, ← proofs.list? Proof.ofTree?⟩
  | _ => none

end Signed

end LedgerSigning
