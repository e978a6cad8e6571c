import LedgerSigning.Preimage
import LedgerSigning.Proof

/-! Signing and verifying documents. Keys are given as text. -/
namespace LedgerSigning

/-- Names the signature scheme and the canonical form that go together. -/
def algorithm : String := "SECP256K1_RFC8785_V1"

namespace Json

/-- The proof by a key for a document. A document without a hash is reported before a bad
key. -/
def sign (mode : Mode) (doc : Json) (key : String) : Except Error Proof := do
  let hash ← (doc.hash mode).mapError .encoding
  Proof.make hash.text key

/-- Whether one proof verifies for a document. -/
def verifiesProof (mode : Mode) (doc : Json) (proof : Proof) : Bool :=
  match doc.hash mode with
  | .ok hash => proof.verifiesFor hash.text
  | .error _ => false

end Json

namespace Signed

/-- A document with the proof by one key. -/
def create (mode : Mode) (doc : Json) (key : String) : Except Error (Signed Json) := do
  let proof ← doc.sign mode key
  .ok ⟨doc, [proof]⟩

/-- Adds the proof by one more key. -/
def addSignature (mode : Mode) (signed : Signed Json) (key : String) :
    Except Error (Signed Json) := do
  let proof ← signed.value.sign mode key
  .ok (signed.withProof proof)

/-- A document with one proof for each key, in the order of the keys. -/
def batch (mode : Mode) (doc : Json) (keys : List String) : Except Error (Signed Json) :=
  if keys.isEmpty then .error (.argument .noKeys)
  else do
    let proofs ← keys.mapM (doc.sign mode)
    .ok ⟨doc, proofs⟩

def verdict (mode : Mode) (signed : Signed Json) : Verdict :=
  .ofHash (signed.value.hash mode) signed.proofs

/-- A signed document as a document. -/
def document (signed : Signed Json) : Json := signed.toJson id

/-- Reads a signed document, which takes one level of nesting itself. -/
def ofText? (text : String) : Option (Signed Json) := do
  let tree ← Tree.ofText? text.toList
  ofTree? (Tree.toJson? (Tree.maxLevels - 1)) tree

end Signed

end LedgerSigning
