import LedgerSigning.Address
import LedgerSigning.Transaction.Amount
import LedgerSigning.Transaction.Encoding

/-! Making transactions, one or a chain of them, and checking their proofs. Salts are given. -/
namespace LedgerSigning

namespace Salt

/-- The least of the salts that are drawn: 2^53 less 2^48. -/
def least : Nat := 0x20000000000000 - 0x1000000000000

/-- The salt of 64 random bits, of which the upper 48 are used. -/
def ofRandom (bits : UInt64) : String :=
  String.ofList (Numeral.ofNat (least + bits.toNat / 0x10000))

end Salt

namespace Transaction

/-- Adds the proof by a key after checking it against the transaction's hash. -/
def sign (tx : Transaction) (key : String) : Except Error Transaction := do
  let hash ← tx.value.hash.mapError .encoding
  let proof ← Proof.make hash.text key
  if proof.verifiesFor hash.text then .ok (tx.withProof proof)
  else .error (.selfCheck proof.id hash.text)

def verdict (tx : Transaction) : Verdict := .ofHash tx.value.hash tx.proofs

/-- The reference to a transaction at an ordinal. -/
def reference (tx : Transaction) (ordinal : UInt64) : Except Error Reference := do
  let hash ← tx.value.hash.mapError .encoding
  .ok ⟨hash.text, ordinal⟩

/-- The body of a transfer from an address. -/
def body (source : String) (transfer : Transfer) (parent : Reference) (salt : String) :
    Except ArgumentError Body := do
  if !Address.isValid source then .error (.badSource source)
  else if !Address.isValid transfer.destination then .error (.badDestination transfer.destination)
  else if source = transfer.destination then .error .sameAddress
  else
    let amount ← Amount.checked .amount transfer.amount
    let fee ← Amount.checked .fee transfer.fee
    if amount < 1 then .error .belowOneUnit
    else if fee < 0 then .error .negativeFee
    else .ok ⟨source, transfer.destination, .ofNat amount.toNat, .ofNat fee.toNat, parent, salt⟩

/-- The transfer from a key's address, signed by that key. -/
def create (transfer : Transfer) (key : String) (parent : Reference) (salt : String) :
    Except Error Transaction := do
  let source ← (PrivateKey.ofText key).mapError .key
  let value ← (body source.address transfer parent salt).mapError .argument
  sign ⟨value, []⟩ key

/-- The reference that follows a transaction with this parent. -/
def next (tx : Transaction) (parent : Reference) : Except Error Reference :=
  if parent.ordinal.toNat + 1 < Numeral.words then tx.reference (parent.ordinal + 1)
  else .error (.argument (.lastOrdinal parent.ordinal))

/-- One transaction for each transfer and its salt, each following the one before. -/
def batch (key : String) : Reference → List (Transfer × String) → Except Error (List Transaction)
  | _, [] => .ok []
  | parent, (transfer, salt) :: rest => do
    let tx ← create transfer key parent salt
    let parent ← tx.next parent
    let others ← batch key parent rest
    .ok (tx :: others)

end Transaction

end LedgerSigning
