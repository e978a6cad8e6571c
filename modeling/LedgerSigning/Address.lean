import LedgerSigning.Bytes.Base58
import LedgerSigning.Key

/-! Ledger addresses: `DAG`, a check digit, and 36 base58 symbols. -/
namespace LedgerSigning

namespace Address

/-- The fixed header of an encoded secp256k1 key, before the bytes of its point. -/
def keyHeader : List UInt8 :=
  [0x30, 0x56, 0x30, 0x10, 0x06, 0x07, 0x2a, 0x86, 0x48, 0xce, 0x3d, 0x02, 0x01, 0x06, 0x05,
   0x2b, 0x81, 0x04, 0x00, 0x0a, 0x03, 0x42, 0x00]

def bodyLength : Nat := 36

/-- The decimal digits of a body added up, modulo nine. -/
def checkDigit (body : List Char) : Nat :=
  (body.filter Char.isDigit).foldl (fun sum c => sum + (c.toNat - 48)) 0 % 9

/-- The end of the base58 text of a hash, after its check digit. -/
def ofHash (hash : List UInt8) : String :=
  let symbols := Base58.encode hash
  let body := symbols.drop (symbols.length - bodyLength)
  String.ofList ("DAG".toList ++ Nat.digitChar (checkDigit body) :: body)

/-- The address of the 65 bytes of a public key. -/
def ofBytes (publicKey : List UInt8) : String := ofHash (sha256 (keyHeader ++ publicKey))

/-- The address of a public key text. Whether its point is on the curve is not looked at. -/
def ofText (publicKey : String) : Except KeyError String := do
  let bytes ← hexBytes (PublicKey.withMark publicKey)
  if bytes.length = 65 ∧ bytes.head? = some 4 then .ok (ofBytes bytes)
  else .error .notUncompressed

/-- The shape of an address, looked at octet by octet: 40 of them, the check digit at most
eight. The check digit is not recomputed. -/
def isValid (text : String) : Bool :=
  match Utf8.encode text.toList with
  | 0x44 :: 0x41 :: 0x47 :: check :: body =>
    0x30 ≤ check && check ≤ 0x38 && body.length == bodyLength &&
      body.all fun b => Base58.alphabet.any (·.toNat == b.toNat)
  | _ => false

end Address

/-- A private key with its public key and address, all as text. -/
structure KeyPair where
  privateKey : String
  publicKey : String
  address : String
deriving DecidableEq

def PrivateKey.address (key : PrivateKey) : String := Address.ofBytes (PublicKey.bytes key.point)

def PrivateKey.pair (key : PrivateKey) : KeyPair :=
  ⟨key.text, PublicKey.text key.point, key.address⟩

end LedgerSigning
