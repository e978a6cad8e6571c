import LedgerSigning.Bytes.Hex
import LedgerSigning.Bytes.Base64
import LedgerSigning.Number.Layout
import LedgerSigning.Text.Utf8

/-! Why an operation is refused. Each cause is a constructor, and `message` words it. A
signature that does not verify is no error. -/
namespace LedgerSigning

/-- Stands in messages for the place where a text stops being JSON. -/
def malformedNote : String := "<json>"

/-- Why a document has no canonical text. -/
inductive CanonicalError where
  | unsafeInteger (n : Int)
  | integerRange
  | keyNotText
deriving DecidableEq

namespace CanonicalError

def message : CanonicalError → String
  | unsafeInteger n => s!"integer {n} is outside the exactly representable range"
  | integerRange => "number out of range"
  | keyNotText => "key must be a string"

end CanonicalError

/-- Why the bytes to be hashed cannot be made or read. -/
inductive EncodingError where
  | canonical (cause : CanonicalError)
  | missingHeader
  | missingDelimiter
  | badLength (text : String)
  | lengthMismatch (declared actual : Nat)
  | base64 (cause : Base64Error)
  | utf8 (cause : Utf8Error)
  | json
  | badSalt (text : String)
deriving DecidableEq

namespace EncodingError

def message : EncodingError → String
  | canonical cause => "canonicalization failed: " ++ cause.message
  | missingHeader => "invalid DataUpdate encoding: missing Constellation prefix"
  | missingDelimiter => "invalid DataUpdate encoding: missing length delimiter"
  | badLength text => s!"invalid DataUpdate encoding: invalid length '{text}'"
  | lengthMismatch declared actual =>
    s!"invalid DataUpdate encoding: length mismatch (declared {declared}, actual {actual})"
  | base64 cause => "invalid base64 payload: " ++ cause.message
  | utf8 cause => "invalid UTF-8: " ++ cause.message
  | json => "invalid JSON payload: " ++ malformedNote
  | badSalt text => s!"invalid salt '{text}': expected a decimal integer"

end EncodingError

/-- The quantities of a transfer. -/
inductive Quantity where
  | amount
  | fee
deriving DecidableEq

def Quantity.name : Quantity → String
  | .amount => "amount"
  | .fee => "fee"

/-- Why a request is refused before anything is signed. -/
inductive ArgumentError where
  | noKeys
  | badSource (address : String)
  | badDestination (address : String)
  | sameAddress
  | notFinite (quantity : Quantity)
  | tooLarge (quantity : Quantity) (tokens : Binary64)
  | belowOneUnit
  | negativeFee
  | lastOrdinal (ordinal : UInt64)
deriving DecidableEq

namespace ArgumentError

def message : ArgumentError → String
  | noKeys => "at least one private key is required"
  | badSource address => "invalid source address: " ++ address
  | badDestination address => "invalid destination address: " ++ address
  | sameAddress => "source and destination addresses cannot be the same"
  | notFinite quantity => quantity.name ++ " must be a finite number"
  | tooLarge quantity tokens =>
    quantity.name ++ " " ++ String.ofList (Layout.message.text tokens) ++
      " is too large to express in units"
  | belowOneUnit => "transfer amount must be at least 1e-8"
  | negativeFee => "fee must be greater than or equal to zero"
  | lastOrdinal ordinal => s!"parent ordinal {ordinal.toNat} cannot advance"

end ArgumentError

/-- Why a text is no key. -/
inductive KeyError where
  | hex (cause : HexError)
  | privateShape
  | privateRange
  | publicShape
  | notOnCurve
  | notUncompressed
deriving DecidableEq

namespace KeyError

def message : KeyError → String
  | hex cause => "invalid hex: " ++ cause.message
  | privateShape => "private key must be 64 hex characters"
  | privateRange => "private key is not a valid secp256k1 scalar"
  | publicShape => "public key must be 128 or 130 hex characters"
  | notOnCurve => "public key is not a point on secp256k1"
  | notUncompressed => "address derivation needs an uncompressed 65-byte public key"

end KeyError

inductive Error where
  | encoding (cause : EncodingError)
  | argument (cause : ArgumentError)
  | key (cause : KeyError)
  /-- A fresh signature does not verify. -/
  | selfCheck (id hash : String)
  /-- No signature exists for this digest and key. -/
  | unsignable
deriving DecidableEq

namespace Error

def message : Error → String
  | encoding cause => "encoding error: " ++ cause.message
  | argument cause => "invalid argument: " ++ cause.message
  | key cause => "invalid key: " ++ cause.message
  | selfCheck id hash =>
    s!"sign-verify check failed: signature by {id} does not verify against transaction {hash}"
  | unsignable => "cryptographic error: signature error"

end Error

end LedgerSigning
