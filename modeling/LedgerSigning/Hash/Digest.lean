import LedgerSigning.Hash.Sha2
import LedgerSigning.Bytes.Hex
import LedgerSigning.Text.Utf8

/-! The two stages from signable bytes to the digest that is signed. The second stage hashes
the hexadecimal text of the first, and never decodes it. -/
namespace LedgerSigning

/-- A SHA-256 hash. -/
structure Hash where
  bytes : List UInt8
deriving DecidableEq

namespace Hash

/-- The hash of a message. -/
def ofMessage (message : List UInt8) : Hash := ⟨sha256 message⟩

def text (h : Hash) : String := String.ofList (Hex.encode h.bytes)

end Hash

/-- The first 32 bytes of the SHA-512 hash of a text. -/
def digestOf (text : String) : List UInt8 := (sha512 (Utf8.encode text.toList)).take 32

def Hash.digest (h : Hash) : List UInt8 := digestOf h.text

end LedgerSigning
