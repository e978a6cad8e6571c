import LedgerSigning.Hash.Sha2

/-! Keyed hashes. -/
namespace LedgerSigning

/-- HMAC with SHA-256. Keys are at most one block of 64 bytes long. -/
def hmac (key message : List UInt8) : List UInt8 :=
  let key := key ++ List.replicate (64 - key.length) 0
  sha256 (key.map (· ^^^ 0x5c) ++ sha256 (key.map (· ^^^ 0x36) ++ message))

end LedgerSigning
